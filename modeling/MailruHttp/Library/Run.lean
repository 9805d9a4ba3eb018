import Mathlib.Data.List.Basic

/-! Finite runs of a labelled step relation, with the rules that carry a fact
about one step to every run. -/

namespace MailruHttp.Library

universe u v w x

variable {State : Type u} {Label : Type v} {step : State → Label → State → Prop}

/-- A run records, for each step taken, the state before it and its label. -/
inductive Run (step : State → Label → State → Prop) (start : State) :
    List (State × Label) → State → Prop where
  | start : Run step start [] start
  | next (earlier : Run step start history state) (taken : step state label after) :
      Run step start (history ++ [(state, label)]) after

def Reachable (step : State → Label → State → Prop) (start state : State) : Prop :=
  ∃ history, Run step start history state

theorem Reachable.start {start : State} : Reachable step start start := ⟨[], .start⟩

theorem Reachable.next {start state after : State} {label : Label}
    (reached : Reachable step start state) (taken : step state label after) :
    Reachable step start after := by
  obtain ⟨history, run⟩ := reached
  exact ⟨history ++ [(state, label)], run.next taken⟩

/-- An invariant that every step keeps, as far as the steps meet `allowed`,
holds after every run whose steps all meet it. -/
theorem Run.invariant_where {allowed : State → Label → Prop} {invariant : State → Prop}
    {start final : State} {history : List (State × Label)}
    (keeps : ∀ state label after, invariant state → allowed state label →
      step state label after → invariant after)
    (run : Run step start history final) (initial : invariant start)
    (meets : ∀ taken ∈ history, allowed taken.1 taken.2) : invariant final := by
  induction run with
  | start => exact initial
  | next earlier taken ih =>
    have before := ih (fun other member => meets other (by simp [member]))
    exact keeps _ _ _ before (meets (_, _) (by simp)) taken

theorem Run.invariant {invariant : State → Prop} {start final : State}
    {history : List (State × Label)}
    (keeps : ∀ state label after, invariant state → step state label after → invariant after)
    (run : Run step start history final) (initial : invariant start) : invariant final :=
  run.invariant_where
    (fun state label after holds (_ : True) taken => keeps state label after holds taken)
    initial (fun _ _ => trivial)

theorem Reachable.invariant {invariant : State → Prop} {start final : State}
    (keeps : ∀ state label after, invariant state → step state label after → invariant after)
    (reached : Reachable step start final) (initial : invariant start) : invariant final := by
  obtain ⟨history, run⟩ := reached
  exact run.invariant keeps initial

/-- A measure that falls in every counted step, and rises by no more than the credit
that a step earns, bounds the number of counted steps of a run. -/
theorem Run.countP_add_le {invariant : State → Prop} {start final : State}
    {history : List (State × Label)} (measure credit : State → Nat)
    (counted : State → Label → Bool)
    (keeps : ∀ state label after, invariant state → step state label after → invariant after)
    (falls : ∀ state label after, invariant state → step state label after →
      (counted state label).toNat + measure after + credit state ≤ measure state + credit after)
    (run : Run step start history final) (initial : invariant start) :
    history.countP (fun taken => counted taken.1 taken.2) + measure final + credit start ≤
      measure start + credit final := by
  induction run with
  | start => simp
  | @next history state label after earlier taken ih =>
    have fallen := falls state label after (earlier.invariant keeps initial) taken
    rw [List.countP_append, List.countP_singleton]
    cases counts : counted state label <;> simp only [counts, Bool.toNat_true, Bool.toNat_false] at fallen <;>
      simp <;> omega

/-- Every step of a run starts in a reachable state. -/
theorem Run.visited {start final : State} {history : List (State × Label)}
    (run : Run step start history final) {state : State} {label : Label}
    (member : (state, label) ∈ history) :
    Reachable step start state ∧ ∃ after, step state label after := by
  induction run with
  | start => simp at member
  | next earlier taken ih =>
    rcases List.mem_append.mp member with before | last
    · exact ih before
    · cases List.mem_singleton.mp last
      exact ⟨⟨_, earlier⟩, _, taken⟩

/-- Two properties of a step that agree under an invariant hold throughout the
same runs. -/
theorem Run.forall_iff {invariant : State → Prop} {first second : State → Label → Prop}
    {start final : State} {history : List (State × Label)}
    (keeps : ∀ state label after, invariant state → step state label after → invariant after)
    (agree : ∀ state label after, invariant state → step state label after →
      (first state label ↔ second state label))
    (run : Run step start history final) (initial : invariant start) :
    (∀ taken ∈ history, first taken.1 taken.2) ↔ ∀ taken ∈ history, second taken.1 taken.2 := by
  have same : ∀ taken ∈ history, (first taken.1 taken.2 ↔ second taken.1 taken.2) := by
    rintro ⟨state, label⟩ member
    obtain ⟨reached, after, taken⟩ := run.visited member
    exact agree state label after (reached.invariant keeps initial) taken
  exact ⟨fun holds taken member => (same taken member).mp (holds taken member),
    fun holds taken member => (same taken member).mpr (holds taken member)⟩

/-- A view under which every step from a reachable state is a step of another
system or changes nothing maps reachable states to reachable states. -/
theorem Reachable.view_reached {Other : Type w} {OtherLabel : Type x}
    {otherStep : Other → OtherLabel → Other → Prop} (view : State → Other) {start final : State}
    (simulates : ∀ state label after, Reachable step start state → step state label after →
      view after = view state ∨ ∃ other, otherStep (view state) other (view after))
    (reached : Reachable step start final) : Reachable otherStep (view start) (view final) := by
  obtain ⟨history, run⟩ := reached
  induction run with
  | start => exact .start
  | next earlier taken ih =>
    rcases simulates _ _ _ ⟨_, earlier⟩ taken with same | ⟨other, moved⟩
    · rw [same]
      exact ih
    · exact ih.next moved

/-- The steps of a run that a view can see make a run of the other system. -/
theorem Run.project {Other : Type w} {OtherLabel : Type x}
    {otherStep : Other → OtherLabel → Other → Prop} (view : State → Other)
    (seen : State → Label → Option OtherLabel) {start final : State}
    {history : List (State × Label)}
    (simulates : ∀ state label after, Reachable step start state → step state label after →
      (seen state label = none ∧ view after = view state) ∨
        ∃ other, seen state label = some other ∧ otherStep (view state) other (view after))
    (run : Run step start history final) :
    Run otherStep (view start)
      (history.filterMap fun taken => (seen taken.1 taken.2).map fun label => (view taken.1, label))
      (view final) := by
  induction run with
  | start => exact .start
  | @next history state label after earlier taken ih =>
    rw [List.filterMap_append, List.filterMap_cons, List.filterMap_nil]
    rcases simulates _ _ _ ⟨_, earlier⟩ taken with ⟨unseen, same⟩ | ⟨other, found, moved⟩
    · simp only [unseen, same, Option.map_none, List.append_nil]
      exact ih
    · simp only [found, Option.map_some]
      exact ih.next moved

theorem Reachable.view {Other : Type w} {OtherLabel : Type x}
    {otherStep : Other → OtherLabel → Other → Prop} (view : State → Other) {start final : State}
    (simulates : ∀ state label after, step state label after →
      view after = view state ∨ ∃ other, otherStep (view state) other (view after))
    (reached : Reachable step start final) : Reachable otherStep (view start) (view final) :=
  reached.view_reached view fun state label after _ taken => simulates state label after taken

end MailruHttp.Library
