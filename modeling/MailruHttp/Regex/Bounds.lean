import MailruHttp.Regex.Compile

/-! The matcher stays in range on every automaton the builder functions can
make, whatever is set on the edges they return. -/

namespace MailruHttp.Regex

open Library

/-- What the source sets on an edge a builder function has returned. -/
inductive Setting where
  | match (c : UInt8)
  | notMatch (c : UInt8)
  | startCaptureGroup
  | endCaptureGroup
  | final (value : Bool)

def Setting.apply (edge : Edge) : Setting → Edge
  | .match c => edge.match c
  | .notMatch c => edge.notMatch c
  | .startCaptureGroup => edge.startCaptureGroup
  | .endCaptureGroup => edge.endCaptureGroup
  | .final value => { edge with final := value }

/-- One call of a builder function, with the settings put on the returned edge. A
setting put there after later calls makes the same automaton, since no builder
function reads an edge. -/
inductive BuilderCall where
  | newState
  | nextStateOn (settings : List Setting)
  | loopOn (settings : List Setting)
  | append (combinator : Combinator) (settings : List Setting)

/-- Only these two extend the last state and so need one. -/
def BuilderCall.createsState : BuilderCall → Bool
  | .newState => true
  | .nextStateOn _ => false
  | .loopOn _ => false
  | .append _ _ => true

def putSettings (settings : List Setting) (made : DFA × EdgeRef) : DFA :=
  made.1.modifyEdge made.2 fun edge => settings.foldl Setting.apply edge

def BuilderCall.build (dfa : DFA) : BuilderCall → Option DFA
  | .newState => some dfa.newState
  | .nextStateOn settings => dfa.nextStateOn.map (putSettings settings)
  | .loopOn settings => dfa.loopOn.map (putSettings settings)
  | .append combinator settings => (combinator.build dfa).map (putSettings settings)

/-- The calls in order on an empty automaton, then `stringMustEndWidth`. -/
def buildAll (calls : List BuilderCall) (e : UInt8) : Option DFA := do
  let dfa ← calls.foldlM BuilderCall.build {}
  dfa.stringMustEndWidth e

/-- No edge leads past the state with this index. -/
def TargetsUpTo (bound : Nat) (states : List (List Edge)) : Prop :=
  ∀ edges ∈ states, ∀ edge ∈ edges, edge.state ≤ bound

/-- While building, an edge may name the state after the last one. -/
def Forward (dfa : DFA) : Prop := TargetsUpTo dfa.edges.length dfa.edges

theorem TargetsUpTo.mono {states : List (List Edge)} {low high : Nat}
    (bounded : TargetsUpTo low states) (le : low ≤ high) : TargetsUpTo high states :=
  fun edges member edge inside => Nat.le_trans (bounded edges member edge inside) le

theorem TargetsUpTo.append {front back : List (List Edge)} {bound : Nat}
    (first : TargetsUpTo bound front) (second : TargetsUpTo bound back) :
    TargetsUpTo bound (front ++ back) := by
  intro edges member
  rcases List.mem_append.mp member with before | after
  · exact first edges before
  · exact second edges after

theorem settings_state (settings : List Setting) (edge : Edge) :
    (settings.foldl Setting.apply edge).state = edge.state := by
  induction settings generalizing edge with
  | nil => rfl
  | cons setting settings ih =>
    rw [List.foldl_cons, ih]
    cases setting <;> rfl

/-- An element of a modified list is an old one or a changed old one. -/
theorem mem_modify {α : Type} {change : α → α} {xs : List α} {i : Nat} {x : α}
    (member : x ∈ xs.modify i change) : x ∈ xs ∨ ∃ old ∈ xs, x = change old := by
  obtain ⟨j, inside, found⟩ := List.mem_iff_getElem.mp member
  rw [List.length_modify] at inside
  rw [List.getElem_modify] at found
  split at found
  · exact .inr ⟨xs[j], List.getElem_mem inside, found.symm⟩
  · exact .inl (found ▸ List.getElem_mem inside)

/-- Settings leave every target where it was. -/
theorem putSettings_forward (settings : List Setting) {made : DFA × EdgeRef}
    (forward : Forward made.1) : Forward (putSettings settings made) := by
  intro edges member edge inside
  have size : (putSettings settings made).edges.length = made.1.edges.length :=
    List.length_modify ..
  rw [size]
  rcases mem_modify member with old | ⟨old, present, rfl⟩
  · exact forward edges old edge inside
  · rcases mem_modify inside with kept | ⟨before, kept, rfl⟩
    · exact forward old present edge kept
    · rw [settings_state]
      exact forward old present before kept

theorem putSettings_ne_nil (settings : List Setting) {made : DFA × EdgeRef}
    (nonempty : made.1.edges ≠ []) : (putSettings settings made).edges ≠ [] := by
  intro empty
  have size : (putSettings settings made).edges.length = made.1.edges.length :=
    List.length_modify ..
  rw [empty] at size
  exact nonempty (List.length_eq_zero_iff.mp size.symm)

/-- `push_back` on the last state of an automaton that has one. -/
theorem pushEdge_forward {dfa : DFA} (edge : Edge) (nonempty : dfa.edges ≠ [])
    (forward : Forward dfa) (target : edge.state ≤ dfa.edges.length) :
    ∃ made, dfa.pushEdge edge = some made ∧ made.1.edges ≠ [] ∧ Forward made.1 := by
  obtain ⟨states, edges, split⟩ := (List.eq_nil_or_concat' dfa.edges).resolve_left nonempty
  refine ⟨(⟨states ++ [edges ++ [edge]]⟩, ⟨dfa.edges.length - 1, edges.length⟩), ?_, by simp, ?_⟩
  · simp [DFA.pushEdge, split]
  · unfold Forward at forward ⊢
    rw [split] at forward target
    have last := forward edges (by simp)
    have earlier : TargetsUpTo (states ++ [edges]).length states :=
      fun other member => forward other (by simp [member])
    simp only [List.length_append, List.length_singleton] at earlier last target ⊢
    apply earlier.append
    intro other single e inside
    rw [List.mem_singleton.mp single] at inside
    rcases List.mem_append.mp inside with old | new
    · exact last e old
    · rw [List.mem_singleton.mp new]
      exact target

theorem letterStates_targets (state : Nat) (s : List UInt8) :
    TargetsUpTo (state + s.length) (DFA.letterStates state s) := by
  induction s generalizing state with
  | nil => simp [DFA.letterStates, TargetsUpTo]
  | cons c s ih =>
    intro edges member edge inside
    rw [DFA.letterStates, List.mem_cons] at member
    rw [List.length_cons]
    rcases member with first | later
    · rw [first, List.mem_singleton] at inside
      rw [inside]
      simp only
      omega
    · have bounded := ih (state + 1) edges later edge inside
      omega

/-- States appended with targets up to the new end keep the automaton forward. -/
theorem Forward.extend {dfa : DFA} (forward : Forward dfa) {states : List (List Edge)}
    (targets : TargetsUpTo (dfa.edges.length + states.length) states) :
    Forward ⟨dfa.edges ++ states⟩ := by
  unfold Forward
  rw [List.length_append]
  exact (TargetsUpTo.mono forward (Nat.le_add_right ..)).append targets

theorem Combinator.build_forward (combinator : Combinator) {dfa : DFA} (forward : Forward dfa) :
    ∃ made, combinator.build dfa = some made ∧ made.1.edges ≠ [] ∧ Forward made.1 := by
  cases combinator with
  | stringShouldContain s nonempty =>
    obtain ⟨front, c, rfl⟩ := (List.eq_nil_or_concat' s).resolve_left nonempty
    refine ⟨_, DFA.stringShouldContain_eq dfa front c, by simp, ?_⟩
    rw [List.append_assoc]
    apply forward.extend
    simp only [List.length_append, DFA.length_letterStates, List.length_singleton]
    apply TargetsUpTo.append
    · exact (letterStates_targets dfa.edges.length front).mono (by omega)
    · intro edges member edge inside
      rw [List.mem_singleton.mp member, List.mem_singleton] at inside
      rw [inside]
      exact Nat.le_of_eq (Nat.add_assoc ..)
  | zeroOrInfinityNot c =>
    refine ⟨_, rfl, by simp [DFA.zeroOrInfinityNot, DFA.zeroOrInfinityNotWith], ?_⟩
    apply forward.extend
    simp [TargetsUpTo, Edge.notMatch, Edge.match]
  | zeroOrInfinityNot2 c c2 =>
    refine ⟨_, rfl, by simp [DFA.zeroOrInfinityNot2, DFA.zeroOrInfinityNotWith], ?_⟩
    apply forward.extend
    simp [TargetsUpTo, Edge.notMatch, Edge.match]

/-- A call that has the state it needs succeeds and keeps every target forward. -/
theorem BuilderCall.build_forward (call : BuilderCall) {dfa : DFA}
    (ready : call.createsState = true ∨ dfa.edges ≠ []) (forward : Forward dfa) :
    ∃ next, call.build dfa = some next ∧ next.edges ≠ [] ∧ Forward next := by
  cases call with
  | newState => exact ⟨_, rfl, by simp [DFA.newState], forward.extend (by simp [TargetsUpTo])⟩
  | nextStateOn settings =>
    have nonempty := ready.resolve_left (by simp [createsState])
    obtain ⟨made, pushed, more, kept⟩ :=
      pushEdge_forward { state := dfa.edges.length } nonempty forward (Nat.le_refl _)
    refine ⟨_, ?_, putSettings_ne_nil settings more, putSettings_forward settings kept⟩
    rw [build, DFA.nextStateOn, pushed]
    rfl
  | loopOn settings =>
    have nonempty := ready.resolve_left (by simp [createsState])
    obtain ⟨made, pushed, more, kept⟩ :=
      pushEdge_forward { state := dfa.edges.length - 1 } nonempty forward (Nat.sub_le ..)
    refine ⟨_, ?_, putSettings_ne_nil settings more, putSettings_forward settings kept⟩
    rw [build, DFA.loopOn, pushed]
    rfl
  | append combinator settings =>
    obtain ⟨made, built, more, kept⟩ := combinator.build_forward forward
    refine ⟨_, ?_, putSettings_ne_nil settings more, putSettings_forward settings kept⟩
    rw [build, built]
    rfl

theorem builds_forward (calls : List BuilderCall) {dfa : DFA} (forward : Forward dfa)
    (ready : dfa.edges ≠ [] ∨ ∀ call ∈ calls.head?, call.createsState = true) :
    ∃ next, calls.foldlM BuilderCall.build dfa = some next ∧ Forward next := by
  induction calls generalizing dfa with
  | nil => exact ⟨dfa, rfl, forward⟩
  | cons call calls ih =>
    have first : call.createsState = true ∨ dfa.edges ≠ [] := by
      rcases ready with nonempty | creates
      · exact .inr nonempty
      · exact .inl (creates call rfl)
    obtain ⟨middle, built, nonempty, kept⟩ := call.build_forward first forward
    obtain ⟨next, rest, final⟩ := ih kept (.inl nonempty)
    refine ⟨next, ?_, final⟩
    rw [List.foldlM_cons, built]
    exact rest

/-- Every target is a state. -/
structure Closed (dfa : DFA) : Prop where
  nonempty : 0 < dfa.edges.length
  targets : ∀ edges ∈ dfa.edges, ∀ edge ∈ edges, edge.state < dfa.edges.length

/-- `stringMustEndWidth` adds the state the last edges were waiting for. -/
theorem stringMustEndWidth_closed {dfa : DFA} (forward : Forward dfa) (e : UInt8) :
    ∃ final, dfa.stringMustEndWidth e = some final ∧ Closed final := by
  refine ⟨_, DFA.stringMustEndWidth_eq dfa e, ?_, ?_⟩
  · simp
  · intro edges member edge inside
    simp only [List.length_append, List.length_cons, List.length_nil]
    rcases List.mem_append.mp member with old | new
    · have bounded := forward edges old edge inside
      omega
    · simp only [List.mem_cons, List.not_mem_nil, or_false] at new
      rcases new with rfl | rfl
      · rw [List.mem_singleton.mp inside]
        simp
      · simp at inside

/-- The loop invariant of the matcher: the state exists, and so does every group
up to the current one. The group index may well be negative. -/
structure InRange (dfa : DFA) (scan : DFA.Scan) : Prop where
  state : scan.currentState < dfa.edges.length
  groups : scan.currentGroupIndex < scan.result.length

theorem Closed.consume {dfa : DFA} (closed : Closed dfa) {scan : DFA.Scan}
    (inRange : InRange dfa scan) (input : UInt8) :
    ∃ next, dfa.consume .unbounded scan input = some next ∧ InRange dfa next := by
  obtain ⟨state, groups⟩ := inRange
  have present : dfa.edges[scan.currentState]? = some dfa.edges[scan.currentState] :=
    List.getElem?_eq_getElem state
  cases matched : DFA.matchedEdge dfa.edges[scan.currentState] input with
  | none =>
    refine ⟨{ scan with running := false, error := true }, ?_, state, groups⟩
    simp [DFA.consume, present, matched]
  | some i =>
    obtain ⟨edge, member, -, taken⟩ := matchedEdge_takes matched
    rw [consume_of_takes present taken]
    have lower : (if edge.end then scan.currentGroupIndex - 1 else scan.currentGroupIndex) <
        scan.result.length := by
      split <;> omega
    have pushed := pushBack_eq input (Int.toNat_le.mpr lower : Int.toNat (_ + 1) ≤ _)
    simp only [pushed, Option.map_some]
    refine ⟨_, rfl, closed.targets _ (List.getElem_mem state) edge member, ?_⟩
    cases edge.begin with
    | false => simpa using lower
    | true => simpa using lower

theorem Closed.scan {dfa : DFA} (closed : Closed dfa) (input : List UInt8) {scan : DFA.Scan}
    (inRange : InRange dfa scan) : ∃ final, dfa.scan .unbounded scan input = some final := by
  induction input generalizing scan with
  | nil => exact ⟨scan, rfl⟩
  | cons a input ih =>
    unfold DFA.scan
    split
    · obtain ⟨next, consumed, kept⟩ := closed.consume inRange a
      obtain ⟨final, scanned⟩ := ih kept
      exact ⟨final, by rw [consumed, Option.bind_some, scanned]⟩
    · exact ⟨scan, rfl⟩

theorem Closed.match {dfa : DFA} (closed : Closed dfa) (input : List UInt8) :
    ∃ found, dfa.match input = some found := by
  have start : InRange dfa ⟨[[]], false, 0, true, 0⟩ := ⟨closed.nonempty, by simp⟩
  obtain ⟨final, scanned⟩ := closed.scan input start
  simp only [DFA.match, DFA.matchWith, scanned, Option.bind_eq_bind, Option.bind_some]
  split
  · exact ⟨_, rfl⟩
  · split <;> exact ⟨_, rfl⟩

/-- Every sequence of builder calls that begins with a new state and ends with
`stringMustEndWidth` builds an automaton all of whose targets are states. -/
theorem buildAll_closed (calls : List BuilderCall) (e : UInt8)
    (creates : ∀ call ∈ calls.head?, call.createsState = true) :
    ∃ dfa, buildAll calls e = some dfa ∧ Closed dfa := by
  have empty : Forward {} := by simp [Forward, TargetsUpTo]
  obtain ⟨dfa, built, forward⟩ := builds_forward calls empty (.inr creates)
  obtain ⟨final, ended, closed⟩ := stringMustEndWidth_closed forward e
  refine ⟨final, ?_, closed⟩
  unfold buildAll
  rw [built]
  exact ended

end MailruHttp.Regex
