import MailruHttp.Regex.Bounds

/-! Exactly when the `int`s of the matcher lead it out of range: its group index
counts down without end on a loop with an end mark, until it wraps round. -/

namespace MailruHttp.Regex

/-- What the loop meets on one byte: an `int` that names no state or no edge, no
edge that takes the byte, or one that does. -/
inductive Turn where
  | lost
  | rejected
  | taken (edge : Edge)
  deriving DecidableEq

def Turn.begins : Turn → Bool
  | .taken edge => edge.begin
  | _ => false

def Turn.ends : Turn → Bool
  | .taken edge => edge.end
  | _ => false

def DFA.turn (dfa : DFA) (state : Nat) (input : UInt8) : Turn :=
  match dfa.edges[state]? with
  | none => .lost
  | some edges =>
    match (matchedEdge edges input).bind Ints.bits32.edge with
    | none => .rejected
    | some i =>
      match edges[i]? with
      | none => .lost
      | some edge => .taken edge

/-- The way of an input through the automaton, up to a final edge. -/
def DFA.turns (dfa : DFA) : Nat → List UInt8 → List Turn
  | _, [] => []
  | state, input :: rest =>
    dfa.turn state input ::
      match dfa.turn state input with
      | .taken edge => if edge.final then [] else dfa.turns (Ints.bits32.state edge.state) rest
      | _ => []

/-- A turn in range after so many begin and end marks: the `int` that counts their
difference is no more than the begin marks, and not one that no loop can pass. -/
def Turn.InRange (begun ended : Nat) : Turn → Prop
  | .lost => False
  | .rejected => True
  | .taken edge =>
    toInt (begun - (ended + edge.end.toNat : Nat)) ≤ begun ∧
      toInt (begun - (ended + edge.end.toNat : Nat)) ≠ 2 ^ 31 - 1

/-- Every turn of a way is in range, given the marks before it. -/
def WayInRange (begun ended : Nat) (turns : List Turn) : Prop :=
  ∀ front turn back, turns = front ++ turn :: back →
    turn.InRange (begun + front.countP Turn.begins) (ended + front.countP Turn.ends)

theorem wayInRange_nil (begun ended : Nat) : WayInRange begun ended [] := by
  intro front turn back split
  simp at split

theorem wayInRange_cons {begun ended : Nat} {turn : Turn} {turns : List Turn} :
    WayInRange begun ended (turn :: turns) ↔ turn.InRange begun ended ∧
      WayInRange (begun + turn.begins.toNat) (ended + turn.ends.toNat) turns := by
  have count (mark : Turn → Bool) (front : List Turn) (before : Nat) :
      before + (turn :: front).countP mark = before + (mark turn).toNat + front.countP mark := by
    rw [List.countP_cons]
    cases mark turn <;> simp +arith
  constructor
  · intro inRange
    refine ⟨by simpa using inRange [] turn turns rfl, fun front next back split => ?_⟩
    have later := inRange (turn :: front) next back (by rw [split, List.cons_append])
    rwa [count, count] at later
  · rintro ⟨first, others⟩ front next back split
    cases front with
    | nil =>
      obtain ⟨rfl, rfl⟩ := List.cons.inj split
      simpa using first
    | cons head front =>
      obtain ⟨rfl, rfl⟩ := List.cons.inj split
      rw [count, count]
      exact others front next back rfl

theorem pushBack_none (input : UInt8) {count : Nat} {groups : List (List UInt8)}
    (few : groups.length < count) : DFA.pushBack input count groups = none := by
  induction count generalizing groups with
  | zero => simp at few
  | succ count ih =>
    cases groups with
    | nil => rfl
    | cons group groups =>
      have rest : groups.length < count := Nat.lt_of_succ_lt_succ few
      simp [DFA.pushBack, ih rest]

section Run

variable {dfa : DFA} {scan : DFA.Scan} {begun ended : Nat} {input : UInt8}

/-- The variables of the loop after so many begin and end marks. -/
structure Marked (scan : DFA.Scan) (begun ended : Nat) : Prop where
  index : scan.currentGroupIndex = toInt (begun - ended)
  groups : scan.result.length = begun + 1

theorem toInt_sub_one (n : Int) : toInt (toInt n - 1) = toInt (n - 1) := Int.bmod_sub_bmod

theorem toInt_add_one (n : Int) : toInt (toInt n + 1) = toInt (n + 1) := Int.bmod_add_bmod

/-- The group index once the end mark of an edge is counted. -/
theorem Marked.last (marked : Marked scan begun ended) (edge : Edge) :
    (if edge.end then Ints.bits32.group (scan.currentGroupIndex - 1) else scan.currentGroupIndex) =
      toInt (begun - (ended + edge.end.toNat : Nat)) := by
  rw [marked.index]
  cases edge.end with
  | false => simp
  | true =>
    have one := toInt_sub_one (begun - ended : Int)
    simp only [Ints.bits32, ↓reduceIte, one, Bool.toNat_true]
    congr 1
    omega

/-- A turn that no edge takes ends the loop with an error. -/
theorem consume_rejected (rejected : dfa.turn scan.currentState input = .rejected) :
    dfa.consume .bits32 scan input = some { scan with running := false, error := true } := by
  unfold DFA.turn at rejected
  cases found : dfa.edges[scan.currentState]? with
  | none => simp [found] at rejected
  | some edges =>
    simp only [found] at rejected
    cases matched : (DFA.matchedEdge edges input).bind Ints.bits32.edge with
    | none => simp [DFA.consume, found, matched]
    | some i => cases present : edges[i]? <;> simp [matched, present] at rejected

theorem consume_lost (lost : dfa.turn scan.currentState input = .lost) :
    dfa.consume .bits32 scan input = none := by
  unfold DFA.turn at lost
  cases found : dfa.edges[scan.currentState]? with
  | none => simp [DFA.consume, found]
  | some edges =>
    simp only [found] at lost
    cases matched : (DFA.matchedEdge edges input).bind Ints.bits32.edge with
    | none => simp [matched] at lost
    | some i =>
      cases present : edges[i]? with
      | none => simp [DFA.consume, found, matched, present]
      | some edge => simp [matched, present] at lost

/-- The index once the begin mark is counted as well. -/
theorem toInt_begin (edge : Edge) (n : Int) :
    (if edge.begin then Ints.bits32.group (toInt n + 1) else toInt n) =
      toInt (n + edge.begin.toNat) := by
  cases edge.begin with
  | false => simp
  | true => simpa [Ints.bits32] using toInt_add_one n

/-- A turn that takes an edge, up to the loop over the groups. -/
theorem Marked.consume_taken (marked : Marked scan begun ended) {edge : Edge}
    (taken : dfa.turn scan.currentState input = .taken edge) :
    dfa.consume .bits32 scan input =
      (let last := toInt (begun - (ended + edge.end.toNat : Nat))
       (Ints.bits32.turns last).bind fun count =>
        (DFA.pushBack input count scan.result).map fun result =>
          { result := if edge.begin then result ++ [[]] else result
            error := scan.error
            currentState := Ints.bits32.state edge.state
            running := if edge.final then false else scan.running
            currentGroupIndex := toInt (begun - (ended + edge.end.toNat : Nat) + edge.begin.toNat) }) := by
  unfold DFA.turn at taken
  cases found : dfa.edges[scan.currentState]? with
  | none => simp [found] at taken
  | some edges =>
    simp only [found] at taken
    cases matched : (DFA.matchedEdge edges input).bind Ints.bits32.edge with
    | none => simp [matched] at taken
    | some i =>
      simp only [matched] at taken
      cases present : edges[i]? with
      | none => simp [present] at taken
      | some other =>
        simp only [present, Turn.taken.injEq] at taken
        subst taken
        simp only [DFA.consume, found, matched, present, Option.bind_eq_bind, Option.bind_some,
          marked.last other, toInt_begin]
        cases Ints.bits32.turns _ with
        | none => rfl
        | some count => cases pushed : DFA.pushBack input count scan.result <;> simp [pushed]

/-- A turn out of range ends the matcher. -/
theorem Marked.consume_none (marked : Marked scan begun ended)
    (outside : ¬ (dfa.turn scan.currentState input).InRange begun ended) :
    dfa.consume .bits32 scan input = none := by
  cases turned : dfa.turn scan.currentState input with
  | lost => exact consume_lost turned
  | rejected => simp [turned, Turn.InRange] at outside
  | taken edge =>
    rw [marked.consume_taken turned]
    simp only [turned, Turn.InRange, not_and_or, not_le, ne_eq, not_not] at outside
    simp only
    generalize toInt (begun - (ended + edge.end.toNat : Nat)) = last at outside
    by_cases greatest : last = 2 ^ 31 - 1
    · simp [Ints.bits32, greatest]
    · have few : scan.result.length < (last + 1).toNat := by
        rw [marked.groups]
        omega
      simp [Ints.bits32, pushBack_none input few]

/-- A turn in range keeps account of the marks and goes where its edge leads. -/
theorem Marked.consume_some (marked : Marked scan begun ended) {edge : Edge}
    (taken : dfa.turn scan.currentState input = .taken edge)
    (inRange : (Turn.taken edge).InRange begun ended) :
    ∃ next, dfa.consume .bits32 scan input = some next ∧
      Marked next (begun + edge.begin.toNat) (ended + edge.end.toNat) ∧
      next.currentState = Ints.bits32.state edge.state ∧ next.error = scan.error ∧
      next.running = if edge.final then false else scan.running := by
  obtain ⟨low, other⟩ := inRange
  rw [marked.consume_taken taken]
  simp only
  have groups := marked.groups
  have enough : (toInt (begun - (ended + edge.end.toNat : Nat)) + 1).toNat ≤ scan.result.length := by
    omega
  have turns : Ints.bits32.turns (toInt (begun - (ended + edge.end.toNat : Nat))) =
      some (toInt (begun - (ended + edge.end.toNat : Nat)) + 1).toNat := if_neg other
  rw [turns, Option.bind_some, pushBack_eq input enough, Option.map_some]
  refine ⟨_, rfl, ⟨?_, ?_⟩, by dsimp only, rfl, rfl⟩
  · simp only
    congr 1
    omega
  · cases edge.begin <;> simp [groups]

/-- The loop runs to its end exactly when every turn of its way is in range. -/
theorem scan_some_iff {text : List UInt8} (marked : Marked scan begun ended)
    (running : scan.running = true) (sound : scan.error = false) :
    (∃ final, dfa.scan .bits32 scan text = some final) ↔
      WayInRange begun ended (dfa.turns scan.currentState text) := by
  induction text generalizing scan begun ended with
  | nil => exact ⟨fun _ => wayInRange_nil begun ended, fun _ => ⟨scan, rfl⟩⟩
  | cons input rest ih =>
    simp only [DFA.scan, running, sound, Bool.not_false, Bool.and_self, ↓reduceIte]
    rw [DFA.turns, wayInRange_cons]
    by_cases inRange : (dfa.turn scan.currentState input).InRange begun ended
    · cases turned : dfa.turn scan.currentState input with
      | lost => simp [turned, Turn.InRange] at inRange
      | rejected =>
        have ends : dfa.scan .bits32 { scan with running := false, error := true } rest =
            some { scan with running := false, error := true } := by cases rest <;> rfl
        simp only [consume_rejected turned, Option.bind_some, ends]
        exact ⟨fun _ => ⟨trivial, wayInRange_nil _ _⟩, fun _ => ⟨_, rfl⟩⟩
      | taken edge =>
        rw [turned] at inRange
        obtain ⟨next, consumed, kept, state, error, runs⟩ := marked.consume_some turned inRange
        rw [sound] at error
        simp only [consumed, Option.bind_some, inRange, true_and]
        cases final : edge.final with
        | true =>
          rw [final, if_pos rfl] at runs
          have ends : dfa.scan .bits32 next rest = some next := by
            cases rest <;> simp [DFA.scan, runs]
          exact ⟨fun _ => wayInRange_nil _ _, fun _ => ⟨next, ends⟩⟩
        | false =>
          rw [final, if_neg Bool.false_ne_true, running] at runs
          rw [ih kept runs error, state]
          rfl
    · simp [marked.consume_none inRange, inRange]

end Run

/-- The matcher stays in range exactly when every turn does. -/
theorem matchInt_some_iff (dfa : DFA) (input : List UInt8) :
    (∃ found, dfa.matchInt input = some found) ↔ WayInRange 0 0 (dfa.turns 0 input) := by
  have start : Marked ⟨[[]], false, 0, true, 0⟩ 0 0 := ⟨by decide, rfl⟩
  have run : _ ↔ WayInRange 0 0 (dfa.turns 0 input) := scan_some_iff start rfl rfl
  rw [← run]
  unfold DFA.matchInt DFA.matchWith
  constructor
  · rintro ⟨found, matched⟩
    obtain ⟨final, scanned, -⟩ := Option.bind_eq_some_iff.mp matched
    exact ⟨final, scanned⟩
  · rintro ⟨final, scanned⟩
    simp only [scanned, Option.bind_eq_bind, Option.bind_some]
    split
    · exact ⟨_, rfl⟩
    · split <;> exact ⟨_, rfl⟩

section Hold

variable {dfa : DFA} {scan : DFA.Scan} {input : UInt8}

/-- A turn moves the group index by one at most. -/
theorem consume_group {next : DFA.Scan} (consumed : dfa.consume .unbounded scan input = some next) :
    next.currentGroupIndex.natAbs ≤ scan.currentGroupIndex.natAbs + 1 := by
  cases found : dfa.edges[scan.currentState]? with
  | none => simp [DFA.consume, found] at consumed
  | some edges =>
    cases matched : DFA.matchedEdge edges input with
    | none =>
      simp only [DFA.consume, found, matched, Option.bind_eq_bind, Option.bind_some,
        Option.bind_none, Option.pure_def, Option.some.injEq] at consumed
      rw [← consumed]
      exact Nat.le_succ _
    | some i =>
      obtain ⟨edge, -, -, taken⟩ := matchedEdge_takes matched
      rw [consume_of_takes found taken, Option.map_eq_some_iff] at consumed
      obtain ⟨result, -, rfl⟩ := consumed
      simp only
      split <;> split <;> omega

/-- The matcher with `int`s that hold all the states and edges, and a depth that
leaves room for every byte to come. -/
theorem Closed.scan_hold (closed : Closed dfa) {ints : Ints} {size depth : Nat}
    (hold : ints.Hold size depth) (states : dfa.edges.length ≤ size)
    (edges : ∀ edges ∈ dfa.edges, edges.length ≤ size) {text : List UInt8}
    (room : scan.currentGroupIndex.natAbs + text.length ≤ depth) :
    dfa.scan ints scan text = dfa.scan .unbounded scan text := by
  induction text generalizing scan with
  | nil => rfl
  | cons input rest ih =>
    rw [List.length_cons] at room
    have same : dfa.consume ints scan input = dfa.consume .unbounded scan input := by
      cases found : dfa.edges[scan.currentState]? with
      | none => simp [DFA.consume, found]
      | some here =>
        have member := List.mem_of_getElem? found
        apply consume_of_hold hold found (edges here member)
        · rintro edge ⟨i, -, present⟩
          have target := closed.targets here member edge (List.mem_of_getElem? present)
          omega
        · omega
        · omega
    unfold DFA.scan
    rw [same]
    split
    · cases consumed : dfa.consume .unbounded scan input with
      | none => rfl
      | some next =>
        have near := consume_group consumed
        exact ih (by omega)
    · rfl

end Hold

/-- The matcher of an automaton the builder functions have made stays in range
exactly on the inputs all of whose turns do. Those are all the inputs of fewer than
2^31 bytes, unless an `int` cannot number the states or the edges of one. -/
theorem built_match_in_range_iff (calls : List BuilderCall) (e : UInt8)
    (creates : ∀ call ∈ calls.head?, call.createsState = true) :
    ∃ dfa, buildAll calls e = some dfa ∧
      (∀ input, (∃ found, dfa.matchInt input = some found) ↔
        ∀ front turn back, dfa.turns 0 input = front ++ turn :: back →
          turn.InRange (front.countP Turn.begins) (front.countP Turn.ends)) ∧
      (dfa.edges.length ≤ 2 ^ 31 → (∀ edges ∈ dfa.edges, edges.length ≤ 2 ^ 31) →
        ∀ input, input.length < 2 ^ 31 →
          dfa.matchInt input = dfa.match input ∧ ∃ found, dfa.matchInt input = some found) := by
  obtain ⟨dfa, built, closed⟩ := buildAll_closed calls e creates
  refine ⟨dfa, built, fun input => ?_, fun states edges input short => ?_⟩
  · simpa only [WayInRange, Nat.zero_add] using matchInt_some_iff dfa input
  · have room : Int.natAbs 0 + input.length ≤ 2 ^ 31 - 1 := by omega
    have hold := Ints.bits32_hold (Nat.le_refl (2 ^ 31)) (Nat.sub_one_lt_of_lt (Nat.two_pow_pos 31))
    have scanned : dfa.scan .bits32 ⟨[[]], false, 0, true, 0⟩ input =
        dfa.scan .unbounded ⟨[[]], false, 0, true, 0⟩ input :=
      closed.scan_hold hold states edges room
    have same : dfa.matchInt input = dfa.match input := by
      rw [DFA.matchInt, DFA.match, DFA.matchWith, DFA.matchWith, scanned]
    exact ⟨same, same ▸ closed.match input⟩

/-- Two edges enabled on one byte, and an end mark without a begin mark. -/
theorem built_match_in_range_iff_unbalanced :
    ∃ dfa, buildAll [.newState, .loopOn [.notMatch (byte 'x'), .endCaptureGroup],
        .nextStateOn [.notMatch (byte 'y'), .startCaptureGroup, .final true],
        .append (.zeroOrInfinityNot (byte 'z')) [.endCaptureGroup]] (byte '.') = some dfa ∧
      ∀ input, input.length < 2 ^ 31 → ∃ found, dfa.matchInt input = some found := by
  obtain ⟨dfa, built, -, short⟩ := built_match_in_range_iff
    [.newState, .loopOn [.notMatch (byte 'x'), .endCaptureGroup],
      .nextStateOn [.notMatch (byte 'y'), .startCaptureGroup, .final true],
      .append (.zeroOrInfinityNot (byte 'z')) [.endCaptureGroup]] (byte '.') (by
        intro call first
        cases first
        rfl)
  refine ⟨dfa, built, fun input fewer => (short ?_ ?_ input fewer).2⟩
  · cases built
    decide
  · cases built
    decide

/-- A state that goes round on every byte but `x`, with an end mark. -/
def endLoop : Edge := { state := 0, «end» := true, not := true, c := byte 'x' }

def endLoopDFA : DFA := ⟨[[endLoop], [{ state := 2, c := byte '.', final := true }], []]⟩

theorem endLoop_built :
    buildAll [.newState, .loopOn [.notMatch (byte 'x'), .endCaptureGroup]] (byte '.') =
      some endLoopDFA := by decide

theorem endLoop_turns (n : Nat) :
    endLoopDFA.turns 0 (List.replicate n (byte 'a')) = List.replicate n (.taken endLoop) := by
  induction n with
  | zero => rfl
  | succ n ih =>
    have turn : endLoopDFA.turn 0 (byte 'a') = .taken endLoop := by decide
    have stays : Ints.bits32.state endLoop.state = 0 := by decide
    have goesOn : endLoop.final = false := rfl
    rw [List.replicate_succ, DFA.turns, turn, List.replicate_succ]
    simp only [goesOn, stays, Bool.false_eq_true, ↓reduceIte, ih]

/-- After 2^31 end marks the group index is the least `int`, and one less is the
greatest. -/
theorem endLoop_out_of_range :
    ∃ dfa, buildAll [.newState, .loopOn [.notMatch (byte 'x'), .endCaptureGroup]] (byte '.') =
        some dfa ∧ dfa.matchInt (List.replicate (2 ^ 31 + 1) (byte 'a')) = none := by
  refine ⟨endLoopDFA, endLoop_built, ?_⟩
  rw [Option.eq_none_iff_forall_ne_some]
  intro found matched
  have inRange := (matchInt_some_iff endLoopDFA _).mp ⟨found, matched⟩
  rw [endLoop_turns] at inRange
  generalize many : 2 ^ 31 = n at inRange
  have last := inRange (List.replicate n (.taken endLoop)) (.taken endLoop) []
    List.replicate_succ'
  have wrapped : toInt (0 - (n + 1 : Nat)) = 2 ^ 31 - 1 := by
    have size : (n : Int) = 2147483648 := by omega
    rw [Int.natCast_add, size]
    decide
  have begins : (List.replicate n (Turn.taken endLoop)).countP Turn.begins = 0 := by
    rw [List.countP_replicate]
    rfl
  have ends : (List.replicate n (Turn.taken endLoop)).countP Turn.ends = n := by
    rw [List.countP_replicate]
    rfl
  rw [begins, ends] at last
  exact last.2 (by simpa [endLoop] using wrapped)

end MailruHttp.Regex
