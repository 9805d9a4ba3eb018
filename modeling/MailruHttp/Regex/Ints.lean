import MailruHttp.Regex.DFA

/-! When the `int`s of the matcher do not show: as long as they can hold the
indices that one turn of the loop puts into them. -/

namespace MailruHttp.Regex

/-- The edge the matcher takes on an input byte. -/
def Takes (edges : List Edge) (input : UInt8) (edge : Edge) : Prop :=
  ∃ i, DFA.matchedEdge edges input = some i ∧ edges[i]? = some edge

/-- The edge loop yields the index of an edge. -/
theorem matchedEdge_takes {edges : List Edge} {input : UInt8} {i : Nat}
    (matched : DFA.matchedEdge edges input = some i) :
    ∃ edge ∈ edges, edges[i]? = some edge ∧ Takes edges input edge := by
  have bounded : ∀ i, DFA.matchedEdge edges input = some i → i < edges.length := by
    unfold DFA.matchedEdge
    apply List.foldlRecOn (motive := fun matched => ∀ i, matched = some i → i < edges.length)
    · intro i found
      cases found
    · rintro before holds ⟨edge, j⟩ member i found
      have inside := List.mem_zipIdx_iff_getElem?.mp member
      dsimp only at found inside
      split at found
      · cases found
        exact (List.getElem?_eq_some_iff.mp inside).1
      · exact holds i found
  have inside := bounded i matched
  have present : edges[i]? = some edges[i] := List.getElem?_eq_getElem inside
  exact ⟨edges[i], List.getElem_mem inside, present, i, matched, present⟩

theorem Takes.unique {edges : List Edge} {input : UInt8} {first second : Edge}
    (one : Takes edges input first) (other : Takes edges input second) : first = second := by
  obtain ⟨i, matched, present⟩ := one
  obtain ⟨j, again, found⟩ := other
  rw [matched] at again
  cases again
  exact Option.some.inj (present.symm.trans found)

/-- The `int`s hold the indices below a size, and group indices up to a depth
on both sides of zero. -/
structure Ints.Hold (ints : Ints) (size depth : Nat) : Prop where
  state : ∀ n < size, ints.state n = n
  edge : ∀ i < size, ints.edge i = some i
  group : ∀ n : Int, -depth ≤ n → n ≤ depth → ints.group n = n
  turns : ∀ n : Int, -depth ≤ n → n < depth → ints.turns n = some (n + 1).toNat

theorem Ints.unbounded_hold (size depth : Nat) : Ints.unbounded.Hold size depth :=
  ⟨fun _ _ => rfl, fun _ _ => rfl, fun _ _ _ => rfl, fun _ _ _ => rfl⟩

theorem Ints.bits32_hold {size depth : Nat} (narrow : size ≤ 2 ^ 31) (shallow : depth < 2 ^ 31) :
    Ints.bits32.Hold size depth where
  state n below := by
    have fits : toInt n = n := toInt_of_fits n (by omega) (by omega)
    simp only [bits32, fits, toSizeT]
    omega
  edge i below := by
    have fits : toInt i = i := toInt_of_fits i (by omega) (by omega)
    simp only [bits32, fits, toSizeT]
    rw [if_neg (by omega)]
    exact Option.some_inj.mpr (by omega)
  group n low high := toInt_of_fits n (by omega) (by omega)
  turns n low high := if_neg (by omega)

/-- What a turn does that takes an edge, with integers without bounds. -/
theorem consume_of_takes {dfa : DFA} {scan : DFA.Scan} {edges : List Edge} {edge : Edge}
    {input : UInt8} (found : dfa.edges[scan.currentState]? = some edges)
    (taken : Takes edges input edge) :
    dfa.consume .unbounded scan input =
      (let groupIndex := if edge.end then scan.currentGroupIndex - 1 else scan.currentGroupIndex
       (DFA.pushBack input (groupIndex + 1).toNat scan.result).map fun result =>
        { result := if edge.begin then result ++ [[]] else result
          error := scan.error
          currentState := edge.state
          running := if edge.final then false else scan.running
          currentGroupIndex := if edge.begin then groupIndex + 1 else groupIndex }) := by
  obtain ⟨i, matched, present⟩ := taken
  simp only [DFA.consume, found, matched, present, Option.bind_eq_bind, Option.bind_some,
    Ints.unbounded, id_eq]
  generalize DFA.pushBack input _ scan.result = pushed
  cases pushed <;> rfl

/-- A turn whose indices the `int`s hold is the turn of an unbounded matcher. -/
theorem consume_of_hold {dfa : DFA} {ints : Ints} {size depth : Nat} (hold : ints.Hold size depth)
    {scan : DFA.Scan} {edges : List Edge} {input : UInt8}
    (found : dfa.edges[scan.currentState]? = some edges) (narrow : edges.length ≤ size)
    (targets : ∀ edge, Takes edges input edge → edge.state < size)
    (low : -(depth : Int) < scan.currentGroupIndex) (high : scan.currentGroupIndex < depth) :
    dfa.consume ints scan input = dfa.consume .unbounded scan input := by
  cases matched : DFA.matchedEdge edges input with
  | none => simp [DFA.consume, found, matched]
  | some i =>
    obtain ⟨edge, -, present, taken⟩ := matchedEdge_takes matched
    have inside := (List.getElem?_eq_some_iff.mp present).1
    have position := hold.edge i (by omega)
    have target := hold.state edge.state (targets edge taken)
    have closed := hold.group (scan.currentGroupIndex - 1) (by omega) (by omega)
    have opened := hold.group (scan.currentGroupIndex + 1) (by omega) (by omega)
    have same := hold.group scan.currentGroupIndex (by omega) (by omega)
    have fewer := hold.turns (scan.currentGroupIndex - 1) (by omega) (by omega)
    have all := hold.turns scan.currentGroupIndex (by omega) (by omega)
    simp only [DFA.consume, found, matched, present, position, target, Ints.unbounded, id_eq,
      Option.bind_eq_bind, Option.bind_some]
    cases edge.end <;> simp [closed, opened, same, fewer, all]

end MailruHttp.Regex
