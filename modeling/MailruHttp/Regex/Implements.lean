import MailruHttp.Regex.Capture
import MailruHttp.Regex.Ints

/-! When the states of an automaton implement the pieces of a chain, its matcher
is the reader of that chain. -/

namespace MailruHttp.Regex

open Library

/-- The edges of one state read one piece: out on its stop byte with its marks,
back on a skipped byte without any. -/
structure Realizes (edges : List Edge) (state : Nat) (final : Bool) (piece : Piece) : Prop where
  size : edges.length ≤ 2
  stops : ∃ edge, Takes edges piece.segment.stop edge ∧ edge.state = state + 1 ∧
    edge.final = final ∧ edge.begin = piece.begin ∧ edge.end = piece.end
  skips : ∀ input, piece.segment.skip input = true → ∃ edge, Takes edges input edge ∧
    edge.state = state ∧ edge.final = false ∧ edge.begin = false ∧ edge.end = false
  rejects : ∀ input, input ≠ piece.segment.stop → piece.segment.skip input = false →
    DFA.matchedEdge edges input = none

/-- One state for each piece and an accepting state after them; only the edge
into the accepting state is final. -/
structure Implements (dfa : DFA) (pieces : List Piece) : Prop where
  size : dfa.edges.length = pieces.length + 1
  realizes : ∀ front piece rest, pieces = front ++ piece :: rest →
    ∃ edges, dfa.edges[front.length]? = some edges ∧
      Realizes edges front.length rest.isEmpty piece

/-- The matcher's variables at a reading of the chain. -/
def Reading.scan (pieces : List Piece) (reading : Reading) : DFA.Scan where
  result := reading.2.groups
  error := false
  currentState := pieces.length - reading.1.length
  running := !reading.1.isEmpty
  currentGroupIndex := reading.2.depth

theorem Realizes.target {edges : List Edge} {state : Nat} {final : Bool} {piece : Piece}
    (realizes : Realizes edges state final piece) {input : UInt8} {edge : Edge}
    (taken : Takes edges input edge) : edge.state ≤ state + 1 := by
  by_cases stops : input = piece.segment.stop
  · obtain ⟨other, takes, target, -⟩ := realizes.stops
    rw [taken.unique (stops ▸ takes), target]
  · by_cases skips : piece.segment.skip input = true
    · obtain ⟨other, takes, target, -⟩ := realizes.skips input skips
      rw [taken.unique takes, target]
      exact Nat.le_succ state
    · obtain ⟨i, matched, -⟩ := taken
      rw [realizes.rejects input stops (by simpa using skips)] at matched
      cases matched

/-- One turn of the matcher's loop is one step of the reader. -/
theorem Implements.consume {dfa : DFA} {pieces : List Piece} (implements : Implements dfa pieces)
    {front rest : List Piece} {piece : Piece} (split : pieces = front ++ piece :: rest)
    (captures : Captures) (input : UInt8) :
    dfa.consume .unbounded (Reading.scan pieces (piece :: rest, captures)) input =
      some (match Reading.advance (piece :: rest, captures) input with
        | some reading => reading.scan pieces
        | none => { Reading.scan pieces (piece :: rest, captures) with
            running := false, error := true }) := by
  obtain ⟨edges, found, realizes⟩ := implements.realizes front piece rest split
  have state : (Reading.scan pieces (piece :: rest, captures)).currentState = front.length := by
    simp [Reading.scan, split]
  have next : pieces.length - rest.length = front.length + 1 := by
    simp only [split, List.length_append, List.length_cons]
    omega
  rw [← state] at found
  by_cases stops : input = piece.segment.stop
  · obtain ⟨edge, taken, target, final, begins, ends⟩ := realizes.stops
    subst stops
    rw [consume_of_takes found taken]
    simp only [Reading.advance, ↓reduceIte, Reading.scan, target, final, begins, ends, next,
      Captures.leave]
    cases piece.end with
    | false =>
      simp only [Bool.false_eq_true, ↓reduceIte, captures.pushBack_groups, Option.map_some]
      cases rest <;> cases piece.begin <;> rfl
    | true =>
      have pushed := captures.close.pushBack_groups piece.segment.stop
      simp only [Captures.close] at pushed
      simp only [↓reduceIte, Captures.close, pushed, Option.map_some]
      cases rest <;> cases piece.begin <;> rfl
  · by_cases skips : piece.segment.skip input = true
    · obtain ⟨edge, taken, target, final, begins, ends⟩ := realizes.skips input skips
      rw [consume_of_takes found taken]
      simp only [Reading.advance, stops, skips, ↓reduceIte, target, final, begins, ends,
        Bool.false_eq_true]
      rw [← state]
      simp only [Reading.scan, captures.pushBack_groups, Option.map_some]
      rfl
    · have rejected := realizes.rejects input stops (by simpa using skips)
      simp only [DFA.consume, found, rejected, Option.bind_eq_bind, Option.bind_some,
        Option.bind_none, Reading.advance, stops, skips, Bool.false_eq_true, ↓reduceIte]
      rfl

/-- A turn moves the group index by one at most, and only where it leaves a piece. -/
theorem Reading.advance_depth {pieces front rest : List Piece} {captures : Captures}
    {input : UInt8} {next : Reading} (split : pieces = front ++ rest)
    (shallow : captures.depth.natAbs ≤ front.length)
    (advanced : Reading.advance (rest, captures) input = some next) :
    ∃ front', pieces = front' ++ next.1 ∧ next.2.depth.natAbs ≤ front'.length := by
  cases rest with
  | nil =>
    cases advanced
    exact ⟨front, split, shallow⟩
  | cons piece rest =>
    simp only [Reading.advance] at advanced
    split at advanced
    · cases advanced
      refine ⟨front ++ [piece], by simp [split], ?_⟩
      simp only [Captures.leave, List.length_append, List.length_singleton]
      split <;> split <;> simp only [Captures.opened, Captures.append, Captures.close] <;> omega
    · split at advanced
      · cases advanced
        exact ⟨front, split, shallow⟩
      · cases advanced

section Hold

variable {dfa : DFA} {pieces : List Piece} {ints : Ints}

/-- One turn of the loop with `int`s that hold the states and the depth of the chain. -/
theorem Implements.consume_hold (implements : Implements dfa pieces)
    (hold : ints.Hold (pieces.length + 1) pieces.length) {front rest : List Piece} {piece : Piece}
    (split : pieces = front ++ piece :: rest) {captures : Captures}
    (shallow : captures.depth.natAbs ≤ front.length) (input : UInt8) :
    dfa.consume ints (Reading.scan pieces (piece :: rest, captures)) input =
      dfa.consume .unbounded (Reading.scan pieces (piece :: rest, captures)) input := by
  obtain ⟨edges, found, realizes⟩ := implements.realizes front piece rest split
  have size : pieces.length = front.length + rest.length + 1 := by
    simp only [split, List.length_append, List.length_cons]
    omega
  have state : (Reading.scan pieces (piece :: rest, captures)).currentState = front.length := by
    simp only [Reading.scan, List.length_cons]
    omega
  have few := realizes.size
  rw [← state] at found
  apply consume_of_hold hold found (by omega)
  · intro edge taken
    have target := realizes.target taken
    omega
  · change -(pieces.length : Int) < captures.depth
    omega
  · change captures.depth < pieces.length
    omega

/-- The matcher's loop stops in error where the reader rejects, and otherwise
reaches the reader's position. -/
theorem Implements.scan (implements : Implements dfa pieces)
    (hold : ints.Hold (pieces.length + 1) pieces.length) (front rest : List Piece)
    (split : pieces = front ++ rest) (captures : Captures)
    (shallow : captures.depth.natAbs ≤ front.length) (input : List UInt8) :
    ∃ final, dfa.scan ints (Reading.scan pieces (rest, captures)) input = some final ∧
      match Reading.advances (rest, captures) input with
      | some reading => final = reading.scan pieces ∧ ∃ front', pieces = front' ++ reading.1
      | none => final.error = true := by
  induction input generalizing front rest captures with
  | nil => exact ⟨_, rfl, rfl, front, split⟩
  | cons a input ih =>
    cases rest with
    | nil =>
      refine ⟨Reading.scan pieces ([], captures), by simp [DFA.scan, Reading.scan], ?_⟩
      simp
    | cons piece rest =>
      have turn := (implements.consume_hold hold split shallow a).trans
        (implements.consume split captures a)
      have running : (Reading.scan pieces (piece :: rest, captures)).running = true ∧
          (Reading.scan pieces (piece :: rest, captures)).error = false := ⟨rfl, rfl⟩
      simp only [DFA.scan, running, Bool.not_false, Bool.and_self, ↓reduceIte, turn,
        Option.bind_some, Reading.advances]
      cases advanced : Reading.advance (piece :: rest, captures) a with
      | none =>
        simp only [Option.bind_none]
        cases input <;> exact ⟨_, rfl, rfl⟩
      | some next =>
        obtain ⟨front', split', shallow'⟩ := Reading.advance_depth split shallow advanced
        exact ih front' next.1 split' next.2 shallow'

/-- The matcher of an implementing automaton reports the verdict of the reader,
and never indexes out of range. -/
theorem Implements.match_eq (implements : Implements dfa pieces)
    (hold : ints.Hold (pieces.length + 1) pieces.length) (nonempty : pieces ≠ [])
    (input : List UInt8) :
    dfa.matchWith ints input =
      some (verdict (Reading.advances (pieces, Captures.initial) input)) := by
  obtain ⟨final, scanned, reached⟩ :=
    implements.scan hold [] pieces rfl Captures.initial (Nat.le_refl 0) input
  have start : Reading.scan pieces (pieces, Captures.initial) =
      { result := [[]], error := false, currentState := 0, running := true,
        currentGroupIndex := 0 } := by
    simp [Reading.scan, Captures.initial, nonempty]
  rw [start] at scanned
  simp only [DFA.matchWith, scanned, Option.bind_eq_bind, Option.bind_some]
  cases read : Reading.advances (pieces, Captures.initial) input with
  | none =>
    simp only [read] at reached
    simp [reached, verdict]
  | some reading =>
    simp only [read] at reached
    obtain ⟨same, front, split⟩ := reached
    obtain ⟨rest, captures⟩ := reading
    subst same
    cases rest with
    | nil => simp [Reading.scan, implements.size, verdict]
    | cons piece rest =>
      have waiting : pieces.length - (rest.length + 1) ≠ pieces.length := by
        simp only [split, List.length_append, List.length_cons]
        omega
      simp [Reading.scan, implements.size, verdict, waiting]

end Hold

end MailruHttp.Regex
