import MailruHttp.Library.Chain
import MailruHttp.Regex.DFA

/-! The abstract reader of a chain with capture marks. It says what the matcher
is for: read segments in order and record the bytes of each open group. -/

namespace MailruHttp.Regex

open Library

/-- A segment with the capture marks of the edge that leaves it. -/
structure Piece where
  segment : Segment UInt8
  begin : Bool
  «end» : Bool

/-- The captured groups and the matcher's group index. The index never names a
group that does not exist, although unbalanced marks can make it negative. -/
@[ext] structure Captures where
  groups : List (List UInt8)
  depth : Int
  bounded : depth < groups.length

/-- Append a word to the first `count` groups. -/
def appendFirst (word : List UInt8) : Nat → List (List UInt8) → List (List UInt8)
  | 0, groups => groups
  | _ + 1, [] => []
  | count + 1, group :: groups => (group ++ word) :: appendFirst word count groups

@[simp] theorem length_appendFirst (word : List UInt8) (count : Nat) (groups : List (List UInt8)) :
    (appendFirst word count groups).length = groups.length := by
  induction count generalizing groups with
  | zero => rfl
  | succ count ih => cases groups <;> simp [appendFirst, ih]

theorem appendFirst_nil (count : Nat) (groups : List (List UInt8)) :
    appendFirst [] count groups = groups := by
  induction count generalizing groups with
  | zero => rfl
  | succ count ih => cases groups <;> simp [appendFirst, ih]

theorem appendFirst_append (first second : List UInt8) (count : Nat) (groups : List (List UInt8)) :
    appendFirst second count (appendFirst first count groups) =
      appendFirst (first ++ second) count groups := by
  induction count generalizing groups with
  | zero => rfl
  | succ count ih => cases groups <;> simp [appendFirst, ih]

/-- The matcher's append loop stays in range as long as there are enough groups. -/
theorem pushBack_eq (input : UInt8) {count : Nat} {groups : List (List UInt8)}
    (enough : count ≤ groups.length) :
    DFA.pushBack input count groups = some (appendFirst [input] count groups) := by
  induction count generalizing groups with
  | zero => rfl
  | succ count ih =>
    cases groups with
    | nil => simp at enough
    | cons group groups =>
      have rest : count ≤ groups.length := Nat.le_of_succ_le_succ enough
      simp [DFA.pushBack, appendFirst, ih rest]

namespace Captures

def initial : Captures := ⟨[[]], 0, by decide⟩

/-- Bytes go to every group up to the current one. -/
def append (captures : Captures) (word : List UInt8) : Captures where
  groups := appendFirst word (captures.depth + 1).toNat captures.groups
  depth := captures.depth
  bounded := by simpa using captures.bounded

def close (captures : Captures) : Captures :=
  ⟨captures.groups, captures.depth - 1, by have := captures.bounded; omega⟩

def opened (captures : Captures) : Captures :=
  ⟨captures.groups ++ [[]], captures.depth + 1, by have := captures.bounded; simp; omega⟩

/-- Leaving a piece: the end mark counts before the byte, the begin mark after it. -/
def leave (captures : Captures) (piece : Piece) (input : UInt8) : Captures :=
  let before := if piece.end then captures.close else captures
  let appended := before.append [input]
  if piece.begin then appended.opened else appended

@[simp] theorem append_nil (captures : Captures) : captures.append [] = captures := by
  ext1
  · exact appendFirst_nil _ _
  · rfl

theorem append_append (captures : Captures) (first second : List UInt8) :
    (captures.append first).append second = captures.append (first ++ second) := by
  ext1
  · exact appendFirst_append first second _ _
  · rfl

theorem pushBack_groups (captures : Captures) (input : UInt8) :
    DFA.pushBack input (captures.depth + 1).toNat captures.groups =
      some (captures.append [input]).groups := by
  have bounded := captures.bounded
  exact pushBack_eq input (by omega)

end Captures

/-- The pieces still to be read and the captures so far. -/
abbrev Reading := List Piece × Captures

def Reading.advance : Reading → UInt8 → Option Reading
  | ([], captures), _ => some ([], captures)
  | (piece :: rest, captures), input =>
    if input = piece.segment.stop then some (rest, captures.leave piece input)
    else if piece.segment.skip input then some (piece :: rest, captures.append [input])
    else none

def Reading.advances : Reading → List UInt8 → Option Reading
  | reading, [] => some reading
  | reading, input :: rest => (reading.advance input).bind (Reading.advances · rest)

theorem Reading.advances_append (reading : Reading) (first second : List UInt8) :
    reading.advances (first ++ second) = (reading.advances first).bind (Reading.advances · second) := by
  induction first generalizing reading with
  | nil => rfl
  | cons input first ih =>
    cases next : reading.advance input with
    | none => simp [advances, next]
    | some after => simp [advances, next, ih]

@[simp] theorem Reading.advances_finished (captures : Captures) (input : List UInt8) :
    Reading.advances ([], captures) input = some ([], captures) := by
  induction input with
  | nil => rfl
  | cons _ _ ih => simpa [advances, advance] using ih

/-- Skipped bytes only extend the captures. -/
theorem Reading.advances_skipped (piece : Piece) (rest : List Piece) (captures : Captures)
    (skipped input : List UInt8) (skips : ∀ a ∈ skipped, piece.segment.skip a = true) :
    Reading.advances (piece :: rest, captures) (skipped ++ input) =
      Reading.advances (piece :: rest, captures.append skipped) input := by
  induction skipped generalizing captures with
  | nil => simp
  | cons a skipped ih =>
    have skip : piece.segment.skip a = true := skips a (by simp)
    have different : a ≠ piece.segment.stop := by
      intro same
      rw [same, piece.segment.excluded] at skip
      cases skip
    have later := ih (captures.append [a]) (fun b member => skips b (by simp [member]))
    simp [advances, advance, different, skip, later, Captures.append_append]

theorem Reading.advances_stop (piece : Piece) (rest : List Piece) (captures : Captures)
    (input : List UInt8) :
    Reading.advances (piece :: rest, captures) (piece.segment.stop :: input) =
      Reading.advances (rest, captures.leave piece piece.segment.stop) input := by
  simp [advances, advance]

/-- Forgetting the captures leaves the reader of the plain chain. -/
theorem Reading.advances_segments (reading : Reading) (input : List UInt8) :
    (reading.advances input).map (·.1.map Piece.segment) =
      Library.advances (reading.1.map Piece.segment) input := by
  induction input generalizing reading with
  | nil => rfl
  | cons a input ih =>
    obtain ⟨pieces, captures⟩ := reading
    cases pieces with
    | nil => simp
    | cons piece rest =>
      simp only [advances, advance, Library.advances, Library.advance, List.map_cons]
      by_cases stops : a = piece.segment.stop
      · simp [stops, ih]
      · by_cases skips : piece.segment.skip a = true
        · simp [stops, skips, ih]
        · simp [stops, skips]

/-- What the matcher reports about a reading; `none` is a rejected input. -/
def verdict : Option Reading → MatchResult
  | none => ⟨.mrtError, [[]]⟩
  | some ([], captures) => ⟨.mrtFull, captures.groups⟩
  | some (_ :: _, captures) => ⟨.mrtPartial, captures.groups⟩

end MailruHttp.Regex
