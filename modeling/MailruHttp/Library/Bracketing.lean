import Mathlib.Data.List.Basic

/-! Lists whose elements open and close brackets: the check by counting, and the
tree that every balanced list is the reading of. -/

namespace MailruHttp.Library

universe u

/-- A sequence of single elements and of bracketed groups. -/
inductive Bracketing (α : Type u) where
  | nil
  | single (item : α) (rest : Bracketing α)
  | group (first : α) (inner : Bracketing α) (last : α) (rest : Bracketing α)

variable {α : Type u}

namespace Bracketing

def flatten : Bracketing α → List α
  | nil => []
  | single item rest => item :: rest.flatten
  | group first inner last rest => first :: (inner.flatten ++ last :: rest.flatten)

end Bracketing

section Balanced

variable (opens closes : α → Bool)

/-- Never more closed than opened, everything closed at the end, and no element
does both. -/
def balanced : Nat → List α → Bool
  | depth, [] => depth == 0
  | depth, item :: items =>
    match opens item, closes item, depth with
    | false, false, depth => balanced depth items
    | true, false, depth => balanced (depth + 1) items
    | false, true, depth + 1 => balanced depth items
    | false, true, 0 => false
    | true, true, _ => false

/-- Groups stand between an element that opens and one that closes. -/
def Bracketing.Marked : Bracketing α → Prop
  | .nil => True
  | .single item rest => (opens item = false ∧ closes item = false) ∧ rest.Marked
  | .group first inner last rest =>
    (opens first = true ∧ closes first = false) ∧ inner.Marked ∧
      (opens last = false ∧ closes last = true) ∧ rest.Marked

variable {opens closes}

/-- A balanced list begins with a bracketing, after which comes the next closing
element of the groups already open. -/
theorem exists_front {depth : Nat} {items : List α} (valid : balanced opens closes depth items = true) :
    ∃ (tree : Bracketing α) (rest : List α), tree.Marked opens closes ∧
      items = tree.flatten ++ rest ∧
      (depth = 0 ∧ rest = [] ∨ ∃ outer last tail, depth = outer + 1 ∧ rest = last :: tail ∧
        (opens last = false ∧ closes last = true) ∧ balanced opens closes outer tail = true) := by
  match items with
  | [] =>
    have outside : depth = 0 := by simpa [balanced] using valid
    exact ⟨.nil, [], trivial, rfl, .inl ⟨outside, rfl⟩⟩
  | item :: items =>
    unfold balanced at valid
    split at valid
    · rename_i noOpen noClose
      obtain ⟨tree, rest, marked, split, ends⟩ := exists_front valid
      exact ⟨.single item tree, rest, ⟨⟨noOpen, noClose⟩, marked⟩, by rw [split]; rfl, ends⟩
    · rename_i opened noClose
      obtain ⟨inner, rest, markedInner, split, ends⟩ := exists_front valid
      rcases ends with ⟨outside, _⟩ | ⟨outer, last, tail, same, found, closing, later⟩
      · cases outside
      · cases same
        have shorter : tail.length < items.length := by
          rw [split, found, List.length_append, List.length_cons]
          omega
        obtain ⟨tree, rest, marked, splitTail, ends⟩ := exists_front later
        refine ⟨.group item inner last tree, rest, ⟨⟨opened, noClose⟩, markedInner, closing, marked⟩, ?_, ends⟩
        rw [split, found, splitTail]
        simp [Bracketing.flatten]
    · rename_i outer noOpen closing
      exact ⟨.nil, item :: items, trivial, rfl, .inr ⟨_, item, items, rfl, rfl, ⟨noOpen, closing⟩, valid⟩⟩
    · cases valid
    · cases valid
termination_by items.length
decreasing_by
  all_goals simp only [List.length_cons]
  all_goals omega

theorem exists_bracketing {items : List α} (valid : balanced opens closes 0 items = true) :
    ∃ tree : Bracketing α, tree.Marked opens closes ∧ tree.flatten = items := by
  obtain ⟨tree, rest, marked, split, ends⟩ := exists_front valid
  rcases ends with ⟨_, rfl⟩ | ⟨_, _, _, impossible, _⟩
  · exact ⟨tree, marked, by rw [split, List.append_nil]⟩
  · cases impossible

end Balanced

/-- The marks may be read off a part of each element. -/
theorem balanced_map {β : Type u} (opens closes : α → Bool) (part : β → α) (depth : Nat)
    (items : List β) :
    balanced (fun item => opens (part item)) (fun item => closes (part item)) depth items =
      balanced opens closes depth (items.map part) := by
  induction items generalizing depth with
  | nil => rfl
  | cons item items ih =>
    rw [List.map_cons]
    unfold balanced
    split <;> simp [*]

end MailruHttp.Library
