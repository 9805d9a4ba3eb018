import Mathlib.Data.List.Basic

/-! Two neighbouring blocks of an array exchanged in place by swaps of ranges of
equal length. Every access is checked: `none` is an index out of bounds. -/

namespace MailruHttp.Library

universe u

variable {α : Type u}

def swapAt (xs : List α) (i j : Nat) : Option (List α) :=
  xs[i]?.bind fun x => xs[j]?.map fun y => (xs.set i y).set j x

/-- The elements of two ranges of one length, swapped one after the other. -/
def swapRanges (low high : Nat) : Nat → List α → Option (List α)
  | 0, xs => some xs
  | len + 1, xs => (swapAt xs low high).bind (swapRanges (low + 1) (high + 1) len)

/-- The blocks from `bottom` to `middle` and from `middle` to `top`: the shorter
one is swapped with the far end of the longer one, where it is in its place. -/
def exchangeBlocks (bottom middle top : Nat) (xs : List α) : Option (List α) :=
  if _more : middle < top ∧ bottom < middle then
    if middle - bottom < top - middle then
      (swapRanges bottom (top - (middle - bottom)) (middle - bottom) xs).bind
        (exchangeBlocks bottom middle (top - (middle - bottom)))
    else
      (swapRanges bottom middle (top - middle) xs).bind
        (exchangeBlocks (bottom + (top - middle)) middle top)
  else some xs
termination_by top - bottom
decreasing_by all_goals omega

theorem swapAt_append (front between back : List α) (x y : α) :
    swapAt (front ++ x :: (between ++ y :: back)) front.length
        (front.length + 1 + between.length) =
      some (front ++ y :: (between ++ x :: back)) := by
  have beyond : front.length + 1 + between.length = front.length + (between.length + 1) := by omega
  rw [beyond]
  simp [swapAt, List.set_append_right]

theorem swapRanges_append (front left between right back : List α)
    (same : left.length = right.length) :
    swapRanges front.length (front.length + left.length + between.length) left.length
        (front ++ left ++ between ++ right ++ back) =
      some (front ++ right ++ between ++ left ++ back) := by
  induction left generalizing front between right with
  | nil =>
    obtain rfl : right = [] := List.length_eq_zero_iff.mp same.symm
    simp [swapRanges]
  | cons x left ih =>
    cases right with
    | nil => simp at same
    | cons y right =>
      have first : swapAt (front ++ (x :: left) ++ between ++ (y :: right) ++ back) front.length
          (front.length + (x :: left).length + between.length) =
          some ((front ++ [y]) ++ left ++ (between ++ [x]) ++ right ++ back) := by
        have swapped := swapAt_append front (left ++ between) (right ++ back) x y
        rw [List.length_append, ← Nat.add_assoc, Nat.add_assoc _ 1, Nat.add_comm 1] at swapped
        simpa using swapped
      have later := ih (front ++ [y]) (between ++ [x]) right (by simpa using same)
      rw [List.length_cons, swapRanges, ← List.length_cons, first, Option.bind_some]
      simp only [List.length_append, List.length_cons, List.length_nil] at later ⊢
      rw [show front.length + (left.length + 1) + between.length + 1 =
        front.length + 1 + left.length + (between.length + 1) by omega]
      simp only [List.append_assoc, List.cons_append, List.nil_append] at later ⊢
      rw [later]

theorem exchangeBlocks_of_empty {bottom middle top : Nat} (xs : List α)
    (empty : top ≤ middle ∨ middle ≤ bottom) :
    exchangeBlocks bottom middle top xs = some xs := by
  have done : ¬ (middle < top ∧ bottom < middle) := by omega
  rw [exchangeBlocks, dif_neg done]

/-- A left block shorter than the right one goes to its far end. -/
theorem exchangeBlocks_left (front left near far back : List α) (nonempty : left ≠ [])
    (longer : near ≠ []) (same : left.length = far.length) :
    exchangeBlocks front.length (front.length + left.length)
        (front.length + left.length + (near ++ far).length)
        (front ++ left ++ (near ++ far) ++ back) =
      exchangeBlocks front.length (front.length + far.length)
        (front.length + far.length + near.length)
        (front ++ far ++ near ++ (left ++ back)) := by
  have positive := List.length_pos_iff.mpr nonempty
  have beyond := List.length_pos_iff.mpr longer
  have moved := swapRanges_append front left near far back same
  rw [exchangeBlocks, dif_pos (by rw [List.length_append]; omega), Nat.add_sub_cancel_left,
    Nat.add_sub_cancel_left, if_pos (by rw [List.length_append]; omega), List.length_append]
  rw [show front.length + left.length + (near.length + far.length) - left.length =
    front.length + left.length + near.length by omega]
  simp only [List.append_assoc] at moved ⊢
  rw [moved, Option.bind_some, ← same]

/-- A right block that is no longer than the left one goes to its front. -/
theorem exchangeBlocks_right (front near far right back : List α) (nonempty : right ≠ [])
    (same : near.length = right.length) :
    exchangeBlocks front.length (front.length + (near ++ far).length)
        (front.length + (near ++ far).length + right.length)
        (front ++ (near ++ far) ++ right ++ back) =
      exchangeBlocks (front ++ right).length ((front ++ right).length + far.length)
        ((front ++ right).length + far.length + near.length)
        ((front ++ right) ++ far ++ near ++ back) := by
  have positive := List.length_pos_iff.mpr nonempty
  have moved := swapRanges_append front near far right back same
  rw [exchangeBlocks, dif_pos (by rw [List.length_append]; omega), Nat.add_sub_cancel_left,
    Nat.add_sub_cancel_left, if_neg (by rw [List.length_append]; omega), List.length_append,
    List.length_append, ← same, ← Nat.add_assoc]
  simp only [List.append_assoc] at moved ⊢
  rw [moved, Option.bind_some]

/-- Neighbouring blocks are exchanged, each in its order, all else in place. -/
theorem exchangeBlocks_append (front left right back : List α) :
    exchangeBlocks front.length (front.length + left.length)
        (front.length + left.length + right.length) (front ++ left ++ right ++ back) =
      some (front ++ right ++ left ++ back) := by
  -- the blocks still to be exchanged get shorter with each swap
  induction size : left.length + right.length using Nat.strongRecOn
    generalizing front left right back with
  | _ size ih =>
    by_cases noLeft : left = []
    · subst noLeft
      rw [exchangeBlocks_of_empty _ (by simp)]
      simp
    by_cases noRight : right = []
    · subst noRight
      rw [exchangeBlocks_of_empty _ (by simp)]
      simp
    have leftLength := List.length_pos_iff.mpr noLeft
    have rightLength := List.length_pos_iff.mpr noRight
    by_cases shorter : left.length < right.length
    · obtain ⟨near, far, rfl, same⟩ : ∃ near far, right = near ++ far ∧
          left.length = far.length :=
        ⟨right.take (right.length - left.length), right.drop (right.length - left.length),
          (List.take_append_drop _ _).symm, by rw [List.length_drop]; omega⟩
      rw [List.length_append] at size shorter
      have longer : near ≠ [] := List.length_pos_iff.mp (by omega)
      rw [exchangeBlocks_left front left near far back noLeft longer same,
        ih _ (by omega) front far near (left ++ back) rfl]
      simp only [List.append_assoc]
    · obtain ⟨near, far, rfl, same⟩ : ∃ near far, left = near ++ far ∧
          near.length = right.length :=
        ⟨left.take right.length, left.drop right.length, (List.take_append_drop _ _).symm,
          by rw [List.length_take]; omega⟩
      rw [List.length_append] at size leftLength
      rw [exchangeBlocks_right front near far right back noRight same,
        ih _ (by omega) (front ++ right) far near back rfl]
      simp only [List.append_assoc]

end MailruHttp.Library
