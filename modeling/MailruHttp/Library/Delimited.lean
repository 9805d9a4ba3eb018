import Mathlib.Data.List.Basic

/-! Text divided by delimiters: the cut at the first occurrence of a word, and
lines that contain no delimiter. -/

namespace MailruHttp.Library

universe u

variable {α : Type u} [DecidableEq α]

/-- The text before and after the first occurrence of a word. -/
def cut (word : List α) : List α → Option (List α × List α)
  | [] => if word = [] then some ([], []) else none
  | a :: text =>
    if word <+: a :: text then some ([], (a :: text).drop word.length)
    else (cut word text).map fun (front, back) => (a :: front, back)

theorem cut_hit (word back : List α) : cut word (word ++ back) = some ([], back) := by
  cases same : word ++ back with
  | nil =>
    obtain ⟨noWord, noBack⟩ := List.append_eq_nil_iff.mp same
    simp [cut, noWord, noBack]
  | cons a text =>
    have here : word <+: a :: text := ⟨back, same⟩
    rw [cut, if_pos here, ← same, List.drop_left]

theorem cut_miss {word text : List α} {a : α} (absent : ¬ word <+: a :: text) :
    cut word (a :: text) = (cut word text).map fun (front, back) => (a :: front, back) := by
  rw [cut, if_neg absent]

/-- What `cut` returns is exactly a division of the text whose front holds no
earlier start of the word. -/
theorem cut_eq_some_iff {word text front back : List α} :
    cut word text = some (front, back) ↔
      text = front ++ word ++ back ∧ ∀ i < front.length, ¬ word <+: text.drop i := by
  induction text generalizing front with
  | nil =>
    constructor
    · intro found
      unfold cut at found
      split at found
      · rename_i empty
        cases found
        simp [empty]
      · cases found
    · rintro ⟨split, -⟩
      obtain ⟨rfl, rfl, rfl⟩ : front = [] ∧ word = [] ∧ back = [] := by simpa using split.symm
      rfl
  | cons a text ih =>
    by_cases here : word <+: a :: text
    · rw [cut, if_pos here]
      constructor
      · intro found
        cases found
        refine ⟨?_, by simp⟩
        rw [List.nil_append]
        exact (List.prefix_iff_eq_append.mp here).symm
      · rintro ⟨split, first⟩
        -- an occurrence at the start leaves no room in front of the first one
        cases front with
        | nil => rw [split, List.nil_append, List.drop_left]
        | cons b front => exact absurd here (first 0 (by simp))
    · rw [cut_miss here]
      constructor
      · intro found
        obtain ⟨⟨rest, after⟩, cutRest, same⟩ := Option.map_eq_some_iff.mp found
        cases same
        obtain ⟨split, first⟩ := ih.mp cutRest
        refine ⟨by rw [split]; rfl, ?_⟩
        intro i inside
        cases i with
        | zero => exact here
        | succ i => exact first i (Nat.lt_of_succ_lt_succ inside)
      · rintro ⟨split, first⟩
        cases front with
        | nil => exact absurd ⟨back, split.symm⟩ here
        | cons b front =>
          obtain ⟨rfl, rest⟩ := List.cons.inj split
          have cutRest := ih.mpr ⟨rest, fun i inside => first (i + 1) (Nat.succ_lt_succ inside)⟩
          rw [cutRest]
          rfl

/-- Text without the first letter of the word is passed over. -/
theorem cut_skip {head : α} {tail skipped : List α} (text : List α) (free : head ∉ skipped) :
    cut (head :: tail) (skipped ++ text) =
      (cut (head :: tail) text).map fun (front, back) => (skipped ++ front, back) := by
  induction skipped with
  | nil => simp
  | cons a skipped ih =>
    obtain ⟨different, rest⟩ := List.ne_and_not_mem_of_not_mem_cons free
    have absent : ¬ head :: tail <+: a :: (skipped ++ text) := by
      intro here
      exact different (List.cons_prefix_cons.mp here).1
    rw [List.cons_append, cut_miss absent, ih rest, Option.map_map]
    rfl

theorem cut_length_lt {word text front back : List α} (nonempty : word ≠ [])
    (found : cut word text = some (front, back)) : back.length < text.length := by
  obtain ⟨split, -⟩ := cut_eq_some_iff.mp found
  have positive := List.length_pos_iff.mpr nonempty
  rw [split, List.length_append, List.length_append]
  omega

/-- A prefix of the text is cut at the same place, or does not reach the end of the
word yet. -/
theorem cut_take {word text front back : List α} (found : cut word text = some (front, back))
    (k : Nat) :
    (k < front.length + word.length ∧ cut word (text.take k) = none) ∨
      ∃ j, front.length + word.length + j = k ∧ cut word (text.take k) = some (front, back.take j) := by
  obtain ⟨split, first⟩ := cut_eq_some_iff.mp found
  have earlier : ∀ i < front.length, ¬ word <+: (text.take k).drop i := by
    intro i inside here
    rw [List.drop_take] at here
    exact first i inside (here.trans (List.take_prefix _ _))
  rcases Nat.lt_or_ge k (front.length + word.length) with short | long
  · refine .inl ⟨short, Option.eq_none_iff_forall_ne_some.mpr ?_⟩
    rintro ⟨before, after⟩ cutShort
    obtain ⟨splitShort, -⟩ := cut_eq_some_iff.mp cutShort
    have here : word <+: (text.take k).drop before.length := by
      rw [splitShort, List.append_assoc, List.drop_left]
      exact List.prefix_append word after
    have later : front.length ≤ before.length :=
      Nat.le_of_not_lt fun inside => earlier _ inside here
    have length := congrArg List.length splitShort
    simp only [List.length_take, List.length_append] at length
    omega
  · obtain ⟨j, rfl⟩ := Nat.exists_eq_add_of_le long
    refine .inr ⟨j, rfl, cut_eq_some_iff.mpr ⟨?_, earlier⟩⟩
    have fits : front.length + word.length = (front ++ word).length := List.length_append.symm
    rw [split, fits, List.take_length_add_append]

/-- A word whose first letter does not come again in it, so that it never
overlaps itself. -/
structure Delimiter (α : Type u) where
  head : α
  tail : List α
  simple : head ∉ tail

namespace Delimiter

def word {α : Type u} (delimiter : Delimiter α) : List α := delimiter.head :: delimiter.tail

/-- The text between the delimiters. -/
def split (delimiter : Delimiter α) (text : List α) : List (List α) :=
  match _found : cut delimiter.word text with
  | some (line, rest) => line :: delimiter.split rest
  | none => [text]
termination_by text.length
decreasing_by exact cut_length_lt (List.cons_ne_nil _ _) _found

/-- Lines with a delimiter between each two. -/
def join {α : Type u} (delimiter : Delimiter α) (first : List α) : List (List α) → List α
  | [] => first
  | next :: lines => first ++ delimiter.word ++ delimiter.join next lines

variable {delimiter : Delimiter α}

theorem cut_line {line : List α} (rest : List α) (free : delimiter.head ∉ line) :
    cut delimiter.word (line ++ delimiter.word ++ rest) = some (line, rest) := by
  have hit := cut_hit delimiter.word rest
  unfold word at hit ⊢
  rw [List.append_assoc, cut_skip _ free, hit]
  simp

theorem cut_none {line : List α} (free : delimiter.head ∉ line) :
    cut delimiter.word line = none := by
  have skipped : cut delimiter.word (line ++ []) = _ := cut_skip [] free
  rw [List.append_nil] at skipped
  rw [skipped]
  rfl

/-- Lines free of the delimiter are what their text is divided into. -/
theorem split_join {first : List α} {lines : List (List α)}
    (free : ∀ line ∈ first :: lines, delimiter.head ∉ line) :
    delimiter.split (delimiter.join first lines) = first :: lines := by
  induction lines generalizing first with
  | nil =>
    have none := cut_none (free first (by simp))
    rw [join, split]
    split
    · rename_i found
      rw [none] at found
      cases found
    · rfl
  | cons next lines ih =>
    have here := cut_line (delimiter.join next lines) (free first (by simp))
    have rest := ih (fun line member => free line (List.mem_cons_of_mem _ member))
    rw [join, split]
    split
    · rename_i found
      rw [here] at found
      cases found
      rw [rest]
    · rename_i found
      rw [here] at found
      cases found

/-- A line that is not followed by an empty one is passed over in the search for
the end of a paragraph. -/
theorem cut_twice_skip {line rest : List α} (free : delimiter.head ∉ line)
    (more : ¬ delimiter.word <+: rest) :
    cut (delimiter.word ++ delimiter.word) (line ++ delimiter.word ++ rest) =
      (cut (delimiter.word ++ delimiter.word) rest).map
        fun (front, back) => (line ++ delimiter.word ++ front, back) := by
  have absent : ¬ delimiter.word ++ delimiter.word <+: delimiter.word ++ rest := by
    rw [List.prefix_append_right_inj]
    exact more
  unfold word at absent ⊢
  simp only [List.cons_append, List.append_assoc] at absent ⊢
  rw [cut_skip _ free, cut_miss absent, cut_skip _ delimiter.simple]
  simp only [Option.map_map]
  rfl

/-- The first two delimiters in a row end a paragraph of lines that are not empty. -/
theorem cut_paragraph {first : List α} {lines : List (List α)}
    (free : ∀ line ∈ first :: lines, delimiter.head ∉ line) (full : ∀ line ∈ lines, line ≠ [])
    (back : List α) :
    cut (delimiter.word ++ delimiter.word)
        (delimiter.join first lines ++ (delimiter.word ++ delimiter.word) ++ back) =
      some (delimiter.join first lines, back) := by
  induction lines generalizing first with
  | nil =>
    have hit := cut_hit (delimiter.word ++ delimiter.word) back
    unfold word at hit ⊢
    simp only [List.cons_append, List.append_assoc] at hit ⊢
    rw [join, cut_skip _ (free first (by simp)), hit]
    simp
  | cons next lines ih =>
    have rest := ih (fun line member => free line (List.mem_cons_of_mem _ member))
      (fun line member => full line (List.mem_cons_of_mem _ member))
    have more : ¬ delimiter.word <+:
        delimiter.join next lines ++ (delimiter.word ++ delimiter.word) ++ back := by
      obtain ⟨a, letters, same⟩ := List.exists_cons_of_ne_nil (full next (by simp))
      have different := free next (by simp)
      intro here
      have start : ∃ text, delimiter.join next lines = a :: text := by
        cases lines with
        | nil => exact ⟨letters, by rw [join, same]⟩
        | cons _ _ => exact ⟨_, by rw [join, same]; rfl⟩
      obtain ⟨text, start⟩ := start
      rw [start] at here
      have equal := (List.cons_prefix_cons.mp here).1
      rw [same, equal] at different
      simp at different
    have skipped := cut_twice_skip (free first (by simp)) more
    rw [rest] at skipped
    simpa [join] using skipped

end Delimiter

end MailruHttp.Library
