import Mathlib.Computability.Language
import Mathlib.Data.List.Infix

/-! Chains of deterministic segments over an arbitrary alphabet: the language of
a chain, its letter-by-letter reader, and the three verdicts a reader can give. -/

namespace MailruHttp.Library

universe u

variable {α : Type u}

/-- One piece of a chain: any number of skipped letters, then the stop letter.
The stop letter is never skipped, so reading is deterministic. -/
structure Segment (α : Type u) where
  skip : α → Bool
  stop : α
  excluded : skip stop = false

/-- The segment that reads exactly one given letter. -/
def Segment.letter (a : α) : Segment α := ⟨fun _ => false, a, rfl⟩

def Segment.language (segment : Segment α) : Language α :=
  {word | ∃ skipped, (∀ a ∈ skipped, segment.skip a = true) ∧ word = skipped ++ [segment.stop]}

def chainLanguage (chain : List (Segment α)) : Language α :=
  (chain.map Segment.language).prod

/-- Some front of the word belongs to the language. -/
def Accepts (language : Language α) (word : List α) : Prop :=
  ∃ front ∈ language, front <+: word

/-- Some continuation of the word has a front in the language. -/
def Extendable (language : Language α) (word : List α) : Prop :=
  ∃ continuation, Accepts language (word ++ continuation)

theorem Accepts.append {language : Language α} (accepted : Accepts language word)
    (continuation : List α) : Accepts language (word ++ continuation) := by
  obtain ⟨front, member, leading⟩ := accepted
  exact ⟨front, member, leading.trans (List.prefix_append word continuation)⟩

theorem Accepts.extendable {language : Language α} (accepted : Accepts language word) :
    Extendable language word := ⟨[], accepted.append []⟩

theorem Extendable.of_append {language : Language α}
    (extendable : Extendable language (word ++ continuation)) : Extendable language word := by
  obtain ⟨rest, accepted⟩ := extendable
  exact ⟨continuation ++ rest, by simpa [List.append_assoc] using accepted⟩

theorem chainLanguage_cons (segment : Segment α) (rest : List (Segment α)) :
    chainLanguage (segment :: rest) = segment.language * chainLanguage rest := by
  simp [chainLanguage]

theorem chainLanguage_append (first second : List (Segment α)) :
    chainLanguage (first ++ second) = chainLanguage first * chainLanguage second := by
  simp [chainLanguage]

/-- The first letter of a word of a chain either finishes the first segment or
is skipped by it. -/
theorem mem_chainLanguage_cons {segment : Segment α} {rest : List (Segment α)} {word : List α} :
    word ∈ chainLanguage (segment :: rest) ↔
      (∃ tail ∈ chainLanguage rest, word = segment.stop :: tail) ∨
      ∃ a tail, segment.skip a = true ∧ tail ∈ chainLanguage (segment :: rest) ∧ word = a :: tail := by
  simp only [chainLanguage_cons, Language.mem_mul]
  constructor
  · rintro ⟨_, ⟨skipped, allowed, rfl⟩, tail, member, rfl⟩
    cases skipped with
    | nil => exact .inl ⟨tail, member, rfl⟩
    | cons a skipped =>
      refine .inr ⟨a, skipped ++ [segment.stop] ++ tail, allowed a (by simp), ?_, by simp⟩
      exact ⟨_, ⟨skipped, fun b present => allowed b (by simp [present]), rfl⟩, tail, member, rfl⟩
  · rintro (⟨tail, member, rfl⟩ | ⟨a, _, skips, ⟨_, ⟨skipped, allowed, rfl⟩, tail, member, rfl⟩, rfl⟩)
    · exact ⟨[segment.stop], ⟨[], by simp, rfl⟩, tail, member, rfl⟩
    · refine ⟨a :: skipped ++ [segment.stop], ⟨a :: skipped, ?_, rfl⟩, tail, member, by simp⟩
      intro b present
      rcases List.mem_cons.mp present with same | present
      · exact same ▸ skips
      · exact allowed b present

theorem accepts_finished (word : List α) : Accepts (chainLanguage []) word :=
  ⟨[], by simp [chainLanguage], List.nil_prefix⟩

theorem not_accepts_nil (segment : Segment α) (rest : List (Segment α)) :
    ¬ Accepts (chainLanguage (segment :: rest)) [] := by
  rintro ⟨front, member, leading⟩
  rw [List.prefix_nil.mp leading] at member
  rcases mem_chainLanguage_cons.mp member with ⟨_, _, impossible⟩ | ⟨_, _, _, _, impossible⟩
  all_goals cases impossible

/-- A word accepted by a chain starts with a letter its first segment reads. -/
theorem accepts_cons_cases {segment : Segment α} {rest : List (Segment α)} {a : α} {word : List α}
    (accepted : Accepts (chainLanguage (segment :: rest)) (a :: word)) :
    (a = segment.stop ∧ Accepts (chainLanguage rest) word) ∨
      (segment.skip a = true ∧ Accepts (chainLanguage (segment :: rest)) word) := by
  obtain ⟨front, member, leading⟩ := accepted
  rcases mem_chainLanguage_cons.mp member with ⟨tail, inRest, rfl⟩ | ⟨b, tail, skips, inChain, rfl⟩
  · obtain ⟨same, leading⟩ := List.cons_prefix_cons.mp leading
    exact .inl ⟨same.symm, tail, inRest, leading⟩
  · obtain ⟨same, leading⟩ := List.cons_prefix_cons.mp leading
    exact .inr ⟨same ▸ skips, tail, inChain, leading⟩

theorem accepts_stop {segment : Segment α} {rest : List (Segment α)} {word : List α} :
    Accepts (chainLanguage (segment :: rest)) (segment.stop :: word) ↔
      Accepts (chainLanguage rest) word := by
  constructor
  · intro accepted
    rcases accepts_cons_cases accepted with ⟨_, accepted⟩ | ⟨skips, _⟩
    · exact accepted
    · simp [segment.excluded] at skips
  · rintro ⟨front, member, leading⟩
    exact ⟨segment.stop :: front, mem_chainLanguage_cons.mpr (.inl ⟨front, member, rfl⟩),
      List.cons_prefix_cons.mpr ⟨rfl, leading⟩⟩

theorem accepts_skip {segment : Segment α} {rest : List (Segment α)} {a : α} {word : List α}
    (skips : segment.skip a = true) :
    Accepts (chainLanguage (segment :: rest)) (a :: word) ↔
      Accepts (chainLanguage (segment :: rest)) word := by
  constructor
  · intro accepted
    rcases accepts_cons_cases accepted with ⟨rfl, _⟩ | ⟨_, accepted⟩
    · simp [segment.excluded] at skips
    · exact accepted
  · rintro ⟨front, member, leading⟩
    exact ⟨a :: front, mem_chainLanguage_cons.mpr (.inr ⟨a, front, skips, member, rfl⟩),
      List.cons_prefix_cons.mpr ⟨rfl, leading⟩⟩

/-- A word has at most one front in the language of a chain. -/
theorem front_unique {chain : List (Segment α)} {first second word : List α}
    (firstIn : first ∈ chainLanguage chain) (secondIn : second ∈ chainLanguage chain)
    (firstLeads : first <+: word) (secondLeads : second <+: word) : first = second := by
  induction word generalizing chain first second with
  | nil => rw [List.prefix_nil.mp firstLeads, List.prefix_nil.mp secondLeads]
  | cons a word ih =>
    cases chain with
    | nil => exact firstIn.trans secondIn.symm
    | cons segment rest =>
      rcases mem_chainLanguage_cons.mp firstIn with
        ⟨tail, inRest, rfl⟩ | ⟨b, tail, skips, inChain, rfl⟩
      · obtain ⟨rfl, leads⟩ := List.cons_prefix_cons.mp firstLeads
        rcases mem_chainLanguage_cons.mp secondIn with
          ⟨other, otherRest, rfl⟩ | ⟨c, other, otherSkips, otherChain, rfl⟩
        · obtain ⟨-, otherLeads⟩ := List.cons_prefix_cons.mp secondLeads
          rw [ih inRest otherRest leads otherLeads]
        · obtain ⟨rfl, -⟩ := List.cons_prefix_cons.mp secondLeads
          rw [segment.excluded] at otherSkips
          cases otherSkips
      · obtain ⟨rfl, leads⟩ := List.cons_prefix_cons.mp firstLeads
        rcases mem_chainLanguage_cons.mp secondIn with
          ⟨other, otherRest, rfl⟩ | ⟨c, other, otherSkips, otherChain, rfl⟩
        · obtain ⟨rfl, -⟩ := List.cons_prefix_cons.mp secondLeads
          rw [segment.excluded] at skips
          cases skips
        · obtain ⟨rfl, otherLeads⟩ := List.cons_prefix_cons.mp secondLeads
          rw [ih inChain otherChain leads otherLeads]

theorem mem_singleton_word (word s : List α) : word ∈ ({s} : Language α) ↔ word = s := Iff.rfl

theorem chainLanguage_letters (s : List α) : chainLanguage (s.map Segment.letter) = {s} := by
  induction s with
  | nil => rfl
  | cons a s ih =>
    ext word
    rw [List.map_cons, mem_chainLanguage_cons, ih]
    simp [Segment.letter, mem_singleton_word]

section Reader

variable [DecidableEq α]

/-- What remains of a chain after one letter; `none` is a rejected letter. A
finished chain reads nothing more. -/
def advance : List (Segment α) → α → Option (List (Segment α))
  | [], _ => some []
  | segment :: rest, a =>
    if a = segment.stop then some rest
    else if segment.skip a then some (segment :: rest)
    else none

def advances : List (Segment α) → List α → Option (List (Segment α))
  | chain, [] => some chain
  | chain, a :: word => (advance chain a).bind (advances · word)

@[simp] theorem advances_nil (chain : List (Segment α)) : advances chain [] = some chain := rfl

@[simp] theorem advances_finished (word : List α) : advances ([] : List (Segment α)) word = some [] := by
  induction word with
  | nil => rfl
  | cons a word ih => simpa [advances, advance] using ih

theorem advances_append (chain : List (Segment α)) (first second : List α) :
    advances chain (first ++ second) = (advances chain first).bind (advances · second) := by
  induction first generalizing chain with
  | nil => rfl
  | cons a first ih =>
    cases next : advance chain a with
    | none => simp [advances, next]
    | some rest => simp [advances, next, ih]

/-- A finished reader is exactly an accepted word. -/
theorem advances_finished_iff (chain : List (Segment α)) (word : List α) :
    advances chain word = some [] ↔ Accepts (chainLanguage chain) word := by
  induction word generalizing chain with
  | nil =>
    cases chain with
    | nil => simp [accepts_finished]
    | cons segment rest => simp [not_accepts_nil]
  | cons a word ih =>
    cases chain with
    | nil => simp [accepts_finished]
    | cons segment rest =>
      by_cases stops : a = segment.stop
      · subst stops
        simp only [advances, advance, ↓reduceIte, Option.bind_some, ih, accepts_stop]
      · by_cases skips : segment.skip a = true
        · simp only [advances, advance, stops, skips, ↓reduceIte, Option.bind_some, ih, accepts_skip]
        · simp only [advances, advance, stops, skips, Bool.false_eq_true, ↓reduceIte, Option.bind_none]
          refine ⟨nofun, fun accepted => ?_⟩
          rcases accepts_cons_cases accepted with ⟨same, _⟩ | ⟨skipped, _⟩
          · exact absurd same stops
          · exact absurd skipped skips

/-- Reading the stop letters of a chain one after another finishes it. -/
theorem advances_stops (chain : List (Segment α)) :
    advances chain (chain.map Segment.stop) = some [] := by
  induction chain with
  | nil => rfl
  | cons segment rest ih => simpa [advances, advance] using ih

/-- A reader that has not rejected can still be finished. -/
theorem extendable_iff (chain : List (Segment α)) (word : List α) :
    Extendable (chainLanguage chain) word ↔ advances chain word ≠ none := by
  simp only [Extendable, ← advances_finished_iff, advances_append]
  cases advances chain word with
  | none => simp
  | some rest => simpa using ⟨_, advances_stops rest⟩

/-- A reader that still waits has accepted nothing and can be finished. -/
theorem advances_waiting_iff (chain : List (Segment α)) (word : List α) :
    (∃ segment rest, advances chain word = some (segment :: rest)) ↔
      ¬ Accepts (chainLanguage chain) word ∧ Extendable (chainLanguage chain) word := by
  rw [extendable_iff, ← advances_finished_iff]
  cases advances chain word with
  | none => simp
  | some rest => cases rest <;> simp

end Reader

end MailruHttp.Library
