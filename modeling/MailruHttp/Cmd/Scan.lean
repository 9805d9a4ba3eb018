import MailruHttp.Cmd.Getopt

/-! What a command line says: the options with their arguments, in the order of
the words, and the words that are neither. Nothing is moved and no place in a
word is kept; each word is read once, from left to right. -/

namespace MailruHttp.Cmd

/-- One result of a scan; `operand` where words that are no options are results. -/
inductive Reply where
  | option (c : UInt8) (optarg : Option CString)
  | invalid (c : UInt8)
  | missing (c : UInt8)
  | operand (word : CString)

/-- Whether a letter has an argument. -/
inductive Parameter where
  | no
  | required
  | optional
deriving DecidableEq

/-- The letters of `optstring` are followed by a colon for each argument; a colon
and a semicolon are no letters. -/
def parameterOf (optstring : List UInt8) (c : UInt8) : Option Parameter :=
  if c = byte ':' ∨ c = byte ';' then none
  else match optstring.dropWhile (· != c) with
    | [] => none
    | _ :: colons =>
      if colons[0]? = some (byte ':') then
        if colons[1]? = some (byte ':') then some .optional else some .required
      else some .no

/-- The letters of one word, and the letter that waits for the next word. -/
def readLetters (optstring : List UInt8) :
    (text : List UInt8) → 0 ∉ text → List Reply × Option UInt8
  | [], _ => ([], none)
  | c :: rest, ended =>
    have ended : 0 ∉ rest := fun found => ended (List.mem_cons_of_mem c found)
    let later := readLetters optstring rest ended
    match parameterOf optstring c with
    | none => (.invalid c :: later.1, later.2)
    | some .no => (.option c none :: later.1, later.2)
    | some .optional => ([.option c (if rest = [] then none else some ⟨rest, ended⟩)], none)
    | some .required =>
      if rest = [] then ([], some c) else ([.option c (some ⟨rest, ended⟩)], none)

def CString.letters (optstring : List UInt8) (word : CString) : List Reply × Option UInt8 :=
  readLetters optstring word.text word.ended

/-- The results, the words that went into them, and the words left over. -/
structure Scan where
  replies : List Reply
  consumed : List CString
  operands : List CString

def Scan.after (scan : Scan) (replies : List Reply) (consumed : List CString) : Scan where
  replies := replies ++ scan.replies
  consumed := consumed ++ scan.consumed
  operands := scan.operands

def Scan.passing (scan : Scan) (operands : List CString) : Scan :=
  { scan with operands := operands ++ scan.operands }

def scan (optstring : List UInt8) (ordering : EnumOrdering) : List CString → Scan
  | [] => ⟨[], [], []⟩
  | word :: rest =>
    if word.text = bytes "--" then ⟨[], [word], rest⟩
    else if word.isOption then
      let read := (word.drop 1).letters optstring
      match read.2, rest with
      | none, rest => (scan optstring ordering rest).after read.1 [word]
      | some c, [] => ⟨read.1 ++ [.missing c], [word], []⟩
      | some c, optarg :: rest =>
        (scan optstring ordering rest).after (read.1 ++ [.option c (some optarg)]) [word, optarg]
    else match ordering with
      | .requireOrder => ⟨[], [], word :: rest⟩
      | .permute => (scan optstring ordering rest).passing [word]
      | .returnInOrder => (scan optstring ordering rest).after [.operand word] [word]

/-- The scan from within a word, after some of its letters. -/
def resume (optstring : List UInt8) (ordering : EnumOrdering) (letters word : CString)
    (rest : List CString) : Scan :=
  let read := letters.letters optstring
  match read.2, rest with
  | none, rest => (scan optstring ordering rest).after read.1 [word]
  | some c, [] => ⟨read.1 ++ [.missing c], [word], []⟩
  | some c, optarg :: rest =>
    (scan optstring ordering rest).after (read.1 ++ [.option c (some optarg)]) [word, optarg]

section

variable {optstring : List UInt8} {ordering : EnumOrdering} {word : CString}

theorem scan_dashes (rest : List CString) (dashes : word.text = bytes "--") :
    scan optstring ordering (word :: rest) = ⟨[], [word], rest⟩ := by
  rw [scan.eq_def]
  exact if_pos dashes

theorem scan_option (rest : List CString) (other : word.text ≠ bytes "--")
    (valid : word.isOption = true) :
    scan optstring ordering (word :: rest) =
      resume optstring ordering (word.drop 1) word rest := by
  rw [scan.eq_def]
  dsimp only
  rw [if_neg other, if_pos valid]
  rfl

/-- A letter with a result of its own, after which the letters go on. -/
theorem resume_letter {letters : CString} {reply : Reply} (rest : List CString)
    (read : letters.letters optstring =
      (reply :: ((letters.drop 1).letters optstring).1, ((letters.drop 1).letters optstring).2)) :
    resume optstring ordering letters word rest =
      (resume optstring ordering (letters.drop 1) word rest).after [reply] [] := by
  unfold resume
  rw [read]
  obtain ⟨replies, waiting⟩ := (letters.drop 1).letters optstring
  cases waiting with
  | none => rfl
  | some c => cases rest <;> rfl

theorem resume_read {letters : CString} {replies : List Reply} (rest : List CString)
    (read : letters.letters optstring = (replies, none)) :
    resume optstring ordering letters word rest =
      (scan optstring ordering rest).after replies [word] := by
  unfold resume
  rw [read]

theorem resume_missing {letters : CString} {c : UInt8}
    (read : letters.letters optstring = ([], some c)) :
    resume optstring ordering letters word [] = ⟨[.missing c], [word], []⟩ := by
  unfold resume
  rw [read]
  rfl

theorem resume_argument {letters optarg : CString} {c : UInt8} (rest : List CString)
    (read : letters.letters optstring = ([], some c)) :
    resume optstring ordering letters word (optarg :: rest) =
      (scan optstring ordering rest).after [.option c (some optarg)] [word, optarg] := by
  unfold resume
  rw [read]
  rfl

theorem letters_finished {letters : CString} (finished : letters.text = []) :
    letters.letters optstring = ([], none) := by
  obtain ⟨text, ended⟩ := letters
  subst finished
  rfl

theorem letters_invalid {letters : CString} {c : UInt8} {more : List UInt8}
    (head : letters.text = c :: more) (unknown : parameterOf optstring c = none) :
    letters.letters optstring = (.invalid c :: ((letters.drop 1).letters optstring).1,
      ((letters.drop 1).letters optstring).2) := by
  obtain ⟨text, ended⟩ := letters
  subst head
  rw [CString.letters, readLetters, unknown]
  rfl

theorem letters_no {letters : CString} {c : UInt8} {more : List UInt8}
    (head : letters.text = c :: more) (alone : parameterOf optstring c = some .no) :
    letters.letters optstring = (.option c none :: ((letters.drop 1).letters optstring).1,
      ((letters.drop 1).letters optstring).2) := by
  obtain ⟨text, ended⟩ := letters
  subst head
  rw [CString.letters, readLetters, alone]
  rfl

theorem letters_optional {letters : CString} {c : UInt8} {more : List UInt8}
    (head : letters.text = c :: more) (optional : parameterOf optstring c = some .optional) :
    letters.letters optstring =
      ([.option c (if more = [] then none else some (letters.drop 1))], none) := by
  obtain ⟨text, ended⟩ := letters
  subst head
  rw [CString.letters, readLetters, optional]
  rfl

theorem letters_required {letters : CString} {c : UInt8} {more : List UInt8}
    (head : letters.text = c :: more) (required : parameterOf optstring c = some .required) :
    letters.letters optstring =
      if more = [] then ([], some c) else ([.option c (some (letters.drop 1))], none) := by
  obtain ⟨text, ended⟩ := letters
  subst head
  rw [CString.letters, readLetters, required]
  rfl

theorem not_dashes (valid : ¬ word.isOption = true) : word.text ≠ bytes "--" := by
  intro dashes
  apply valid
  rw [CString.isOption, dashes]
  decide

theorem scan_permute (rest : List CString) (valid : ¬ word.isOption = true) :
    scan optstring .permute (word :: rest) = (scan optstring .permute rest).passing [word] := by
  rw [scan.eq_def]
  dsimp only
  rw [if_neg (not_dashes valid), if_neg valid]

theorem scan_requireOrder (rest : List CString) (valid : ¬ word.isOption = true) :
    scan optstring .requireOrder (word :: rest) = ⟨[], [], word :: rest⟩ := by
  rw [scan.eq_def]
  dsimp only
  rw [if_neg (not_dashes valid), if_neg valid]

theorem scan_returnInOrder (rest : List CString) (valid : ¬ word.isOption = true) :
    scan optstring .returnInOrder (word :: rest) =
      (scan optstring .returnInOrder rest).after [.operand word] [word] := by
  rw [scan.eq_def]
  dsimp only
  rw [if_neg (not_dashes valid), if_neg valid]

theorem scan_passed (passed rest : List CString)
    (nonoptions : ∀ word ∈ passed, ¬ word.isOption = true) :
    scan optstring .permute (passed ++ rest) = (scan optstring .permute rest).passing passed := by
  induction passed with
  | nil => rfl
  | cons word passed ih =>
    rw [List.cons_append, scan_permute _ (nonoptions word (by simp)),
      ih fun other member => nonoptions other (by simp [member])]
    rfl

/-- How one scan splits a command line, each part in the order of the words. -/
structure Scan.Splits (scan : Scan) (words : List CString) : Prop where
  all : (scan.consumed ++ scan.operands).Perm words
  consumed : scan.consumed.Sublist words
  operands : scan.operands.Sublist words

theorem Scan.Splits.after {scan : Scan} {rest : List CString} (splits : scan.Splits rest)
    (replies : List Reply) (consumed : List CString) :
    (scan.after replies consumed).Splits (consumed ++ rest) where
  all := by
    rw [Scan.after, List.append_assoc]
    exact splits.all.append_left consumed
  consumed := splits.consumed.append_left consumed
  operands := splits.operands.trans (List.sublist_append_right consumed rest)

theorem Scan.Splits.passing {scan : Scan} {rest : List CString} (splits : scan.Splits rest)
    (operands : List CString) : (scan.passing operands).Splits (operands ++ rest) where
  all := by
    rw [Scan.passing, ← List.append_assoc]
    have swapped : (scan.consumed ++ operands).Perm (operands ++ scan.consumed) :=
      List.perm_append_comm
    apply (swapped.append_right _).trans
    rw [List.append_assoc]
    exact splits.all.append_left operands
  consumed := splits.consumed.trans (List.sublist_append_right operands rest)
  operands := splits.operands.append_left operands

theorem resume_splits (letters : CString) (rest : List CString)
    (later : ∀ words, words.length ≤ rest.length → (scan optstring ordering words).Splits words) :
    (resume optstring ordering letters word rest).Splits (word :: rest) := by
  unfold resume
  dsimp only
  split
  · exact (later _ (Nat.le_refl _)).after _ [word]
  · exact ⟨by simp, by simp, by simp⟩
  · exact (later _ (by simp)).after _ [word, _]

/-- Every word of a command line is consumed or left over, in its order. -/
theorem scan_splits (words : List CString) : (scan optstring ordering words).Splits words := by
  induction length : words.length using Nat.strongRecOn generalizing words with
  | _ length ih =>
    cases words with
    | nil => exact ⟨.refl _, .refl _, .refl _⟩
    | cons word rest =>
      rw [List.length_cons] at length
      have later (words : List CString) (shorter : words.length ≤ rest.length) :=
        ih words.length (by omega) words rfl
      by_cases dashes : word.text = bytes "--"
      · rw [scan_dashes rest dashes]
        exact ⟨by simp, by simp, by simp⟩
      by_cases valid : word.isOption = true
      · rw [scan_option rest dashes valid]
        exact resume_splits _ rest later
      cases ordering with
      | requireOrder =>
        rw [scan_requireOrder rest valid]
        exact ⟨by simp, by simp, by simp⟩
      | permute =>
        rw [scan_permute rest valid]
        exact (later rest (Nat.le_refl _)).passing [word]
      | returnInOrder =>
        rw [scan_returnInOrder rest valid]
        exact (later rest (Nat.le_refl _)).after _ [word]

end

end MailruHttp.Cmd
