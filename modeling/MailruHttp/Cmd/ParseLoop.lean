import MailruHttp.Cmd.ScanRefinement

/-! The loop of `cmd::parse` over the calls of `getopt`, against `parse`. -/

namespace MailruHttp.Cmd

/-- A result as `cmd::parse` takes it; `none` is an option without its argument. -/
def Reply.found : Reply → Option Found
  | .option c optarg => optarg.map (.option c)
  | _ => some .unknown

theorem mem_letters {c : UInt8} (letter : takesArgument c = true) :
    c = byte 'h' ∨ c = byte 'p' ∨ c = byte 'd' ∨ c = byte 't' := by
  have letters : bytes "hpdt" = [byte 'h', byte 'p', byte 'd', byte 't'] := rfl
  rw [takesArgument, letters] at letter
  simpa using letter

theorem parameterOf_letters (c : UInt8) :
    parameterOf (bytes "h:p:d:t:") c = if takesArgument c then some .required else none := by
  by_cases letter : takesArgument c = true
  · rw [if_pos letter]
    rcases mem_letters letter with rfl | rfl | rfl | rfl <;> decide
  · rw [if_neg letter]
    have letters : bytes "hpdt" = [byte 'h', byte 'p', byte 'd', byte 't'] := rfl
    have marks : bytes "h:p:d:t:" = [byte 'h', byte ':', byte 'p', byte ':', byte 'd', byte ':',
      byte 't', byte ':'] := rfl
    rw [takesArgument, letters] at letter
    unfold parameterOf
    split
    · rfl
    · rename_i sign
      rw [not_or] at sign
      rw [marks]
      simp only [List.contains_cons, Bool.or_eq_true, beq_iff_eq, not_or] at letter
      obtain ⟨h, p, d, t, _⟩ := letter
      simp [Ne.symm h, Ne.symm p, Ne.symm d, Ne.symm t, Ne.symm sign.1]

/-- The letters before the first known one. -/
def CString.unknown (letters : CString) : List UInt8 :=
  letters.text.takeWhile fun c => !takesArgument c

/-- What is left of a word at its first known letter. -/
def CString.known (letters : CString) : CString := letters.drop letters.unknown.length

section

variable {ordering : EnumOrdering} {letters word : CString} {c : UInt8} {more : List UInt8}

theorem unknown_cons (head : letters.text = c :: more) (letter : ¬ takesArgument c = true) :
    letters.unknown = c :: (letters.drop 1).unknown ∧ letters.known = (letters.drop 1).known := by
  obtain ⟨text, ended⟩ := letters
  subst head
  have first : CString.unknown ⟨c :: more, ended⟩ =
      c :: (CString.drop ⟨c :: more, ended⟩ 1).unknown := by
    simp [CString.unknown, CString.drop, letter]
  refine ⟨first, ?_⟩
  rw [CString.known, first]
  simp [CString.known, CString.drop]

theorem unknown_letter (head : letters.text = c :: more) (letter : takesArgument c = true) :
    letters.unknown = [] ∧ letters.known = letters := by
  have none : letters.unknown = [] := by simp [CString.unknown, head, letter]
  refine ⟨none, ?_⟩
  rw [CString.known, none]
  rfl

/-- The letters of a word: unknown ones up to one that takes the rest of the word,
or the next word, as its argument. -/
theorem letters_eq (letters : CString) :
    letters.letters (bytes "h:p:d:t:") =
      match letters.known.text with
      | [] => (letters.unknown.map .invalid, none)
      | c :: rest =>
        if rest = [] then (letters.unknown.map .invalid, some c)
        else (letters.unknown.map .invalid ++ [.option c (some (letters.known.drop 1))], none) := by
  induction size : letters.text.length generalizing letters with
  | zero =>
    have finished := List.length_eq_zero_iff.mp size
    have none : letters.unknown = [] := by simp [CString.unknown, finished]
    have ended : letters.known.text = [] := by simp [CString.known, CString.drop, finished]
    rw [letters_finished finished, ended, none]
    rfl
  | succ n ih =>
    obtain ⟨c, more, head⟩ := List.exists_cons_of_length_eq_add_one size
    have known := parameterOf_letters c
    by_cases letter : takesArgument c = true
    · rw [if_pos letter] at known
      obtain ⟨none, here⟩ := unknown_letter head letter
      rw [letters_required head known, here, head, none]
      rfl
    · rw [if_neg letter] at known
      obtain ⟨first, later⟩ := unknown_cons head letter
      have fewer : (letters.drop 1).text.length = n := by
        simp [CString.drop, head] at size ⊢
        exact size
      rw [letters_invalid head known, ih _ fewer, first, later]
      cases (letters.drop 1).known.text with
      | nil => rfl
      | cons c rest => by_cases last : rest = [] <;> simp [last]

theorem getopt_option {posixlyCorrect : Bool} (rest : List CString)
    (other : word.text ≠ bytes "--") (valid : word.isOption = true) :
    getopt posixlyCorrect (word :: rest) =
      (word.drop 1).unknown.map (fun _ => .unknown) ++
        match (word.drop 1).known.text with
        | [] => getopt posixlyCorrect rest
        | c :: _ =>
          if ((word.drop 1).known.drop 1).text ≠ [] then
            .option c ((word.drop 1).known.drop 1) :: getopt posixlyCorrect rest
          else match rest with
            | [] => [.unknown]
            | optarg :: rest => .option c optarg :: getopt posixlyCorrect rest := by
  have known : word.drop (1 + (word.drop 1).unknown.length) = (word.drop 1).known := by
    simp [CString.known, CString.drop, Nat.add_comm]
  rw [getopt.eq_def]
  dsimp only
  rw [if_neg other, if_pos valid, ← known]
  rfl

theorem resume_found {posixlyCorrect : Bool} {rest : List CString}
    (other : word.text ≠ bytes "--") (valid : word.isOption = true)
    (later : ∀ words, words.length ≤ rest.length →
      (scan (bytes "h:p:d:t:") ordering words).replies.map Reply.found =
        (getopt posixlyCorrect words).map some) :
    (resume (bytes "h:p:d:t:") ordering (word.drop 1) word rest).replies.map Reply.found =
      (getopt posixlyCorrect (word :: rest)).map some := by
  rw [getopt_option rest other valid]
  have read := letters_eq (word.drop 1)
  have invalid (unknown : List UInt8) :
      (unknown.map Reply.invalid).map Reply.found =
        (unknown.map fun _ => Found.unknown).map some := by
    rw [List.map_map, List.map_map]
    rfl
  unfold resume
  cases text : (word.drop 1).known.text with
  | nil =>
    rw [text] at read
    rw [read]
    simp only [Scan.after, List.map_append, invalid, later rest (Nat.le_refl _)]
  | cons c more =>
    rw [text] at read
    dsimp only at read
    have dropped : ((word.drop 1).known.drop 1).text = more := congrArg (List.drop 1) text
    by_cases last : more = []
    · rw [if_pos last] at read
      rw [read]
      simp only [dropped, last, ne_eq, not_true_eq_false, ↓reduceIte]
      cases rest with
      | nil => simp [invalid, Reply.found]
      | cons optarg rest =>
        simp [Scan.after, invalid, Reply.found, later rest (Nat.le_succ _)]
    · rw [if_neg last] at read
      rw [read]
      simp [Scan.after, invalid, Reply.found, dropped, last, later rest (Nat.le_refl _)]

theorem orderingOf_letters (getenv : Bool) :
    orderingOf getenv (bytes "h:p:d:t:") = if getenv then .requireOrder else .permute := by
  cases getenv <;> decide

/-- The scan of the command line has the results that `parse` is defined on. -/
theorem scan_found (getenv : Bool) (words : List CString) :
    (scan (bytes "h:p:d:t:") (orderingOf getenv (bytes "h:p:d:t:")) words).replies.map Reply.found =
      (getopt getenv words).map some := by
  induction length : words.length using Nat.strongRecOn generalizing words with
  | _ length ih =>
    cases words with
    | nil => rfl
    | cons word rest =>
      rw [List.length_cons] at length
      have later (words : List CString) (shorter : words.length ≤ rest.length) :=
        ih words.length (by omega) words rfl
      by_cases dashes : word.text = bytes "--"
      · rw [scan_dashes rest dashes, getopt, if_pos dashes]
        rfl
      by_cases valid : word.isOption = true
      · rw [scan_option rest dashes valid]
        exact resume_found dashes valid later
      rw [orderingOf_letters] at later ⊢
      rw [getopt, if_neg dashes, if_neg valid]
      cases getenv with
      | true =>
        rw [if_pos rfl, if_pos rfl, scan_requireOrder rest valid]
        rfl
      | false =>
        rw [if_neg Bool.false_ne_true, if_neg Bool.false_ne_true, scan_permute rest valid]
        exact later rest (Nat.le_refl _)

end

theorem charToInt_inj {c other : UInt8} (same : charToInt c = charToInt other) : c = other :=
  congrArg Int8.toUInt8 (Int8.toInt_inj.mp same)

theorem switch_other {result : Int} (opts : ServerOptions) (optarg : Option CString)
    (other : ∀ letter ∈ [byte 'h', byte 'p', byte 't', byte 'd'], charToInt letter ≠ result) :
    opts.switch result optarg = some opts := by
  have none : [byte 'h', byte 'p', byte 't', byte 'd'].find? (charToInt · = result) = none := by
    rw [List.find?_eq_none]
    intro letter member
    simpa using other letter member
  rw [ServerOptions.switch, none]

/-- The `switch` does to the options what `parse` does. -/
theorem switch_found {reply : Reply} {result : Int} {d : GetoptData} {found : Found}
    (answer : reply.Answered (bytes "h:p:d:t:") result d) (taken : reply.found = some found)
    (opts : ServerOptions) : opts.switch result d.optarg = some (opts.set found) := by
  have question : ∀ letter ∈ [byte 'h', byte 'p', byte 't', byte 'd'],
      charToInt letter ≠ charToInt (byte '?') := by
    intro letter member same
    have mark : byte '?' ∉ [byte 'h', byte 'p', byte 't', byte 'd'] := by decide
    exact mark (charToInt_inj same ▸ member)
  cases reply with
  | option c optarg =>
    obtain ⟨rfl, argument⟩ := answer
    obtain ⟨text, rfl, rfl⟩ := Option.map_eq_some_iff.mp taken
    rw [argument]
    by_cases known : c ∈ [byte 'h', byte 'p', byte 't', byte 'd']
    · have first : [byte 'h', byte 'p', byte 't', byte 'd'].find? (charToInt · = charToInt c) =
          some c := by
        simp only [List.mem_cons, List.not_mem_nil, or_false] at known
        rcases known with rfl | rfl | rfl | rfl <;> decide
      rw [ServerOptions.switch, first]
      rfl
    · have others : ∀ letter ∈ [byte 'h', byte 'p', byte 't', byte 'd'],
          charToInt letter ≠ charToInt c := by
        intro letter member same
        exact known (charToInt_inj same ▸ member)
      rw [switch_other opts _ others]
      simp only [List.mem_cons, List.not_mem_nil, or_false, not_or] at known
      obtain ⟨h, p, t, d⟩ := known
      simp only [ServerOptions.set, h, p, t, d, ↓reduceIte]
  | invalid c =>
    obtain ⟨rfl, _⟩ := answer
    cases taken
    exact switch_other opts _ question
  | missing c =>
    obtain ⟨rfl, _⟩ := answer
    cases taken
    exact switch_other opts _ question
  | operand word =>
    obtain ⟨rfl, _⟩ := answer
    cases taken
    apply switch_other opts
    intro letter member
    simp only [List.mem_cons, List.not_mem_nil, or_false] at member
    rcases member with rfl | rfl | rfl | rfl <;> decide

/-- The loop folds what the calls return into the options. -/
theorem parseLoop_calls {getenv : Bool} {calls : Nat} {argv after : List CString}
    {d last : GetoptData} {results : List (Int × GetoptData)} {found : List Found}
    (returned : getoptCalls getenv (bytes "h:p:d:t:") calls argv d = some (results, after, last))
    (taken : List.Forall₂ (fun found result => ∀ opts : ServerOptions,
      opts.switch result.1 result.2.optarg = some (opts.set found)) found results)
    (opts : ServerOptions) :
    parseLoop getenv calls argv d opts = some (found.foldl ServerOptions.set opts, after, last) := by
  induction calls generalizing argv d results found opts with
  | zero => cases returned
  | succ calls ih =>
    rw [getoptCalls] at returned
    rw [parseLoop]
    obtain ⟨⟨result, argv, d⟩, call, rest⟩ := Option.bind_eq_some_iff.mp returned
    rw [call, Option.bind_some]
    dsimp only at rest ⊢
    by_cases ended : result = -1
    · rw [if_pos ended] at rest ⊢
      cases rest
      cases taken
      rfl
    · rw [if_neg ended] at rest ⊢
      obtain ⟨⟨results, after, last⟩, later, same⟩ := Option.map_eq_some_iff.mp rest
      cases same
      cases taken with
      | cons first taken =>
        rw [first opts, Option.bind_some, ih later taken, List.foldl_cons]

theorem taken_of_answered {replies : List Reply} {results : List (Int × GetoptData)}
    {found : List Found}
    (answers : List.Forall₂ (fun reply result =>
      reply.Answered (bytes "h:p:d:t:") result.1 result.2) replies results)
    (same : replies.map Reply.found = found.map some) :
    List.Forall₂ (fun found result => ∀ opts : ServerOptions,
      opts.switch result.1 result.2.optarg = some (opts.set found)) found results := by
  induction answers generalizing found with
  | nil =>
    obtain rfl : found = [] := by simpa using same
    exact .nil
  | cons answer answers ih =>
    cases found with
    | nil => simp at same
    | cons first found =>
      rw [List.map_cons, List.map_cons] at same
      obtain ⟨head, tail⟩ := List.cons.inj same
      exact .cons (switch_found answer head) (ih tail)

/-- The loop ends after the results of the scan, with the options of `parse`. -/
theorem parseLoop_parse (getenv : Bool) (program : CString) (words : List CString)
    (opts : ServerOptions) {calls : Nat} (enough : (getopt getenv words).length < calls) :
    let said := scan (bytes "h:p:d:t:") (orderingOf getenv (bytes "h:p:d:t:")) words
    ∃ last, parseLoop getenv calls (program :: words) {} opts =
        some (parse getenv words opts, program :: (said.consumed ++ said.operands), last) ∧
      last.optind = said.consumed.length + 1 := by
  have noLong : ¬ HasLong (lettersOf (bytes "h:p:d:t:")) := by
    unfold HasLong
    decide
  have noMinusOne : 255 ∉ bytes "h:p:d:t:" := by decide
  have same := scan_found getenv words
  have length := congrArg List.length same
  rw [List.length_map, List.length_map] at length
  rw [← length] at enough
  obtain ⟨results, last, returned, answers, place⟩ :=
    getoptCalls_call noLong noMinusOne (getoptA_first program getenv noLong noMinusOne words) enough
  exact ⟨last, parseLoop_calls returned (taken_of_answered answers same) opts, place⟩

/-- For every command line the loop of `cmd::parse` ends with the options of
`parse`, without a read outside of `argv` or of an argument that is not there. It
leaves every word in `argv`, with `optind` at the first that went into no option. -/
theorem parseLoop_refines (getenv : Bool) (program : CString) (words : List CString)
    (opts : ServerOptions) :
    ∃ consumed operands, (consumed ++ operands).Perm words ∧ consumed.Sublist words ∧
      operands.Sublist words ∧
      ∀ calls, (getopt getenv words).length < calls →
        ∃ last, parseLoop getenv calls (program :: words) {} opts =
            some (parse getenv words opts, program :: (consumed ++ operands), last) ∧
          last.optind = consumed.length + 1 := by
  have splits : (scan (bytes "h:p:d:t:") (orderingOf getenv (bytes "h:p:d:t:")) words).Splits
      words := scan_splits words
  refine ⟨_, _, splits.all, splits.consumed, splits.operands, ?_⟩
  intro calls enough
  exact parseLoop_parse getenv program words opts enough

end MailruHttp.Cmd
