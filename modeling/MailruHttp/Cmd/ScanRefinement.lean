import Mathlib.Data.List.TakeWhile
import MailruHttp.Cmd.Scan

/-! The calls of `getopt` against the scan of the command line: what each call
returns, and where the words stand between two calls. -/

namespace MailruHttp.Cmd

open Library

/-- Where the words stand between two calls: consumed words already in front,
words left over, words consumed since these were last moved, words to come. -/
structure Position where
  front : List CString
  operands : List CString
  since : List CString
  rest : List CString

namespace Position

variable (p : Position) (program : CString) (d : GetoptData)

def argv : List CString := program :: (p.front ++ p.operands ++ p.since ++ p.rest)

/-- The places of `__first_nonopt`, `__last_nonopt` and `optind`. -/
def data : GetoptData := { d with
  firstNonopt := p.front.length + 1
  lastNonopt := (p.front ++ p.operands).length + 1
  optind := (p.front ++ p.operands ++ p.since).length + 1 }

/-- More words consumed. -/
def advance (consumed rest : List CString) : Position :=
  { p with since := p.since ++ consumed, rest }

/-- The consumed words moved to the front. -/
def settle : Position := ⟨p.front ++ p.since, p.operands, [], p.rest⟩

/-- The whole scan, from what is still to come. -/
def total (scan : Scan) : Scan := (scan.passing p.operands).after [] (p.front ++ p.since)

theorem argv_advance {consumed rest : List CString} (split : p.rest = consumed ++ rest) :
    (p.advance consumed rest).argv program = p.argv program := by
  simp [argv, advance, split]

theorem data_advance (consumed rest : List CString) :
    (p.advance consumed rest).data d =
      { p.data d with optind := (p.data d).optind + consumed.length } := by
  simp only [data, advance, List.length_append, GetoptData.mk.injEq, and_true]
  omega

theorem total_advance (consumed rest : List CString) (replies : List Reply) (scan : Scan) :
    p.total (scan.after replies consumed) = ((p.advance consumed rest).total scan).after replies [] := by
  simp [total, advance, Scan.after, Scan.passing]

theorem total_after (replies : List Reply) (scan : Scan) :
    p.total (scan.after replies []) = (p.total scan).after replies [] := by
  simp [total, Scan.after, Scan.passing]

theorem getElem_argv : (p.argv program)[(p.data d).optind]? = p.rest.head? := by
  rw [argv, data, List.getElem?_cons_succ, List.getElem?_append_right (Nat.le_refl _),
    Nat.sub_self, List.head?_eq_getElem?]

theorem drop_argv : (p.argv program).drop (p.data d).optind = p.rest := by
  rw [argv, data, List.drop_succ_cons, List.drop_left]

theorem at_end_iff : (p.data d).optind = (p.argv program).length ↔ p.rest = [] := by
  rw [← List.length_eq_zero_iff]
  simp only [data, argv, List.length_cons, List.length_append]
  omega

theorem exchange_data :
    exchange (p.argv program) (p.data d) =
      some (p.settle.argv program, { p.data d with
        firstNonopt := (p.front ++ p.since).length + 1
        lastNonopt := (p.data d).optind }) := by
  have moved := exchangeBlocks_append (program :: p.front) p.operands p.since p.rest
  have places : exchangeBlocks (p.data d).firstNonopt (p.data d).lastNonopt (p.data d).optind
      (p.argv program) = some (p.settle.argv program) := by
    simp only [data, argv, settle, List.length_append, List.length_cons, List.append_nil,
      List.cons_append, Nat.add_right_comm _ 1] at moved ⊢
    exact moved
  have distance : (p.data d).firstNonopt + ((p.data d).optind - (p.data d).lastNonopt) =
      (p.front ++ p.since).length + 1 := by
    simp only [data, List.length_append]
    omega
  rw [exchange, places, Option.map_some, distance]

/-- A call settles the words and passes over those that are no options. -/
def pass : Position where
  front := p.front ++ p.since
  operands := p.operands ++ p.rest.takeWhile fun word => !word.isOption
  since := []
  rest := p.rest.dropWhile fun word => !word.isOption

theorem argv_pass : p.pass.argv program = p.settle.argv program := by
  simp only [argv, pass, settle, List.append_nil, List.append_assoc, List.takeWhile_append_dropWhile]

theorem data_pass : p.pass.data d = { p.data d with
    firstNonopt := (p.front ++ p.since).length + 1
    lastNonopt := (p.data d).optind + (p.rest.takeWhile fun word => !word.isOption).length
    optind := (p.data d).optind + (p.rest.takeWhile fun word => !word.isOption).length } := by
  simp only [data, pass, List.length_append, List.append_nil, GetoptData.mk.injEq, true_and]
  omega

theorem total_pass (optstring : List UInt8) :
    p.pass.total (scan optstring .permute p.pass.rest) = p.total (scan optstring .permute p.rest) := by
  have passed : scan optstring .permute
      ((p.rest.takeWhile fun word => !word.isOption) ++ p.pass.rest) = _ :=
    scan_passed _ _ fun word member => by simpa using List.mem_takeWhile_imp member
  rw [pass, List.takeWhile_append_dropWhile] at passed
  simp [total, pass, passed, Scan.after, Scan.passing]

theorem first_eq_last_iff : (p.data d).firstNonopt = (p.data d).lastNonopt ↔ p.operands = [] := by
  rw [← List.length_eq_zero_iff]
  simp only [data, List.length_append]
  omega

theorem last_eq_optind_iff : (p.data d).lastNonopt = (p.data d).optind ↔ p.since = [] := by
  rw [← List.length_eq_zero_iff]
  simp only [data, List.length_append]
  omega

theorem data_clamp : clampNonoptions (p.data d) = p.data d := by
  have last : (p.data d).lastNonopt ≤ (p.data d).optind := by
    simp only [data, List.length_append]
    omega
  have first : (p.data d).firstNonopt ≤ (p.data d).optind := by
    simp only [data, List.length_append]
    omega
  rw [clampNonoptions, Nat.min_eq_left last, Nat.min_eq_left first]

theorem settle_argv (still : p.operands = [] ∨ p.since = []) :
    p.settle.argv program = p.argv program := by
  rcases still with empty | empty <;> simp [argv, settle, empty]

theorem passNonoptions_data :
    passNonoptions (p.argv program) (p.data d) = some (p.pass.argv program, p.pass.data d) := by
  have moved : ∃ last,
      (if (p.data d).firstNonopt ≠ (p.data d).lastNonopt ∧
            (p.data d).lastNonopt ≠ (p.data d).optind then exchange (p.argv program) (p.data d)
        else if (p.data d).lastNonopt ≠ (p.data d).optind then
          some (p.argv program, { p.data d with firstNonopt := (p.data d).optind })
        else some (p.argv program, p.data d)) =
      some (p.settle.argv program, { p.data d with
        firstNonopt := (p.front ++ p.since).length + 1
        lastNonopt := last }) := by
    simp only [ne_eq, first_eq_last_iff, last_eq_optind_iff]
    by_cases still : p.since = []
    · have first : (p.front ++ p.since).length + 1 = (p.data d).firstNonopt := by simp [data, still]
      rw [if_neg (by simp [still]), if_neg (by simp [still]), settle_argv _ _ (.inr still), first]
      exact ⟨(p.data d).lastNonopt, rfl⟩
    · by_cases none : p.operands = []
      · have first : (p.front ++ p.since).length + 1 = (p.data d).optind := by simp [data, none]
        rw [if_neg (by simp [none]), if_pos still, settle_argv _ _ (.inl none), first]
        exact ⟨(p.data d).lastNonopt, rfl⟩
      · rw [if_pos ⟨none, still⟩, exchange_data]
        exact ⟨_, rfl⟩
  have remaining : (p.settle.argv program).drop (p.data d).optind = p.rest := by
    have length : (p.data d).optind = (p.settle.data d).optind := by
      simp only [data, settle, List.length_append, List.length_nil]
      omega
    rw [length]
    exact drop_argv p.settle program d
  obtain ⟨last, moved⟩ := moved
  rw [passNonoptions, moved, Option.map_some, argv_pass, data_pass]
  dsimp only
  rw [remaining]

/-- A `--` is consumed, and nothing after it. -/
theorem stopAtDashes_data {word : CString} {rest : List CString} (next : p.rest = word :: rest) :
    stopAtDashes (p.argv program) (p.data d) =
      if word.text = bytes "--" then
        some ((p.advance [word] rest).settle.argv program, { p.data d with
          firstNonopt := (p.front ++ p.since ++ [word]).length + 1
          lastNonopt := (p.argv program).length
          optind := (p.argv program).length })
      else some (p.argv program, p.data d) := by
  have split : p.rest = [word] ++ rest := next
  have more : ¬ (p.data d).optind = (p.argv program).length := by
    rw [at_end_iff, next]
    exact List.cons_ne_nil word rest
  rw [stopAtDashes, if_neg more, getElem_argv, next, List.head?_cons, Option.bind_some]
  by_cases dashes : word.text = bytes "--"
  · have advanced := p.data_advance d [word] rest
    rw [List.length_singleton] at advanced
    rw [if_pos dashes, if_pos dashes, ← advanced, ← p.argv_advance program split]
    have moved : (p.advance [word] rest).since ≠ [] := by simp [advance]
    have apart : (p.advance [word] rest).operands = p.operands := rfl
    have length : ((p.advance [word] rest).settle.argv program).length =
        ((p.advance [word] rest).argv program).length := by
      simp only [argv, settle, List.length_cons, List.length_append, List.length_nil]
      omega
    have place : (p.advance [word] rest).front ++ (p.advance [word] rest).since =
        p.front ++ p.since ++ [word] := by simp [advance]
    simp only [ne_eq, first_eq_last_iff, last_eq_optind_iff, apart, moved, not_false_eq_true,
      and_true]
    by_cases none : p.operands = []
    · have first : ((p.advance [word] rest).data d).optind =
          (p.front ++ p.since ++ [word]).length + 1 := by
        simp [data, advance, none]
      rw [if_neg (by simpa using none), if_pos none, Option.map_some, first,
        settle_argv (p.advance [word] rest) program (.inl none)]
      rfl
    · rw [if_pos none, exchange_data, Option.map_some, length, place]
      rfl
  · rw [if_neg dashes, if_neg dashes]

end Position

section

variable {optstring : List UInt8} {ordering : EnumOrdering} {program : CString}
  {argv : List CString} {d : GetoptData} {letters : CString} {c : UInt8} {more : List UInt8}

/-- A `W;` in `optstring`, for which `-W` is a long option. -/
def HasLong (optstring : List UInt8) : Prop :=
  (optstring.dropWhile (· != byte 'W'))[1]? = some (byte ';')

/-- What one letter comes to, by the argument that `optstring` gives it. -/
theorem takeLetter_eq (noLong : ¬ HasLong optstring)
    (nextchar : d.nextchar = some letters) (head : letters.text = c :: more) :
    takeLetter optstring argv d =
      let d := { d with
        nextchar := some (letters.drop 1)
        optind := if more = [] then d.optind + 1 else d.optind }
      match parameterOf optstring c with
      | none => some (charToInt (byte '?'), { d with optopt := c })
      | some .no => some (charToInt c, d)
      | some .optional =>
        if more ≠ [] then
          some (charToInt c,
            { d with optarg := some (letters.drop 1), optind := d.optind + 1, nextchar := none })
        else some (charToInt c, { d with optarg := none, nextchar := none })
      | some .required =>
        if more ≠ [] then
          some (charToInt c,
            { d with optarg := some (letters.drop 1), optind := d.optind + 1, nextchar := none })
        else if d.optind = argv.length then
          some (charToInt (if optstring.head? = some (byte ':') then byte ':' else byte '?'),
            { d with optopt := c, nextchar := none })
        else argv[d.optind]?.map fun optarg =>
          (charToInt c, { d with optarg := some optarg, optind := d.optind + 1, nextchar := none }) := by
  have rest : (letters.drop 1).text = more := congrArg (List.drop 1) head
  rw [takeLetter, nextchar, Option.bind_some, head, List.head?_cons, Option.bind_some]
  simp only [rest]
  unfold parameterOf
  by_cases sign : c = byte ':' ∨ c = byte ';'
  · rw [if_pos (.inr sign), if_pos sign]
  rw [if_neg sign]
  cases temp : optstring.dropWhile (· != c) with
  | nil => rw [if_pos (.inl rfl)]
  | cons t colons =>
    have short : ¬ (c = byte 'W' ∧ (t :: colons)[1]? = some (byte ';')) := by
      rintro ⟨rfl, long⟩
      rw [← temp] at long
      exact noLong long
    have known : ¬ (t :: colons = [] ∨ c = byte ':' ∨ c = byte ';') := by
      simpa using sign
    rw [if_neg known, if_neg short, List.getElem?_cons_succ, List.getElem?_cons_succ]
    dsimp only
    by_cases colon : colons[0]? = some (byte ':')
    · by_cases second : colons[1]? = some (byte ':')
      · rw [if_pos colon, if_pos colon, if_pos second, if_pos second]
      · rw [if_pos colon, if_pos colon, if_neg second, if_neg second]
    · rw [if_neg colon, if_neg colon]

theorem mem_of_parameterOf {parameter : Parameter} (known : parameterOf optstring c = some parameter) :
    c ∈ optstring := by
  unfold parameterOf at known
  split at known
  · contradiction
  · split at known
    · contradiction
    · rename_i t colons temp
      have reached : ¬ (t != c) = true := by
        have head := List.head?_dropWhile_not (· != c) optstring
        rw [temp] at head
        simpa using head
      obtain rfl : t = c := by simpa using reached
      exact (List.dropWhile_sublist _).subset (temp ▸ List.mem_cons_self)

theorem charToInt_ne {parameter : Parameter} (noMinusOne : 255 ∉ optstring)
    (known : parameterOf optstring c = some parameter) : charToInt c ≠ -1 := by
  intro minusOne
  have same : c.toInt8 = -1 := Int8.toInt_inj.mp minusOne
  apply noMinusOne
  rw [show (255 : UInt8) = c from (congrArg Int8.toUInt8 same).symm]
  exact mem_of_parameterOf known

/-- What a call leaves for its caller. -/
def Reply.Answered (optstring : List UInt8) (result : Int) (d : GetoptData) : Reply → Prop
  | .option c optarg => result = charToInt c ∧ d.optarg = optarg
  | .invalid c => result = charToInt (byte '?') ∧ d.optopt = c
  | .missing c =>
    result = charToInt (if optstring.head? = some (byte ':') then byte ':' else byte '?') ∧
      d.optopt = c
  | .operand word => result = 1 ∧ d.optarg = some word

/-- What is still to be scanned: words, or first the letters left of one. -/
inductive Pending (optstring : List UInt8) (ordering : EnumOrdering) :
    Option CString → List CString → Scan → Prop where
  | words {nextchar : Option CString} {rest : List CString}
      (finished : ∀ letters ∈ nextchar, letters.text = []) :
      Pending optstring ordering nextchar rest (scan optstring ordering rest)
  | letters {letters word : CString} {rest : List CString} (unread : letters.text ≠ []) :
      Pending optstring ordering (some letters) (word :: rest)
        (resume optstring ordering letters word rest)

/-- Between two calls: the whole scan, without the results returned so far. Words
are moved only where the ordering is `PERMUTE`. -/
inductive Ahead (optstring : List UInt8) (ordering : EnumOrdering) (program : CString) :
    List CString → GetoptData → Scan → Prop where
  | between (p : Position) (d : GetoptData) {pending : Scan} (started : d.initialized = true)
      (ordered : d.ordering = ordering)
      (inOrder : ordering = .permute ∨ p.front = [] ∧ p.operands = [])
      (future : Pending optstring ordering d.nextchar p.rest pending) :
      Ahead optstring ordering program (p.argv program) (p.data d) (p.total pending)

/-- One call: the next result of the scan, or at its end -1, with the words of the
command line in their places. -/
inductive Call (optstring : List UInt8) (ordering : EnumOrdering) (program : CString) :
    Scan → Option (Int × List CString × GetoptData) → Prop where
  | finished {consumed operands : List CString} {d : GetoptData}
      (place : d.optind = consumed.length + 1) :
      Call optstring ordering program ⟨[], consumed, operands⟩
        (some (-1, program :: (consumed ++ operands), d))
  | answered {reply : Reply} {result : Int} {argv : List CString} {d : GetoptData} {scan : Scan}
      (answer : reply.Answered optstring result d) (goesOn : result ≠ -1)
      (ahead : Ahead optstring ordering program argv d scan) :
      Call optstring ordering program (scan.after [reply] []) (some (result, argv, d))

section

variable {p : Position} {word : CString} {rest : List CString}

/-- The words of a result are consumed. -/
theorem ahead_consumed (d : GetoptData) {consumed : List CString} (split : p.rest = consumed ++ rest)
    (started : d.initialized = true) (ordered : d.ordering = ordering)
    (inOrder : ordering = .permute ∨ p.front = [] ∧ p.operands = [])
    (finished : ∀ letters ∈ d.nextchar, letters.text = []) :
    Ahead optstring ordering program (p.argv program)
      { p.data d with optind := (p.data d).optind + consumed.length }
      ((p.advance consumed rest).total (scan optstring ordering rest)) := by
  rw [← p.argv_advance program split, ← p.data_advance d consumed rest]
  exact .between _ d started ordered inOrder (.words finished)

/-- The letters of a word go on, or they end and it is consumed. -/
theorem ahead_letters (d : GetoptData) (inWord : p.rest = word :: rest) (started : d.initialized = true)
    (ordered : d.ordering = ordering)
    (inOrder : ordering = .permute ∨ p.front = [] ∧ p.operands = [])
    (nextchar : d.nextchar = some letters) :
    Ahead optstring ordering program (p.argv program)
      { p.data d with
        optind := if letters.text = [] then (p.data d).optind + 1 else (p.data d).optind }
      (p.total (resume optstring ordering letters word rest)) := by
  by_cases finished : letters.text = []
  · have split : p.rest = [word] ++ rest := inWord
    rw [if_pos finished, resume_read rest (letters_finished finished), p.total_advance [word] rest]
    apply ahead_consumed _ split started ordered inOrder
    rw [nextchar]
    rintro _ ⟨⟩
    exact finished
  · rw [if_neg finished]
    apply Ahead.between p d started ordered inOrder
    rw [nextchar, inWord]
    exact .letters finished

/-- One letter of a word. -/
theorem takeLetter_call (d : GetoptData) (noLong : ¬ HasLong optstring) (noMinusOne : 255 ∉ optstring)
    (inWord : p.rest = word :: rest) (started : d.initialized = true)
    (ordered : d.ordering = ordering)
    (inOrder : ordering = .permute ∨ p.front = [] ∧ p.operands = []) (fresh : d.optarg = none)
    (nextchar : d.nextchar = some letters) (unread : letters.text ≠ []) :
    Call optstring ordering program (p.total (resume optstring ordering letters word rest))
      ((takeLetter optstring (p.argv program) (p.data d)).map fun (result, d) =>
        (result, p.argv program, d)) := by
  obtain ⟨c, more, head⟩ := List.exists_cons_of_ne_nil unread
  have dropped : (letters.drop 1).text = more := congrArg (List.drop 1) head
  have split : p.rest = [word] ++ rest := inWord
  have left : (p.data d).nextchar = some letters := nextchar
  rw [takeLetter_eq noLong left head]
  cases known : parameterOf optstring c with
  | none =>
    rw [resume_letter rest (letters_invalid head known), p.total_after, ← dropped]
    refine Call.answered ?_ (by decide) ?_
    · exact ⟨rfl, rfl⟩
    · exact ahead_letters { d with nextchar := some (letters.drop 1), optopt := c } inWord started
        ordered inOrder rfl
  | some parameter =>
    have goesOn := charToInt_ne noMinusOne known
    cases parameter with
    | no =>
      rw [resume_letter rest (letters_no head known), p.total_after, ← dropped]
      refine Call.answered ?_ goesOn ?_
      · exact ⟨rfl, fresh⟩
      · exact ahead_letters { d with nextchar := some (letters.drop 1) } inWord started ordered
          inOrder rfl
    | optional =>
      rw [resume_read rest (letters_optional head known), p.total_advance [word] rest]
      by_cases last : more = []
      · simp only [last, ↓reduceIte, ne_eq, not_true_eq_false, Option.map_some]
        refine Call.answered ?_ goesOn ?_
        · exact ⟨rfl, rfl⟩
        · exact ahead_consumed { d with nextchar := none, optarg := none } split started ordered
            inOrder (by simp)
      · simp only [last, ↓reduceIte, ne_eq, not_false_eq_true, Option.map_some]
        refine Call.answered ?_ goesOn ?_
        · exact ⟨rfl, rfl⟩
        · exact ahead_consumed { d with nextchar := none, optarg := some (letters.drop 1) } split
            started ordered inOrder (by simp)
    | required =>
      by_cases last : more = []
      · have waiting := letters_required head known
        rw [if_pos last] at waiting
        simp only [last, ↓reduceIte, ne_eq, not_true_eq_false]
        have next := (p.advance [word] rest).getElem_argv program d
        have ended := (p.advance [word] rest).at_end_iff program d
        rw [p.argv_advance program split, p.data_advance] at next ended
        dsimp only [List.length_singleton] at next ended
        cases rest with
        | nil =>
          rw [if_pos (ended.mpr rfl), Option.map_some, resume_missing waiting]
          change Call optstring ordering program
            (p.total ((scan optstring ordering []).after [.missing c] [word])) _
          rw [p.total_advance [word] []]
          have goesOn : charToInt
              (if optstring.head? = some (byte ':') then byte ':' else byte '?') ≠ -1 := by
            split <;> decide
          refine Call.answered ?_ goesOn ?_
          · exact ⟨rfl, rfl⟩
          · exact ahead_consumed { d with nextchar := none, optopt := c } split started ordered
              inOrder (by simp)
        | cons optarg rest =>
          have both : p.rest = [word, optarg] ++ rest := inWord
          rw [if_neg (fun atEnd => by simpa [Position.advance] using ended.mp atEnd), next,
            resume_argument rest waiting, p.total_advance [word, optarg] rest]
          refine Call.answered ?_ goesOn ?_
          · exact ⟨rfl, rfl⟩
          · exact ahead_consumed { d with nextchar := none, optarg := some optarg } both started
              ordered inOrder (by simp)
      · have attached := letters_required head known
        rw [if_neg last] at attached
        rw [resume_read rest attached, p.total_advance [word] rest]
        simp only [last, ↓reduceIte, ne_eq, not_false_eq_true, Option.map_some]
        refine Call.answered ?_ goesOn ?_
        · exact ⟨rfl, rfl⟩
        · exact ahead_consumed { d with nextchar := none, optarg := some (letters.drop 1) } split
            started ordered inOrder (by simp)

/-- The end of the options, at `optind` or where the words left over start. -/
theorem enterWord_end (atEnd : d.optind = argv.length) :
    enterWord argv d = some (some (-1), { d with
      optind := if d.firstNonopt = d.lastNonopt then d.optind else d.firstNonopt }) := by
  rw [enterWord, if_pos atEnd]
  by_cases same : d.firstNonopt = d.lastNonopt
  · rw [if_neg (not_not_intro same), if_pos same]
  · rw [if_pos same, if_neg same]

/-- The words left over are behind all consumed ones, and the next word is not to
be passed over. -/
structure Settled (ordering : EnumOrdering) (p : Position) : Prop where
  behind : p.operands = [] ∨ p.since = []
  inOrder : ordering = .permute ∨ p.front = [] ∧ p.operands = []
  next : ordering = .permute → ∀ word ∈ p.rest.head?, word.isOption = true

/-- The end of the command line, or of its options, where `optind` is that of the
first word left over. -/
theorem finished_call (behind : p.operands = [] ∨ p.since = []) (operands : List CString)
    (left : p.rest = operands) (place : d.optind = (p.front ++ p.since).length + 1) :
    Call optstring ordering program (p.total ⟨[], [], operands⟩)
      (some (-1, p.argv program, d)) := by
  have words : p.argv program =
      program :: ((p.front ++ p.since ++ []) ++ (p.operands ++ operands)) := by
    rw [← p.settle_argv program behind, Position.argv, Position.settle, left]
    simp only [List.append_nil, List.append_assoc]
  rw [words]
  exact .finished (by simpa [Scan.passing] using place)

/-- No word is left. -/
theorem end_call (settled : Settled ordering p) (none : p.rest = []) :
    Call optstring ordering program (p.total (scan optstring ordering p.rest))
      (readWord optstring (p.argv program) (p.data d)) := by
  have atEnd := (p.at_end_iff program d).mpr none
  rw [readWord, enterWord_end atEnd, Option.bind_some, none]
  apply finished_call settled.behind [] none
  rcases settled.behind with empty | still
  · simp [empty, Position.data]
  · by_cases empty : p.operands = [] <;>
      simp [empty, still, Position.data]

/-- A `--` is next; `d` is what `stopAtDashes` leaves. -/
theorem dashes_call (next : p.rest = word :: rest) (dashes : word.text = bytes "--")
    (first : d.firstNonopt = (p.front ++ p.since ++ [word]).length + 1)
    (last : d.lastNonopt = (p.argv program).length)
    (atEnd : d.optind = (p.argv program).length) :
    Call optstring ordering program (p.total (scan optstring ordering p.rest))
      (readWord optstring ((p.advance [word] rest).settle.argv program) d) := by
  have split : p.rest = [word] ++ rest := next
  have length : ((p.advance [word] rest).settle.argv program).length = (p.argv program).length := by
    rw [← p.argv_advance program split]
    simp only [Position.argv, Position.settle, List.length_cons, List.length_append,
      List.length_nil]
    omega
  have total : p.total ⟨[], [word], rest⟩ =
      (p.advance [word] rest).settle.total ⟨[], [], rest⟩ := by
    simp [Position.total, Position.advance, Position.settle, Scan.after, Scan.passing]
  rw [readWord, enterWord_end (atEnd.trans length.symm), Option.bind_some, next,
    scan_dashes rest dashes, total]
  apply finished_call (.inr rfl) rest rfl
  have place : d.optind = d.lastNonopt := atEnd.trans last.symm
  have front : (p.advance [word] rest).settle.front ++ (p.advance [word] rest).settle.since =
      p.front ++ p.since ++ [word] := by
    simp [Position.advance, Position.settle]
  rw [front, ← first]
  dsimp only
  split
  · rename_i same
    exact place.trans same.symm
  · rfl

/-- An option is next. -/
theorem option_call (noLong : ¬ HasLong optstring) (noMinusOne : 255 ∉ optstring)
    (started : d.initialized = true) (ordered : d.ordering = ordering) (fresh : d.optarg = none)
    (inOrder : ordering = .permute ∨ p.front = [] ∧ p.operands = [])
    (next : p.rest = word :: rest) (other : word.text ≠ bytes "--")
    (valid : word.isOption = true) :
    Call optstring ordering program (p.total (scan optstring ordering p.rest))
      (readWord optstring (p.argv program) (p.data d)) := by
  have more : ¬ (p.data d).optind = (p.argv program).length := by
    rw [p.at_end_iff, next]
    exact List.cons_ne_nil word rest
  have unread : (word.drop 1).text ≠ [] := by
    have long : 2 ≤ word.text.length := by
      rw [CString.isOption, Bool.and_eq_true] at valid
      exact of_decide_eq_true valid.2
    apply List.ne_nil_of_length_pos
    rw [CString.drop, List.length_drop]
    omega
  rw [readWord, enterWord, if_neg more, p.getElem_argv, next, List.head?_cons, Option.map_some,
    Option.bind_some, if_pos valid, scan_option rest other valid]
  exact takeLetter_call { d with nextchar := some (word.drop 1) } noLong noMinusOne next
    started ordered inOrder fresh rfl unread

/-- A word that is no option is next, and is not passed over. -/
theorem nonoption_call (started : d.initialized = true) (ordered : d.ordering = ordering)
    (finished : ∀ letters ∈ d.nextchar, letters.text = []) (settled : Settled ordering p)
    (next : p.rest = word :: rest) (valid : ¬ word.isOption = true) :
    Call optstring ordering program (p.total (scan optstring ordering p.rest))
      (readWord optstring (p.argv program) (p.data d)) := by
  have more : ¬ (p.data d).optind = (p.argv program).length := by
    rw [p.at_end_iff, next]
    exact List.cons_ne_nil word rest
  have current : (p.data d).ordering = ordering := ordered
  rw [readWord, enterWord, if_neg more, p.getElem_argv, next, List.head?_cons, Option.map_some,
    Option.bind_some, if_neg valid]
  cases kind : ordering with
  | permute =>
    have option := settled.next kind word (by rw [next, List.head?_cons]; rfl)
    exact absurd option valid
  | requireOrder =>
    have inOrder : p.front = [] ∧ p.operands = [] := by
      simpa [kind] using settled.inOrder
    rw [if_pos (current.trans kind), scan_requireOrder rest valid]
    apply finished_call settled.behind (word :: rest) next
    simp [Position.data, inOrder]
  | returnInOrder =>
    have split : p.rest = [word] ++ rest := next
    have returned : ¬ (p.data d).ordering = .requireOrder := by
      rw [current, kind]
      exact EnumOrdering.noConfusion
    rw [if_neg returned, scan_returnInOrder rest valid, p.total_advance [word] rest]
    refine Call.answered ?_ (by decide) ?_
    · exact ⟨rfl, rfl⟩
    · exact ahead_consumed { d with optarg := some word } split started (ordered.trans kind)
        (kind ▸ settled.inOrder) finished

/-- The end of a call that has come to the next word. -/
theorem readWord_call (noLong : ¬ HasLong optstring) (noMinusOne : 255 ∉ optstring)
    (started : d.initialized = true) (ordered : d.ordering = ordering) (fresh : d.optarg = none)
    (finished : ∀ letters ∈ d.nextchar, letters.text = []) (settled : Settled ordering p) :
    Call optstring ordering program (p.total (scan optstring ordering p.rest))
      ((stopAtDashes (p.argv program) (p.data d)).bind fun (argv, d) =>
        readWord optstring argv d) := by
  cases next : p.rest with
  | nil =>
    have atEnd := (p.at_end_iff program d).mpr next
    rw [stopAtDashes, if_pos atEnd, Option.bind_some, ← next]
    exact end_call settled next
  | cons word rest =>
    rw [p.stopAtDashes_data program d next, ← next]
    by_cases dashes : word.text = bytes "--"
    · rw [if_pos dashes, Option.bind_some]
      exact dashes_call next dashes rfl rfl rfl
    rw [if_neg dashes, Option.bind_some]
    by_cases valid : word.isOption = true
    · exact option_call noLong noMinusOne started ordered fresh settled.inOrder next dashes
        valid
    · exact nonoption_call started ordered finished settled next valid

theorem settled_pass (current : ordering = .permute) : Settled ordering p.pass where
  behind := .inr rfl
  inOrder := .inl current
  next _ word first := by
    have stopped := List.head?_dropWhile_not (fun word => !word.isOption) p.rest
    have head : (p.rest.dropWhile fun word => !word.isOption).head? = some word := first
    rw [head] at stopped
    simpa using stopped

/-- A call between two others, whichever letters are left. -/
theorem continueCall_call (noLong : ¬ HasLong optstring) (noMinusOne : 255 ∉ optstring)
    {total : Scan} (ahead : Ahead optstring ordering program argv d total) :
    Call optstring ordering program total (continueCall optstring argv { d with optarg := none }) := by
  obtain ⟨p, d, started, ordered, inOrder, future⟩ := ahead
  generalize inWord : p.rest = words at future
  generalize left : d.nextchar = nextchar at future
  unfold continueCall
  cases future with
  | letters unread =>
    rename_i letters word rest
    have unfinished : ¬ ((p.data d).nextchar.all fun nextchar => nextchar.text = []) = true := by
      simpa [Position.data, left] using unread
    rw [if_neg unfinished]
    exact takeLetter_call { d with optarg := none } noLong noMinusOne inWord started ordered
      inOrder rfl left unread
  | words finished =>
    have through : ((p.data d).nextchar.all fun nextchar => nextchar.text = []) = true := by
      rw [Option.all_eq_true]
      intro letters found
      exact decide_eq_true (finished letters (left ▸ found))
    rw [if_pos through]
    have clamped : clampNonoptions { p.data d with optarg := none } =
        p.data { d with optarg := none } := p.data_clamp { d with optarg := none }
    have current : (p.data { d with optarg := none }).ordering = ordering := ordered
    have still : ∀ letters ∈ d.nextchar, letters.text = [] := fun letters found =>
      finished letters (left ▸ found)
    rw [clamped, ← inWord]
    dsimp only
    rw [current]
    by_cases permuting : ordering = .permute
    · rw [if_pos permuting, p.passNonoptions_data, Option.bind_some]
      subst permuting
      rw [← p.total_pass]
      exact readWord_call noLong noMinusOne started ordered rfl still (settled_pass rfl)
    · rw [if_neg permuting, Option.bind_some]
      have inPlace := inOrder.resolve_left permuting
      have settled : Settled ordering p :=
        ⟨.inl inPlace.2, .inr inPlace, fun permute => absurd permute permuting⟩
      exact readWord_call noLong noMinusOne started ordered rfl still settled

end

end

/-- The ordering that the first call sets. -/
def orderingOf (getenv : Bool) (optstring : List UInt8) : EnumOrdering :=
  if optstring.head? = some (byte '-') then .returnInOrder
  else if optstring.head? = some (byte '+') then .requireOrder
  else if getenv then .requireOrder
  else .permute

/-- `optstring` without the mark of the ordering. -/
def lettersOf (optstring : List UInt8) : List UInt8 :=
  if optstring.head? = some (byte '-') ∨ optstring.head? = some (byte '+') then optstring.tail
  else optstring

section

variable {optstring : List UInt8} {program : CString} {argv : List CString} {d : GetoptData}

theorem enterCall_later (getenv : Bool) (optstring : List UInt8) (placed : d.optind ≠ 0)
    (started : d.initialized = true) :
    enterCall getenv optstring d false = (lettersOf optstring, { d with optarg := none }) := by
  rw [enterCall, lettersOf]
  simp only [placed, started, Bool.true_eq_false, or_self, ↓reduceIte]
  split <;> rfl

/-- The data that the first call starts from. -/
def startData (getenv : Bool) (ordering : EnumOrdering) : GetoptData where
  initialized := true
  ordering := ordering
  posixlyCorrect := getenv
  firstNonopt := 1
  lastNonopt := 1

theorem enterCall_first (getenv : Bool) (optstring : List UInt8) :
    enterCall getenv optstring {} false =
      (lettersOf optstring, startData getenv (orderingOf getenv optstring)) := by
  rw [enterCall, if_pos (.inr rfl), lettersOf, orderingOf]
  unfold getoptInitialize startData
  by_cases minus : optstring.head? = some (byte '-')
  · simp [minus]
  by_cases plus : optstring.head? = some (byte '+')
  · have other : byte '+' ≠ byte '-' := by decide
    simp [plus, other]
  cases getenv <;> simp [minus, plus]

theorem lettersOf_subset : ∀ c ∈ lettersOf optstring, c ∈ optstring := by
  intro c member
  unfold lettersOf at member
  split at member
  · exact List.mem_of_mem_tail member
  · exact member

variable {ordering : EnumOrdering} {total : Scan} {getenv : Bool}

theorem getoptA_later (getenv : Bool) (noLong : ¬ HasLong (lettersOf optstring)) (noMinusOne : 255 ∉ optstring)
    (ahead : Ahead (lettersOf optstring) ordering program argv d total) :
    Call (lettersOf optstring) ordering program total (getoptA getenv argv optstring d) := by
  have call := continueCall_call noLong
    (fun member => noMinusOne (lettersOf_subset _ member)) ahead
  obtain ⟨p, d, started, ordered, inOrder, future⟩ := ahead
  have nonempty : p.argv program ≠ [] := List.cons_ne_nil _ _
  have placed : (p.data d).optind ≠ 0 := Nat.succ_ne_zero _
  rw [getoptA, getoptInternal, if_neg nonempty, enterCall_later getenv optstring placed started]
  exact call

theorem getoptA_first (program : CString) (getenv : Bool) (noLong : ¬ HasLong (lettersOf optstring))
    (noMinusOne : 255 ∉ optstring) (words : List CString) :
    Call (lettersOf optstring) (orderingOf getenv optstring) program
      (scan (lettersOf optstring) (orderingOf getenv optstring) words)
      (getoptA getenv (program :: words) optstring {}) := by
  rw [getoptA, getoptInternal, if_neg (List.cons_ne_nil _ _), enterCall_first]
  have ahead : Ahead (lettersOf optstring) (orderingOf getenv optstring) program (program :: words)
      (startData getenv (orderingOf getenv optstring))
      (scan (lettersOf optstring) (orderingOf getenv optstring) words) :=
    .between ⟨[], [], [], words⟩ (startData getenv (orderingOf getenv optstring)) rfl rfl
      (.inr ⟨rfl, rfl⟩) (.words (by simp [startData]))
  exact continueCall_call noLong
    (fun member => noMinusOne (lettersOf_subset _ member)) ahead

/-- Calls until -1 that returned the results of a scan, each with what goes with it.
They leave `argv` with the consumed words before the others, both in their order,
and `optind` at the first of the others. -/
def Scan.ReturnedBy (said : Scan) (optstring : List UInt8) (program : CString)
    (outcome : Option (List (Int × GetoptData) × List CString × GetoptData)) : Prop :=
  ∃ results last, outcome = some (results, program :: (said.consumed ++ said.operands), last) ∧
    List.Forall₂ (fun reply result => reply.Answered optstring result.1 result.2)
      said.replies results ∧
    last.optind = said.consumed.length + 1

/-- The calls from any one on return what is ahead of it. -/
theorem getoptCalls_call (noLong : ¬ HasLong (lettersOf optstring)) (noMinusOne : 255 ∉ optstring)
    (call : Call (lettersOf optstring) ordering program total (getoptA getenv argv optstring d))
    {calls : Nat} (enough : total.replies.length < calls) :
    total.ReturnedBy (lettersOf optstring) program (getoptCalls getenv optstring calls argv d) := by
  induction calls generalizing argv d total with
  | zero => exact absurd enough (Nat.not_lt_zero _)
  | succ calls ih =>
    rw [getoptCalls]
    generalize getoptA getenv argv optstring d = outcome at call
    cases call with
    | finished place => exact ⟨[], _, by simp, .nil, place⟩
    | answered answer goesOn ahead =>
      have next := getoptA_later getenv noLong noMinusOne ahead
      have fewer := Nat.lt_of_succ_lt_succ enough
      obtain ⟨results, last, made, answers, place⟩ := ih next fewer
      rw [Option.bind_some]
      dsimp only
      rw [if_neg goesOn, made]
      exact ⟨_, last, rfl, .cons answer answers, place⟩

/-- `getopt` returns the results of the scan one by one and then -1, without a read
outside of `argv`, and every word of `argv` is still there. -/
theorem getopt_scans (noLong : ¬ HasLong (lettersOf optstring)) (noMinusOne : 255 ∉ optstring)
    (getenv : Bool) (program : CString) (words : List CString) :
    (scan (lettersOf optstring) (orderingOf getenv optstring) words).Splits words ∧
      ∀ calls, (scan (lettersOf optstring) (orderingOf getenv optstring) words).replies.length <
          calls →
        (scan (lettersOf optstring) (orderingOf getenv optstring) words).ReturnedBy
          (lettersOf optstring) program (getoptCalls getenv optstring calls (program :: words) {}) := by
  refine ⟨scan_splits words, ?_⟩
  intro calls enough
  exact getoptCalls_call noLong noMinusOne (getoptA_first program getenv noLong noMinusOne words) enough

/-- An operand before an option with an argument, for an `optstring` with each kind
of letter. -/
theorem getopt_scans_operand :
    (scan (bytes "ab:c::") .permute [⟨bytes "file", by decide⟩, ⟨bytes "-b", by decide⟩,
        ⟨bytes "x", by decide⟩]).ReturnedBy (bytes "ab:c::") ⟨bytes "program", by decide⟩
      (getoptCalls false (bytes "ab:c::") 2 [⟨bytes "program", by decide⟩,
        ⟨bytes "file", by decide⟩, ⟨bytes "-b", by decide⟩, ⟨bytes "x", by decide⟩] {}) := by
  apply (getopt_scans (by unfold HasLong; decide) (by decide) false ⟨bytes "program", by decide⟩
    [⟨bytes "file", by decide⟩, ⟨bytes "-b", by decide⟩, ⟨bytes "x", by decide⟩]).2
  change (scan (bytes "ab:c::") .permute _).replies.length < 2
  rw [scan_permute _ (by decide), scan_option _ (by decide) (by decide)]
  decide

end

end MailruHttp.Cmd
