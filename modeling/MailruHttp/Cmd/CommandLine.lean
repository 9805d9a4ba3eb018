import Mathlib.Data.List.TakeWhile
import MailruHttp.Cmd.ParseLoop
import MailruHttp.Server.Framing

/-! Command lines written for given options: whichever way each option is written
and in whatever order, the program starts with these options. -/

namespace MailruHttp.Cmd

open Server (digits)

/-- An option as written: its argument follows in the same word or in a word of its
own, where it may be empty. -/
structure Written where
  letter : UInt8
  optarg : CString
  attached : Bool
  known : takesArgument letter = true
  argument : attached = true → optarg.text ≠ []

theorem letter_ne_zero {c : UInt8} (known : takesArgument c = true) : c ≠ 0 := by
  rcases mem_letters known with rfl | rfl | rfl | rfl <;> decide

theorem letter_ne_dash {c : UInt8} (known : takesArgument c = true) : c ≠ byte '-' := by
  rcases mem_letters known with rfl | rfl | rfl | rfl <;> decide

namespace Written

variable (written : Written)

/-- The first word: a dash, the letter, and the argument if it is attached. -/
def first : CString where
  text := byte '-' :: written.letter :: if written.attached then written.optarg.text else []
  ended := by
    have letter := letter_ne_zero written.known
    have argument := written.optarg.ended
    have dash : (0 : UInt8) ≠ byte '-' := by decide
    cases written.attached <;> simp [dash, letter.symm, argument]

def words : List CString :=
  written.first :: if written.attached then [] else [written.optarg]

def found : Found := .option written.letter written.optarg

/-- An option is read back as written, and the rest after it. -/
theorem getopt_words (posixlyCorrect : Bool) (rest : List CString) :
    getopt posixlyCorrect (written.words ++ rest) = written.found :: getopt posixlyCorrect rest := by
  have head : (written.first.drop 1).text =
      written.letter :: if written.attached then written.optarg.text else [] := rfl
  have other : written.first.text ≠ bytes "--" := by
    intro dashes
    have second := congrArg (fun text => text[1]?) dashes
    exact letter_ne_dash written.known (Option.some.inj second)
  have valid : written.first.isOption = true := by
    simp [CString.isOption, first]
  obtain ⟨none, here⟩ := unknown_letter head written.known
  rw [words, List.cons_append, getopt_option _ other valid, none, here, head]
  cases attached : written.attached with
  | true =>
    have same : (written.first.drop 1).drop 1 = written.optarg := by
      simp [CString.drop, first, attached]
    simp only [↓reduceIte, List.nil_append, List.map_nil, same, ne_eq, written.argument attached,
      not_false_eq_true, found]
  | false =>
    have ended : ((written.first.drop 1).drop 1).text = [] := by
      simp [CString.drop, first, attached]
    simp only [Bool.false_eq_true, ↓reduceIte, List.cons_append, List.nil_append, List.map_nil,
      ended, ne_eq, not_true_eq_false, found]

end Written

theorem getopt_written (posixlyCorrect : Bool) (written : List Written) (rest : List CString) :
    getopt posixlyCorrect (written.flatMap Written.words ++ rest) =
      written.map Written.found ++ getopt posixlyCorrect rest := by
  induction written with
  | nil => rfl
  | cons first written ih =>
    rw [List.flatMap_cons, List.append_assoc, first.getopt_words, ih]
    rfl

/-- A digit is no blank and no sign. -/
theorem digit_plain {c : UInt8} (digit : Server.isDigit c = true) :
    isspace c = false ∧ c ≠ byte '-' ∧ c ≠ byte '+' := by
  have lower : 48 ≤ c.toNat := by
    rw [Server.isDigit, Bool.and_eq_true, decide_eq_true_eq, decide_eq_true_eq] at digit
    exact UInt8.le_iff_toNat_le.mp digit.1
  refine ⟨?_, ?_, ?_⟩
  · simp only [isspace, Bool.or_eq_false_iff, Bool.and_eq_false_iff, beq_eq_false_iff_ne, ne_eq,
      decide_eq_false_iff_not, UInt8.le_iff_toNat_le, ← UInt8.toNat_inj, UInt8.reduceToNat]
    omega
  · rintro rfl
    exact absurd lower (by decide)
  · rintro rfl
    exact absurd lower (by decide)

/-- `sscanf` reads printed digits back. -/
theorem scanDecimal_digits (n : Nat) : scanDecimal (digits n) = some (false, n) := by
  obtain ⟨c, more, split⟩ := List.exists_cons_of_ne_nil (Server.digits_ne_nil n)
  have member : c ∈ digits n := by simp [split]
  have digit := Server.mem_digits member
  obtain ⟨blank, minus, plus⟩ := digit_plain digit
  have all : (digits n).takeWhile isdigit = digits n :=
    List.takeWhile_eq_self_iff.mpr fun c member => Server.mem_digits member
  have start : (digits n).dropWhile isspace = digits n := by
    rw [split, List.dropWhile_cons_of_neg (by simp [blank])]
  have unsigned : ¬ ((digits n).head? = some (byte '-') ∨ (digits n).head? = some (byte '+')) := by
    simp [split, minus, plus]
  have positive : decide ((digits n).head? = some (byte '-')) = false := by
    simp [split, minus]
  rw [scanDecimal]
  simp only [start, unsigned, ↓reduceIte, all, Server.digits_ne_nil, Server.foldl_digits, positive]

theorem sscanf_digits (convert : Bool → Nat → Int) (n : Nat) :
    sscanf convert (digits n) = some (convert false n) := by
  rw [sscanf, scanDecimal_digits, Option.map_some]

theorem writeLow_small {old n : Nat} (empty : old < 2 ^ 32) (small : n < 2 ^ 32) :
    writeLow old n = n := by
  unfold writeLow
  omega

namespace ServerOptions

variable (opts : ServerOptions)

/-- What a command line says for these options. -/
def asked (ended : 0 ∉ opts.ip) : List Found :=
  [.option (byte 'h') ⟨opts.ip, ended⟩,
    .option (byte 'p') ⟨digits opts.port, Server.not_mem_digits (by decide)⟩,
    .option (byte 't') ⟨digits opts.threadPoolSize, Server.not_mem_digits (by decide)⟩,
    .option (byte 'd') ⟨opts.directory, opts.directory_cString⟩]

theorem set_asked (ended : 0 ∉ opts.ip) (port : opts.port < 2 ^ 31)
    (threads : opts.threadPoolSize < 2 ^ 32) :
    (opts.asked ended).foldl ServerOptions.set {} = opts := by
  have readPort : ((sscanf strtol (digits opts.port)).map (writeLow 80)).getD 80 = opts.port := by
    have kept : strtol false opts.port = opts.port := by
      simp only [strtol, Bool.false_eq_true, ↓reduceIte]
      omega
    rw [sscanf_digits, kept, Option.map_some, Option.getD_some, writeLow_small] <;> omega
  have readThreads : ((sscanf strtoul (digits opts.threadPoolSize)).map (writeLow 10)).getD 80 =
      opts.threadPoolSize := by
    have below : ¬ 2 ^ 64 ≤ opts.threadPoolSize := by omega
    have kept : strtoul false opts.threadPoolSize = opts.threadPoolSize := by
      simp only [strtoul, below, Bool.false_eq_true, ↓reduceIte]
    rw [sscanf_digits, kept, Option.map_some, Option.getD_some, writeLow_small] <;> omega
  have steps : (opts.asked ended).foldl ServerOptions.set {} =
      { ip := opts.ip
        port := ((sscanf strtol (digits opts.port)).map (writeLow 80)).getD 80
        threadPoolSize := ((sscanf strtoul (digits opts.threadPoolSize)).map (writeLow 10)).getD 80
        directory := opts.directory
        directory_cString := opts.directory_cString } := by
    have h : byte 'p' ≠ byte 'h' ∧ byte 't' ≠ byte 'h' ∧ byte 'd' ≠ byte 'h' := by decide
    have p : byte 't' ≠ byte 'p' ∧ byte 'd' ≠ byte 'p' ∧ byte 'd' ≠ byte 't' := by decide
    simp only [asked, List.foldl_cons, List.foldl_nil, ServerOptions.set, h, p, ↓reduceIte]
  rw [steps, readPort, readThreads]

end ServerOptions

/-- What is asked for is set in either order. -/
theorem asked_comm {opts : ServerOptions} (ended : 0 ∉ opts.ip) {first second : Found}
    (member : first ∈ opts.asked ended) (other : second ∈ opts.asked ended)
    (start : ServerOptions) :
    (start.set first).set second = (start.set second).set first := by
  simp only [ServerOptions.asked, List.mem_cons, List.not_mem_nil, or_false] at member other
  rcases member with rfl | rfl | rfl | rfl <;> rcases other with rfl | rfl | rfl | rfl <;> rfl

/-- The options of a command line in whatever order, each once. -/
theorem parse_asked {opts : ServerOptions} (ended : 0 ∉ opts.ip) (port : opts.port < 2 ^ 31)
    (threads : opts.threadPoolSize < 2 ^ 32) {written : List Written}
    (asked : (written.map Written.found).Perm (opts.asked ended)) {getenv : Bool}
    {rest : List CString} (noMore : getopt getenv rest = []) :
    parse getenv (written.flatMap Written.words ++ rest) {} = opts := by
  rw [parse, getopt_written, noMore, List.append_nil]
  rw [asked.foldl_eq' fun first member second other start =>
    asked_comm ended (asked.subset member) (asked.subset other) start]
  exact opts.set_asked ended port threads

/-- The program started with a command line for some options, each option written
either way, in any order and before anything else, has these options. -/
theorem commandLine_roundtrip {opts : ServerOptions} (ended : 0 ∉ opts.ip)
    (port : opts.port < 2 ^ 31) (threads : opts.threadPoolSize < 2 ^ 32) {written : List Written}
    (asked : (written.map Written.found).Perm (opts.asked ended)) {getenv : Bool}
    {rest : List CString} (noMore : getopt getenv rest = []) (program : CString) {calls : Nat}
    (enough : 4 < calls) :
    ∃ argv last, parseLoop getenv calls
      (program :: (written.flatMap Written.words ++ rest)) {} {} = some (opts, argv, last) := by
  have count : (getopt getenv (written.flatMap Written.words ++ rest)).length = 4 := by
    rw [getopt_written, noMore, List.append_nil, asked.length_eq]
    rfl
  rw [← count] at enough
  obtain ⟨last, parsed, _⟩ :=
    parseLoop_parse getenv program (written.flatMap Written.words ++ rest) {} enough
  rw [parse_asked ended port threads asked noMore] at parsed
  exact ⟨_, last, parsed⟩

/-- The defaults, two of them attached, before a `--`. -/
theorem commandLine_roundtrip_defaults :
    ∃ argv last, parseLoop false 5
      (⟨bytes "final", by decide⟩ :: ([
        ⟨byte 'h', ⟨bytes "127.0.0.1", by decide⟩, true, by decide, by decide⟩,
        ⟨byte 'p', ⟨digits 80, Server.not_mem_digits (by decide)⟩, false, by decide, by decide⟩,
        ⟨byte 't', ⟨digits 10, Server.not_mem_digits (by decide)⟩, false, by decide, by decide⟩,
        ⟨byte 'd', ⟨bytes ".", by decide⟩, true, by decide, by decide⟩].flatMap Written.words ++
          [⟨bytes "--", by decide⟩])) {} {} = some ({}, argv, last) :=
  commandLine_roundtrip (by decide) (by decide) (by decide) (List.Perm.refl _)
    (by rw [getopt]; rfl) ⟨bytes "final", by decide⟩ (by decide)

end MailruHttp.Cmd
