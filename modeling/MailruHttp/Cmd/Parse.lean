import MailruHttp.Cmd.Options

/-! The command line of `cmd/parse.cpp`: the options `getopt` finds in it, the
numbers `sscanf` reads from them, and what they set. -/

namespace MailruHttp.Cmd

/-- An argument of the program, which has no NUL before its end. -/
structure CString where
  text : List UInt8
  ended : 0 ∉ text := by decide

def CString.drop (word : CString) (n : Nat) : CString where
  text := word.text.drop n
  ended found := word.ended (List.mem_of_mem_drop found)

/-- One result of `getopt`: an option with its `optarg`, or `'?'`. -/
inductive Found where
  | option (c : UInt8) (optarg : CString)
  | unknown

/-- The letters of `"h:p:d:t:"`; each of them takes an argument. -/
def takesArgument (c : UInt8) : Bool := (bytes "hpdt").contains c

/-- An option starts with a dash and goes on. -/
def CString.isOption (word : CString) : Bool :=
  word.text.head? = some (byte '-') && 2 ≤ word.text.length

/-- The results of `getopt` up to its -1. A word that is no option is passed over
or, where POSIXLY_CORRECT is set, the last one looked at. The letters of a word
are options until one takes the rest of the word, or the next word, as argument. -/
def getopt (posixlyCorrect : Bool) : List CString → List Found
  | [] => []
  | word :: rest =>
    if word.text = bytes "--" then []
    else if word.isOption then
      let unknown := (word.text.drop 1).takeWhile fun c => !takesArgument c
      let option := word.drop (1 + unknown.length)
      unknown.map (fun _ => .unknown) ++
        match option.text with
        | [] => getopt posixlyCorrect rest
        | c :: _ =>
          if (option.drop 1).text ≠ [] then .option c (option.drop 1) :: getopt posixlyCorrect rest
          else match rest with
            | [] => [.unknown]
            | optarg :: rest => .option c optarg :: getopt posixlyCorrect rest
    else if posixlyCorrect then []
    else getopt posixlyCorrect rest

/-- `isspace` in the C locale. -/
def isspace (c : UInt8) : Bool := c == 32 || (9 ≤ c && c ≤ 13)

def isdigit (c : UInt8) : Bool := byte '0' ≤ c && c ≤ byte '9'

/-- The sign and the digits `sscanf` reads for a decimal conversion; `none` where
there are no digits and nothing is converted. -/
def scanDecimal (text : List UInt8) : Option (Bool × Nat) :=
  let text := text.dropWhile isspace
  let negative := text.head? = some (byte '-')
  let digits := (if negative ∨ text.head? = some (byte '+') then text.tail else text).takeWhile isdigit
  if digits = [] then none
  else some (negative, digits.foldl (fun value c => 10 * value + (c.toNat - (byte '0').toNat)) 0)

/-- `strtoul`, through which `%u` goes: `ULONG_MAX` out of range, otherwise the
value or its negation as an `unsigned long`. -/
def strtoul (negative : Bool) (value : Nat) : Int :=
  if 2 ^ 64 ≤ value then 2 ^ 64 - 1 else if negative then (-value) % 2 ^ 64 else value

/-- `strtol`, through which `%d` goes: the nearest `long`. -/
def strtol (negative : Bool) (value : Nat) : Int :=
  if negative then max (-2 ^ 63) (-value) else min (2 ^ 63 - 1) value

/-- `sscanf` of one number through the given conversion. -/
def sscanf (convert : Bool → Nat → Int) (text : List UInt8) : Option Int :=
  (scanDecimal text).map fun read => convert read.1 read.2

/-- A number that `sscanf` takes for 32 bits wide, written into a `size_t`. -/
def writeLow (old : Nat) (value : Int) : Nat := old / 2 ^ 32 * 2 ^ 32 + (value % 2 ^ 32).toNat

/-- All the options of `cmd/parse.h`, with their defaults. -/
structure ServerOptions extends Options where
  ip : List UInt8 := bytes "127.0.0.1"
  port : Nat := 80
  threadPoolSize : Nat := 10

/-- The body of the loop in `cmd::parse`. -/
def ServerOptions.set (opts : ServerOptions) : Found → ServerOptions
  | .unknown => opts
  | .option c optarg =>
    if c = byte 'h' then { opts with ip := optarg.text }
    else if c = byte 'p' then
      { opts with port := ((sscanf strtol optarg.text).map (writeLow opts.port)).getD 80 }
    else if c = byte 't' then
      { opts with
        threadPoolSize := ((sscanf strtoul optarg.text).map (writeLow opts.threadPoolSize)).getD 80 }
    else if c = byte 'd' then
      { opts with directory := optarg.text, directory_cString := optarg.ended }
    else opts

def parse (posixlyCorrect : Bool) (arguments : List CString) (opts : ServerOptions) : ServerOptions :=
  (getopt posixlyCorrect arguments).foldl ServerOptions.set opts

/-- The number of workers asked for by the argument of a `-t`, as an `int`. -/
def requestedWorkers (text : List UInt8) : Int := ((sscanf strtoul text).map toInt).getD 80

/-- A number without a sign that is not out of range is read as it stands. -/
theorem requestedWorkers_of_scan {text : List UInt8} {n : Nat}
    (read : scanDecimal text = some (false, n)) (small : n < 2 ^ 64) :
    requestedWorkers text = toInt n := by
  have kept : strtoul false n = n := by
    have below : ¬ 2 ^ 64 ≤ n := Nat.not_le_of_lt small
    simp only [strtoul, below, Bool.false_eq_true, ↓reduceIte]
  have value : sscanf strtoul text = some (n : Int) := by
    unfold sscanf
    rw [read, Option.map_some, kept]
  unfold requestedWorkers
  rw [value, Option.map_some, Option.getD_some]

/-- Only the low half of a `size_t` reaches an `int`. -/
theorem toInt_writeLow (old : Nat) (value : Int) : toInt (writeLow old value) = toInt value := by
  have low : (writeLow old value : Int) % (2 ^ 32 : Nat) = value % (2 ^ 32 : Nat) := by
    unfold writeLow
    omega
  rw [toInt, toInt, ← Int.emod_bmod, low, Int.emod_bmod]

/-- Whatever was set before it, a `-t` decides the count of the pool. -/
theorem set_threadPoolSize (opts : ServerOptions) (optarg : CString) :
    toInt (opts.set (.option (byte 't') optarg)).threadPoolSize = requestedWorkers optarg.text := by
  have other : byte 't' ≠ byte 'h' ∧ byte 't' ≠ byte 'p' := by decide
  unfold ServerOptions.set requestedWorkers
  simp only [other.1, other.2, ↓reduceIte]
  cases sscanf strtoul optarg.text with
  | none => exact toInt_of_fits 80 (by omega) (by omega)
  | some value => exact toInt_writeLow _ value

theorem set_other (opts : ServerOptions) {found : Found}
    (other : ∀ optarg, found ≠ .option (byte 't') optarg) :
    (opts.set found).threadPoolSize = opts.threadPoolSize := by
  cases found with
  | unknown => rfl
  | option c optarg =>
    have different : c ≠ byte 't' := by
      intro same
      exact other optarg (by rw [same])
    simp only [ServerOptions.set, different, ↓reduceIte]
    split
    · rfl
    · split
      · rfl
      · split <;> rfl

/-- The count of the pool is the number asked for by the last `-t`. -/
theorem parse_threadPoolSize {posixlyCorrect : Bool} {arguments : List CString}
    {earlier later : List Found} {optarg : CString} (opts : ServerOptions)
    (found : getopt posixlyCorrect arguments = earlier ++ .option (byte 't') optarg :: later)
    (last : ∀ other ∈ later, ∀ optarg, other ≠ .option (byte 't') optarg) :
    toInt (parse posixlyCorrect arguments opts).threadPoolSize = requestedWorkers optarg.text := by
  have kept (found : List Found) (other : ∀ f ∈ found, ∀ optarg, f ≠ .option (byte 't') optarg)
      (opts : ServerOptions) :
      (found.foldl ServerOptions.set opts).threadPoolSize = opts.threadPoolSize := by
    induction found generalizing opts with
    | nil => rfl
    | cons head rest ih =>
      rw [List.foldl_cons, ih (fun f member => other f (by simp [member]))]
      exact set_other opts (other head (by simp))
  rw [parse, found, List.foldl_append, List.foldl_cons, kept later last]
  exact set_threadPoolSize _ optarg

theorem getopt_threads (posixlyCorrect : Bool) (optarg : CString) :
    getopt posixlyCorrect [{ text := bytes "-t" }, optarg] = [.option (byte 't') optarg] := by
  rw [getopt]
  rfl

end MailruHttp.Cmd
