import MailruHttp.Cmd.Parse
import MailruHttp.Library.BlockExchange

/-! `getopt` of `getopt/getopt.c`, which is called without long options, and the
loop of `cmd::parse` over it. What it prints is left out. `none` is an access
outside of `argv` or through a null pointer. -/

namespace MailruHttp.Cmd

open Library

/-- `enum ENUM_ORDERING`. -/
inductive EnumOrdering where
  | requireOrder
  | permute
  | returnInOrder
deriving DecidableEq

/-- `struct _getopt_data_a`; `nextchar` is the rest of a word of `argv`. -/
structure GetoptData where
  optind : Nat := 1
  optopt : UInt8 := 0
  optarg : Option CString := none
  initialized : Bool := false
  nextchar : Option CString := none
  ordering : EnumOrdering := .requireOrder
  posixlyCorrect : Bool := false
  firstNonopt : Nat := 0
  lastNonopt : Nat := 0

/-- A `char` is signed where it becomes an `int`. -/
def charToInt (c : UInt8) : Int := c.toInt8.toInt

def exchange (argv : List CString) (d : GetoptData) : Option (List CString × GetoptData) :=
  (exchangeBlocks d.firstNonopt d.lastNonopt d.optind argv).map fun argv =>
    (argv, { d with
      firstNonopt := d.firstNonopt + (d.optind - d.lastNonopt)
      lastNonopt := d.optind })

/-- `getenv` is whether POSIXLY_CORRECT is set. -/
def getoptInitialize (getenv : Bool) (optstring : List UInt8) (d : GetoptData)
    (posixlyCorrect : Bool) : List UInt8 × GetoptData :=
  let d := { d with
    firstNonopt := d.optind
    lastNonopt := d.optind
    nextchar := none
    posixlyCorrect := posixlyCorrect || getenv }
  if optstring.head? = some (byte '-') then
    (optstring.tail, { d with ordering := .returnInOrder })
  else if optstring.head? = some (byte '+') then
    (optstring.tail, { d with ordering := .requireOrder })
  else if d.posixlyCorrect then (optstring, { d with ordering := .requireOrder })
  else (optstring, { d with ordering := .permute })

/-- The start of a call: the first one initializes, a later one skips the mark
of the ordering. -/
def enterCall (getenv : Bool) (optstring : List UInt8) (d : GetoptData) (posixlyCorrect : Bool) :
    List UInt8 × GetoptData :=
  let d := { d with optarg := none }
  if d.optind = 0 ∨ d.initialized = false then
    let d := if d.optind = 0 then { d with optind := 1 } else d
    let (optstring, d) := getoptInitialize getenv optstring d posixlyCorrect
    (optstring, { d with initialized := true })
  else if optstring.head? = some (byte '-') ∨ optstring.head? = some (byte '+') then
    (optstring.tail, d)
  else (optstring, d)

/-- An `optind` that the caller has set back. -/
def clampNonoptions (d : GetoptData) : GetoptData := { d with
  lastNonopt := min d.lastNonopt d.optind
  firstNonopt := min d.firstNonopt d.optind }

/-- Where the ordering is `PERMUTE`: the options found last go before the words
that are none, and the next such words are passed over. -/
def passNonoptions (argv : List CString) (d : GetoptData) : Option (List CString × GetoptData) :=
  (if d.firstNonopt ≠ d.lastNonopt ∧ d.lastNonopt ≠ d.optind then exchange argv d
    else if d.lastNonopt ≠ d.optind then some (argv, { d with firstNonopt := d.optind })
    else some (argv, d)).map fun (argv, d) =>
  let passed := (argv.drop d.optind).takeWhile fun word => !word.isOption
  (argv, { d with optind := d.optind + passed.length, lastNonopt := d.optind + passed.length })

/-- A `--` ends the options; it counts as one, and all that follows as none. -/
def stopAtDashes (argv : List CString) (d : GetoptData) : Option (List CString × GetoptData) :=
  if d.optind = argv.length then some (argv, d)
  else argv[d.optind]?.bind fun word =>
    if word.text = bytes "--" then
      let d := { d with optind := d.optind + 1 }
      (if d.firstNonopt ≠ d.lastNonopt ∧ d.lastNonopt ≠ d.optind then exchange argv d
        else if d.firstNonopt = d.lastNonopt then some (argv, { d with firstNonopt := d.optind })
        else some (argv, d)).map fun (argv, d) =>
      (argv, { d with lastNonopt := argv.length, optind := argv.length })
    else some (argv, d)

/-- What is returned for the end of `argv` and for a word that is no option; the
letters of an option are read next. -/
def enterWord (argv : List CString) (d : GetoptData) : Option (Option Int × GetoptData) :=
  if d.optind = argv.length then
    some (some (-1),
      if d.firstNonopt ≠ d.lastNonopt then { d with optind := d.firstNonopt } else d)
  else argv[d.optind]?.map fun word =>
    if word.isOption then (none, { d with nextchar := some (word.drop 1) })
    else if d.ordering = .requireOrder then (some (-1), d)
    else (some 1, { d with optarg := some word, optind := d.optind + 1 })

/-- The letter at `nextchar`; `temp` is where it stands in `optstring`. -/
def takeLetter (optstring : List UInt8) (argv : List CString) (d : GetoptData) :
    Option (Int × GetoptData) :=
  d.nextchar.bind fun nextchar =>
  nextchar.text.head?.bind fun c =>
  let nextchar := nextchar.drop 1
  let temp := optstring.dropWhile (· != c)
  let d := { d with
    nextchar := some nextchar
    optind := if nextchar.text = [] then d.optind + 1 else d.optind }
  if temp = [] ∨ c = byte ':' ∨ c = byte ';' then
    some (charToInt (byte '?'), { d with optopt := c })
  else if c = byte 'W' ∧ temp[1]? = some (byte ';') then
    -- a jump to no_longs, past a step to the next word
    some (charToInt (byte 'W'), { d with nextchar := none })
  else if temp[1]? = some (byte ':') then
    if temp[2]? = some (byte ':') then
      if nextchar.text ≠ [] then
        some (charToInt c,
          { d with optarg := some nextchar, optind := d.optind + 1, nextchar := none })
      else some (charToInt c, { d with optarg := none, nextchar := none })
    else if nextchar.text ≠ [] then
      some (charToInt c,
        { d with optarg := some nextchar, optind := d.optind + 1, nextchar := none })
    else if d.optind = argv.length then
      some (charToInt (if optstring.head? = some (byte ':') then byte ':' else byte '?'),
        { d with optopt := c, nextchar := none })
    else argv[d.optind]?.map fun optarg =>
      (charToInt c, { d with optarg := some optarg, optind := d.optind + 1, nextchar := none })
  else some (charToInt c, d)

/-- The next word: what is returned for it, or its first letter. -/
def readWord (optstring : List UInt8) (argv : List CString) (d : GetoptData) :
    Option (Int × List CString × GetoptData) :=
  (enterWord argv d).bind fun
    | (some result, d) => some (result, argv, d)
    | (none, d) => (takeLetter optstring argv d).map fun (result, d) => (result, argv, d)

/-- A call after its start: on to the next word where no letters are left. -/
def continueCall (optstring : List UInt8) (argv : List CString) (d : GetoptData) :
    Option (Int × List CString × GetoptData) :=
  if d.nextchar.all fun nextchar => nextchar.text = [] then
    let d := clampNonoptions d
    (if d.ordering = .permute then passNonoptions argv d else some (argv, d)).bind fun (argv, d) =>
    (stopAtDashes argv d).bind fun (argv, d) => readWord optstring argv d
  else (takeLetter optstring argv d).map fun (result, d) => (result, argv, d)

/-- `_getopt_internal_r_a` without long options. -/
def getoptInternal (getenv : Bool) (argv : List CString) (optstring : List UInt8) (d : GetoptData)
    (posixlyCorrect : Bool) : Option (Int × List CString × GetoptData) :=
  if argv = [] then some (-1, argv, d)
  else
    let (optstring, d) := enterCall getenv optstring d posixlyCorrect
    continueCall optstring argv d

/-- `getopt_a`. -/
def getoptA (getenv : Bool) (argv : List CString) (optstring : List UInt8) (d : GetoptData) :
    Option (Int × List CString × GetoptData) :=
  getoptInternal getenv argv optstring d false

/-- Calls until -1: what each returned, with the data it left; then `argv` and the
data after the last call. `none` also where the calls do not end. -/
def getoptCalls (getenv : Bool) (optstring : List UInt8) :
    Nat → List CString → GetoptData → Option (List (Int × GetoptData) × List CString × GetoptData)
  | 0, _, _ => none
  | calls + 1, argv, d =>
    (getoptA getenv argv optstring d).bind fun (result, argv, d) =>
    if result = -1 then some ([], argv, d)
    else (getoptCalls getenv optstring calls argv d).map fun (results, argv, last) =>
      ((result, d) :: results, argv, last)

/-- The `switch` of `cmd::parse`. -/
def ServerOptions.switch (opts : ServerOptions) (c : Int) (optarg : Option CString) :
    Option ServerOptions :=
  match [byte 'h', byte 'p', byte 't', byte 'd'].find? (charToInt · = c) with
  | some letter => optarg.map fun optarg => opts.set (.option letter optarg)
  | none => some opts

/-- The loop of `cmd::parse`. -/
def parseLoop (getenv : Bool) :
    Nat → List CString → GetoptData → ServerOptions →
      Option (ServerOptions × List CString × GetoptData)
  | 0, _, _, _ => none
  | calls + 1, argv, d, opts =>
    (getoptA getenv argv (bytes "h:p:d:t:") d).bind fun (c, argv, d) =>
    if c = -1 then some (opts, argv, d)
    else (opts.switch c d.optarg).bind (parseLoop getenv calls argv d)

end MailruHttp.Cmd
