import MailruHttp.Regex.Correctness
import MailruHttp.Server.ParseRequest

/-! The request grammar as a property of byte strings, and the proof that the
parser with its two automata recognizes exactly it. -/

namespace MailruHttp.Server

open Library Regex

/-- `GET uri CRLF` and anything after it. -/
def ShortRequest (request uri : List UInt8) : Prop :=
  ∃ rest, byte '\r' ∉ uri ∧ byte ' ' ∉ uri ∧
    request = bytes "GET " ++ uri ++ bytes "\r\n" ++ rest

/-- `GET uri SP version CRLF` and anything after it; the version is arbitrary. -/
def LongRequest (request uri : List UInt8) : Prop :=
  ∃ version rest, byte ' ' ∉ uri ∧ byte '\r' ∉ version ∧
    request = bytes "GET " ++ uri ++ bytes " " ++ version ++ bytes "\r\n" ++ rest

/-- Some continuation makes the bytes a request. -/
def CanComplete (request : List UInt8) : Prop :=
  ∃ more uri, ShortRequest (request ++ more) uri ∨ LongRequest (request ++ more) uri

def getPiece : Call :=
  { combinator := .stringShouldContain (bytes "GET ") (by decide), begin := true }

def shortCalls : List Call :=
  [getPiece, { combinator := .zeroOrInfinityNot2 (byte '\r') (byte ' '), «end» := true }]

def longCalls : List Call :=
  [getPiece, { combinator := .zeroOrInfinityNot (byte ' '), «end» := true },
    { combinator := .zeroOrInfinityNot (byte '\r') }]

theorem http09GetString_eq : http09GetString = compile shortCalls (byte '\n') := rfl

theorem http10GetString_eq : http10GetString = compile longCalls (byte '\n') := rfl

theorem shortRequest_iff (request : List UInt8) :
    (∃ uri, ShortRequest request uri) ↔
      Accepts (callsLanguage shortCalls (byte '\n')) request := by
  constructor
  · intro ⟨uri, rest, noCr, noSpace, same⟩
    refine ⟨bytes "GET " ++ uri ++ bytes "\r\n", ?_, rest, same.symm⟩
    refine ⟨bytes "GET " ++ (uri ++ [byte '\r']), ⟨bytes "GET ", rfl, uri ++ [byte '\r'], ?_, rfl⟩,
      [byte '\n'], rfl, by simp [bytes]⟩
    exact ⟨uri ++ [byte '\r'], ⟨uri, noCr, noSpace, rfl⟩, [], rfl, by simp⟩
  · intro ⟨front, member, rest, same⟩
    obtain ⟨_, ⟨_, rfl, _, ⟨_, ⟨uri, noCr, noSpace, rfl⟩, _, rfl, rfl⟩, rfl⟩, _, rfl, rfl⟩ := member
    exact ⟨uri, rest, noCr, noSpace, by simp [← same, bytes]⟩

theorem longRequest_iff (request : List UInt8) :
    (∃ uri, LongRequest request uri) ↔
      Accepts (callsLanguage longCalls (byte '\n')) request := by
  constructor
  · intro ⟨uri, version, rest, noSpace, noCr, same⟩
    refine ⟨bytes "GET " ++ uri ++ bytes " " ++ version ++ bytes "\r\n", ?_, rest, same.symm⟩
    refine ⟨bytes "GET " ++ (uri ++ [byte ' '] ++ (version ++ [byte '\r'])),
      ⟨bytes "GET ", rfl, _, ⟨uri ++ [byte ' '], ⟨uri, noSpace, rfl⟩, version ++ [byte '\r'], ?_, rfl⟩, rfl⟩,
      [byte '\n'], rfl, by simp [bytes]⟩
    exact ⟨version ++ [byte '\r'], ⟨version, noCr, rfl⟩, [], rfl, by simp⟩
  · intro ⟨front, member, rest, same⟩
    obtain ⟨_, ⟨_, rfl, _, ⟨_, ⟨uri, noSpace, rfl⟩, _, ⟨_, ⟨version, noCr, rfl⟩, _, rfl, rfl⟩, rfl⟩, rfl⟩,
      _, rfl, rfl⟩ := member
    exact ⟨uri, version, rest, noSpace, noCr, by simp [← same, bytes]⟩

/-- After `GET ` the first group is open and still empty. -/
def afterGet : Captures := ⟨[bytes "GET ", []], 1, by decide⟩

def lastPiece : Piece := ⟨Segment.letter (byte '\n'), false, false⟩

theorem advances_get (pieces : List Piece) (input : List UInt8) :
    Reading.advances (getPiece.pieces ++ pieces, Captures.initial) (bytes "GET " ++ input) =
      Reading.advances (pieces, afterGet) input := by
  simp [bytes, byte, Reading.advances, Reading.advance, getPiece, Call.pieces, Combinator.segments,
    markedPieces, Segment.letter, Captures.leave]
  rfl

/-- A short request is a full match of the first automaton with its URI as
first group. -/
theorem shortVerdict_of_short (short : ShortRequest request uri) :
    ∃ whole, chainVerdict shortCalls (byte '\n') request = ⟨.mrtFull, [whole, uri]⟩ := by
  obtain ⟨rest, noCr, noSpace, same⟩ := short
  let piece : Piece := ⟨untilNot2 (byte '\r') (byte ' '), false, true⟩
  have skips : ∀ a ∈ uri, piece.segment.skip a = true := by
    intro a member
    have notCr : a ≠ byte '\r' := fun equal => noCr (equal ▸ member)
    have notSpace : a ≠ byte ' ' := fun equal => noSpace (equal ▸ member)
    simp [piece, untilNot2, notCr, notSpace]
  have input : request = bytes "GET " ++ (uri ++ piece.segment.stop ::
      lastPiece.segment.stop :: rest) := by
    simp only [same, bytes]
    simp [piece, lastPiece, untilNot2, Segment.letter]
  refine ⟨bytes "GET " ++ uri ++ bytes "\r\n", ?_⟩
  rw [chainVerdict, input, show pieces shortCalls (byte '\n') = getPiece.pieces ++ [piece, lastPiece]
    from rfl, advances_get, Reading.advances_skipped piece _ _ _ _ skips, Reading.advances_stop,
    Reading.advances_stop, Reading.advances_finished]
  simp [verdict, Captures.leave, Captures.append, Captures.close, afterGet, appendFirst, piece,
    lastPiece, untilNot2, Segment.letter, bytes]

theorem longVerdict_of_long (long : LongRequest request uri) :
    ∃ whole, chainVerdict longCalls (byte '\n') request = ⟨.mrtFull, [whole, uri]⟩ := by
  obtain ⟨version, rest, noSpace, noCr, same⟩ := long
  let first : Piece := ⟨untilNot (byte ' '), false, true⟩
  let second : Piece := ⟨untilNot (byte '\r'), false, false⟩
  have skipsFirst : ∀ a ∈ uri, first.segment.skip a = true := by
    intro a member
    have notSpace : a ≠ byte ' ' := fun equal => noSpace (equal ▸ member)
    simp [first, untilNot, notSpace]
  have skipsSecond : ∀ a ∈ version, second.segment.skip a = true := by
    intro a member
    have notCr : a ≠ byte '\r' := fun equal => noCr (equal ▸ member)
    simp [second, untilNot, notCr]
  have input : request = bytes "GET " ++ (uri ++ first.segment.stop ::
      (version ++ second.segment.stop :: lastPiece.segment.stop :: rest)) := by
    simp only [same, bytes]
    simp [first, second, lastPiece, untilNot, Segment.letter]
  refine ⟨bytes "GET " ++ uri ++ bytes " " ++ version ++ bytes "\r\n", ?_⟩
  rw [chainVerdict, input, show pieces longCalls (byte '\n') =
    getPiece.pieces ++ [first, second, lastPiece] from rfl, advances_get,
    Reading.advances_skipped first _ _ _ _ skipsFirst, Reading.advances_stop,
    Reading.advances_skipped second _ _ _ _ skipsSecond, Reading.advances_stop,
    Reading.advances_stop, Reading.advances_finished]
  simp [verdict, Captures.leave, Captures.append, Captures.close, afterGet, appendFirst, first,
    second, lastPiece, untilNot, Segment.letter, bytes]

/-- What the parser reports about a request with a given URI. -/
def accepted (uri : List UInt8) : RequestParsingState :=
  { uri := uri, baseUri := baseUriOf uri, valid := true, complete := true }

def incomplete : RequestParsingState := { valid := true }

def rejected : RequestParsingState := { complete := true }

/-- The parser in terms of the verdicts of its two automata. -/
theorem parseRequest_verdicts (state : ClientState) :
    parseRequest state =
      if state.request = [] then some incomplete
      else
        let short := chainVerdict shortCalls (byte '\n') state.request
        let long := chainVerdict longCalls (byte '\n') state.request
        if short.type ≠ .mrtError ∨ long.type ≠ .mrtError then do
          let result ← takeUri long incomplete
          let result ← takeUri short result
          if result.complete then some { result with baseUri := baseUriOf result.uri }
          else some result
        else some rejected := by
  obtain ⟨dfa09, compiled09, -, runs09⟩ := compile_match shortCalls (byte '\n')
  obtain ⟨dfa10, compiled10, -, runs10⟩ := compile_match longCalls (byte '\n')
  have reports09 := runs09 (by rw [compile_length _ _ compiled09]; decide)
  have reports10 := runs10 (by rw [compile_length _ _ compiled10]; decide)
  by_cases empty : state.request = []
  · simp [parseRequest, empty, incomplete]
  · have nonempty : state.request.length ≠ 0 := by simpa using empty
    simp only [parseRequest, nonempty, ne_eq, not_false_eq_true, ↓reduceIte, http09GetString_eq,
      http10GetString_eq, compiled09, compiled10, reports09, reports10, Option.bind_eq_bind,
      Option.bind_some, empty]
    rfl

theorem takeUri_full (whole uri : List UInt8) (result : RequestParsingState) :
    takeUri ⟨.mrtFull, [whole, uri]⟩ result = some { result with complete := true, uri := uri } := rfl

theorem takeUri_skip (notFull : found.type ≠ .mrtFull) (result : RequestParsingState) :
    takeUri found result = some result := by simp [takeUri, notFull]

theorem shortVerdict_not_full (none : ¬ ∃ uri, ShortRequest request uri) :
    (chainVerdict shortCalls (byte '\n') request).type ≠ .mrtFull := by
  rwa [ne_eq, chainVerdict_full_iff, ← shortRequest_iff]

theorem longVerdict_not_full (none : ¬ ∃ uri, LongRequest request uri) :
    (chainVerdict longCalls (byte '\n') request).type ≠ .mrtFull := by
  rwa [ne_eq, chainVerdict_full_iff, ← longRequest_iff]

theorem request_ne_nil (found : ShortRequest request uri ∨ LongRequest request uri) :
    request ≠ [] := by
  rcases found with ⟨_, _, _, same⟩ | ⟨_, _, _, _, same⟩
  · simp [same, bytes]
  · simp [same, bytes]

/-- Both automata reject exactly the bytes no continuation completes. -/
theorem canComplete_iff (request : List UInt8) :
    CanComplete request ↔
      (chainVerdict shortCalls (byte '\n') request).type ≠ .mrtError ∨
      (chainVerdict longCalls (byte '\n') request).type ≠ .mrtError := by
  have short : Extendable (callsLanguage shortCalls (byte '\n')) request ↔
      ∃ more uri, ShortRequest (request ++ more) uri := by
    simp only [Extendable, ← shortRequest_iff]
  have long : Extendable (callsLanguage longCalls (byte '\n')) request ↔
      ∃ more uri, LongRequest (request ++ more) uri := by
    simp only [Extendable, ← longRequest_iff]
  rw [ne_eq, chainVerdict_error_iff, not_not, ne_eq, chainVerdict_error_iff, not_not, short, long]
  simp only [CanComplete, exists_or]

theorem canComplete_of_request (found : ShortRequest request uri ∨ LongRequest request uri) :
    CanComplete request := ⟨[], uri, by simpa using found⟩

/-- A short request is accepted with its URI, whatever the other automaton says. -/
theorem parseRequest_short (short : ShortRequest state.request uri) :
    parseRequest state = some (accepted uri) := by
  obtain ⟨whole, full⟩ := shortVerdict_of_short short
  have nonempty := request_ne_nil (.inl short)
  rw [parseRequest_verdicts]
  simp only [nonempty, ↓reduceIte, full, ne_eq, reduceCtorEq, not_false_eq_true, true_or,
    Option.bind_eq_bind]
  by_cases long : ∃ other, LongRequest state.request other
  · obtain ⟨other, long⟩ := long
    obtain ⟨longWhole, longFull⟩ := longVerdict_of_long long
    simp [longFull, takeUri_full, accepted, incomplete]
  · simp [takeUri_skip (longVerdict_not_full long), takeUri_full, accepted, incomplete]

theorem parseRequest_long (none : ¬ ∃ other, ShortRequest state.request other)
    (long : LongRequest state.request uri) : parseRequest state = some (accepted uri) := by
  obtain ⟨whole, full⟩ := longVerdict_of_long long
  have nonempty := request_ne_nil (.inr long)
  rw [parseRequest_verdicts]
  simp [nonempty, full, takeUri_full, takeUri_skip (shortVerdict_not_full none), accepted, incomplete]

theorem parseRequest_incomplete
    (none : ¬ ∃ uri, ShortRequest state.request uri ∨ LongRequest state.request uri)
    (possible : CanComplete state.request) : parseRequest state = some incomplete := by
  have noShort : ¬ ∃ uri, ShortRequest state.request uri :=
    fun ⟨uri, short⟩ => none ⟨uri, .inl short⟩
  have noLong : ¬ ∃ uri, LongRequest state.request uri :=
    fun ⟨uri, long⟩ => none ⟨uri, .inr long⟩
  rw [canComplete_iff] at possible
  rw [parseRequest_verdicts]
  by_cases empty : state.request = []
  · simp [empty]
  · simp only [empty, possible, ↓reduceIte, takeUri_skip (shortVerdict_not_full noShort),
      takeUri_skip (longVerdict_not_full noLong), Option.bind_eq_bind, Option.bind_some]
    rfl

theorem parseRequest_rejected (dead : ¬ CanComplete state.request) :
    parseRequest state = some rejected := by
  have nonempty : state.request ≠ [] := by
    intro empty
    apply dead
    refine ⟨bytes "GET \r\n", [], .inl ⟨[], by simp, by simp, ?_⟩⟩
    simp [empty, bytes]
  rw [canComplete_iff] at dead
  rw [parseRequest_verdicts]
  simp only [nonempty, dead, ↓reduceIte]

/-- The grammar decides the parser: four cases that exclude each other. -/
inductive Parsed (request : List UInt8) : RequestParsingState → Prop where
  | short (found : ShortRequest request uri) : Parsed request (accepted uri)
  | long (none : ¬ ∃ other, ShortRequest request other) (found : LongRequest request uri) :
      Parsed request (accepted uri)
  | waiting (none : ¬ ∃ uri, ShortRequest request uri ∨ LongRequest request uri)
      (possible : CanComplete request) : Parsed request incomplete
  | dead (impossible : ¬ CanComplete request) : Parsed request rejected

theorem parseRequest_parsed (state : ClientState) :
    ∃ result, parseRequest state = some result ∧ Parsed state.request result := by
  by_cases possible : CanComplete state.request
  · by_cases short : ∃ uri, ShortRequest state.request uri
    · obtain ⟨uri, found⟩ := short
      exact ⟨_, parseRequest_short found, .short found⟩
    · by_cases long : ∃ uri, LongRequest state.request uri
      · obtain ⟨uri, found⟩ := long
        exact ⟨_, parseRequest_long short found, .long short found⟩
      · have none : ¬ ∃ uri, ShortRequest state.request uri ∨ LongRequest state.request uri := by
          rw [exists_or]
          exact fun found => found.elim short long
        exact ⟨_, parseRequest_incomplete none possible, .waiting none possible⟩
  · exact ⟨_, parseRequest_rejected possible, .dead possible⟩

/-- A long request whose extension is a short one was a short one already: the
extension can only add bytes behind the line break that ends the short form. -/
theorem short_of_extension (long : LongRequest request uri)
    (short : ShortRequest (request ++ more) other) : ShortRequest request other := by
  obtain ⟨version, rest, noSpace, _, same⟩ := long
  obtain ⟨tail, noCr', noSpace', extended⟩ := short
  have aligned : uri ++ byte ' ' :: (version ++ bytes "\r\n" ++ rest ++ more) =
      other ++ byte '\r' :: byte '\n' :: tail := by
    simpa [same, bytes] using extended
  rcases List.append_eq_append_iff.mp aligned with ⟨gap, left, right⟩ | ⟨gap, left, right⟩
  · -- the short URI would run past the space after the long one
    cases gap with
    | nil => simp [byte] at right
    | cons a gap =>
      obtain ⟨first, _⟩ := List.cons.inj right
      exact absurd (by simp [left, first]) noSpace'
  · match gap, right with
    | [], right => simp [byte] at right
    | [a], right => simp [byte] at right
    | a :: b :: gap, right =>
      simp only [List.cons_append, List.cons.injEq] at right
      obtain ⟨rfl, rfl, _⟩ := right
      exact ⟨gap ++ bytes " " ++ version ++ bytes "\r\n" ++ rest, noCr', noSpace', by
        simp [same, left, bytes]⟩

theorem ShortRequest.append (short : ShortRequest request uri) (more : List UInt8) :
    ShortRequest (request ++ more) uri := by
  obtain ⟨rest, noCr, noSpace, same⟩ := short
  exact ⟨rest ++ more, noCr, noSpace, by simp [same]⟩

theorem LongRequest.append (long : LongRequest request uri) (more : List UInt8) :
    LongRequest (request ++ more) uri := by
  obtain ⟨version, rest, noSpace, noCr, same⟩ := long
  exact ⟨version, rest ++ more, noSpace, noCr, by simp [same]⟩

theorem CanComplete.of_append (possible : CanComplete (request ++ more)) : CanComplete request := by
  obtain ⟨rest, uri, found⟩ := possible
  exact ⟨more ++ rest, uri, by simpa using found⟩

/-- A complete verdict is final: bytes after it change nothing. -/
theorem Parsed.append (parsed : Parsed request result) (complete : result.complete = true)
    (more : List UInt8) : Parsed (request ++ more) result := by
  cases parsed with
  | short found => exact .short (found.append more)
  | long none found =>
    refine .long (fun ⟨other, extended⟩ => ?_) (found.append more)
    exact none ⟨other, short_of_extension found extended⟩
  | waiting => cases complete
  | dead impossible => exact .dead fun possible => impossible possible.of_append

theorem Parsed.unique (first : Parsed request result) (second : Parsed request other) :
    result = other := by
  have parse (found : RequestParsingState) (parsed : Parsed request found) :
      parseRequest { request := request } = some found := by
    cases parsed with
    | short found => exact parseRequest_short found
    | long none found => exact parseRequest_long none found
    | waiting none possible => exact parseRequest_incomplete none possible
    | dead impossible => exact parseRequest_rejected impossible
  exact Option.some.inj ((parse result first).symm.trans (parse other second))

theorem parseRequest_append (parsed : parseRequest state = some result)
    (complete : result.complete = true) (more : List UInt8) :
    parseRequest { state with request := state.request ++ more } = some result := by
  obtain ⟨other, success, grammar⟩ := parseRequest_parsed state
  cases Option.some.inj (parsed.symm.trans success)
  obtain ⟨later, extended, final⟩ :=
    parseRequest_parsed { state with request := state.request ++ more }
  rw [extended, final.unique (grammar.append complete more)]

theorem baseUriOf_eq (uri : List UInt8) : baseUriOf uri = uri.takeWhile (· != byte '?') := by
  unfold baseUriOf
  rw [List.takeWhile_eq_take_findIdx_not]
  have same : (fun a => !(a != byte '?')) = (· == byte '?') := by
    funext a
    simp [bne]
  rw [same]
  cases found : uri.findIdx? (· == byte '?') with
  | none =>
    have past : uri.findIdx (· == byte '?') = uri.length :=
      List.findIdx_eq_length.mpr (List.findIdx?_eq_none_iff.mp found)
    simp [past]
  | some i => rw [(List.findIdx?_eq_some_iff_findIdx_eq.mp found).2]

/-- The longest front of a URI without a question mark. -/
def IsBaseUri (uri base : List UInt8) : Prop :=
  base <+: uri ∧ byte '?' ∉ base ∧ ∀ front, front <+: uri → byte '?' ∉ front → front <+: base

theorem baseUriOf_isBaseUri (uri : List UInt8) : IsBaseUri uri (baseUriOf uri) := by
  rw [baseUriOf_eq]
  refine ⟨List.takeWhile_prefix _, ?_, ?_⟩
  · intro member
    simpa using List.all_eq_true.mp List.all_takeWhile _ member
  · intro front leading free
    obtain ⟨rest, rfl⟩ := leading
    have kept : ∀ a ∈ front, (a != byte '?') = true := by
      intro a member
      have different : a ≠ byte '?' := fun same => free (same ▸ member)
      simpa using different
    rw [List.takeWhile_append_of_pos kept]
    exact List.prefix_append _ _

/-- The parser recognizes exactly the request grammar. Bytes of the short form
are a valid request with its URI; other bytes of the long form likewise; other
bytes that can still become a request are incomplete and valid; and all others
are complete and invalid. Every read of a captured group is in range. -/
theorem parseRequest_recognizes (state : ClientState) :
    (∀ uri, ShortRequest state.request uri → ∃ result, parseRequest state = some result ∧
      result.complete = true ∧ result.valid = true ∧ result.uri = uri ∧
      IsBaseUri uri result.baseUri) ∧
    ((¬ ∃ uri, ShortRequest state.request uri) → ∀ uri, LongRequest state.request uri →
      ∃ result, parseRequest state = some result ∧
        result.complete = true ∧ result.valid = true ∧ result.uri = uri ∧
        IsBaseUri uri result.baseUri) ∧
    ((¬ ∃ uri, ShortRequest state.request uri ∨ LongRequest state.request uri) →
      CanComplete state.request → ∃ result, parseRequest state = some result ∧
        result.complete = false ∧ result.valid = true) ∧
    ((¬ ∃ uri, ShortRequest state.request uri ∨ LongRequest state.request uri) →
      ¬ CanComplete state.request → ∃ result, parseRequest state = some result ∧
        result.complete = true ∧ result.valid = false) := by
  refine ⟨fun uri short => ?_, fun none uri long => ?_, fun none possible => ?_, fun _ dead => ?_⟩
  · exact ⟨_, parseRequest_short short, rfl, rfl, rfl, baseUriOf_isBaseUri uri⟩
  · exact ⟨_, parseRequest_long none long, rfl, rfl, rfl, baseUriOf_isBaseUri uri⟩
  · exact ⟨_, parseRequest_incomplete none possible, rfl, rfl⟩
  · exact ⟨_, parseRequest_rejected dead, rfl, rfl⟩

end MailruHttp.Server
