import MailruHttp.Regex.DFA

/-! The request parser of `server/server.cpp` and the client state it reads. -/

namespace MailruHttp.Server

open Regex

structure ClientState where
  request : List UInt8 := []
  responded : Bool := false
  deriving DecidableEq, Repr

/-- Copies the first `length` bytes of the buffer; a negative length copies none. -/
def ClientState.append (state : ClientState) (buf : List UInt8) (length : Int) : ClientState :=
  { state with request := state.request ++ buf.take length.toNat }

structure RequestParsingState where
  uri : List UInt8 := []
  baseUri : List UInt8 := []
  valid : Bool := false
  complete : Bool := false
  deriving DecidableEq, Repr

/-- `HTTP_09_GET_string` as `initParser` builds it. -/
def http09GetString : Option DFA := do
  let (dfa, edge) ← DFA.stringShouldContain {} (bytes "GET ")
  let dfa := dfa.modifyEdge edge Edge.startCaptureGroup
  let (dfa, edge) := dfa.zeroOrInfinityNot2 (byte '\r') (byte ' ')
  let dfa := dfa.modifyEdge edge Edge.endCaptureGroup
  dfa.stringMustEndWidth (byte '\n')

/-- `HTTP_10_GET_string` as `initParser` builds it. -/
def http10GetString : Option DFA := do
  let (dfa, edge) ← DFA.stringShouldContain {} (bytes "GET ")
  let dfa := dfa.modifyEdge edge Edge.startCaptureGroup
  let (dfa, edge) := dfa.zeroOrInfinityNot (byte ' ')
  let dfa := dfa.modifyEdge edge Edge.endCaptureGroup
  let (dfa, _) := dfa.zeroOrInfinityNot (byte '\r')
  dfa.stringMustEndWidth (byte '\n')

/-- The URI up to its first question mark. -/
def baseUriOf (uri : List UInt8) : List UInt8 :=
  match uri.findIdx? (· == byte '?') with
  | some qmark => uri.take qmark
  | none => uri

/-- The block that takes the URI from a full match, the same for both automata.
`none` is a read of `Result[1]` out of range. -/
def takeUri (found : MatchResult) (result : RequestParsingState) : Option RequestParsingState :=
  if found.type = .mrtFull then do
    let uri ← found.result[1]?
    return { result with complete := true, uri := uri }
  else some result

def parseRequest (state : ClientState) : Option RequestParsingState := do
  let result : RequestParsingState := { complete := false, valid := false }
  if state.request.length ≠ 0 then
    let match09 ← DFA.matchInt (← http09GetString) state.request
    let match10 ← DFA.matchInt (← http10GetString) state.request
    if match09.type ≠ .mrtError ∨ match10.type ≠ .mrtError then
      let result := { result with valid := true }
      -- the HTTP 0.9 match comes second and overwrites the HTTP 1.0 one
      let result ← takeUri match10 result
      let result ← takeUri match09 result
      if result.complete then return { result with baseUri := baseUriOf result.uri }
      else return result
    else return { result with complete := true, valid := false }
  else return { result with valid := true }

end MailruHttp.Server
