import MailruHttp.Cmd.Options
import MailruHttp.Library.Outcome
import MailruHttp.Server.ParseRequest
import MailruHttp.Server.Response

/-! Turning a parsed request into a response. The C library and libuv answer
through parameters; what the callbacks ask of them are effects. -/

namespace MailruHttp.Server

open Library Cmd

/-- What stdio answers about an opened file: a `long` position at the end, and
the bytes delivered for a requested count, never more than asked for. -/
structure File where
  ftell : Int
  ftell_range : -(2 ^ 63) ≤ ftell ∧ ftell < 2 ^ 63
  fread : Nat → List UInt8
  fread_le : ∀ size, (fread size).length ≤ size

/-- The C and C++ libraries during one callback: which paths open, the `max_size`
of a string, and the sizes for which the strings that grow with a file find memory. -/
structure Host where
  fopen : List UInt8 → Option File
  maxSize : Nat
  maxSize_lt : maxSize < 2 ^ 63
  allocates : Nat → Bool := fun _ => true

/-- The result of one `uv_write` and the bytes it sends at once. -/
structure WriteAnswer where
  result : Int := 0
  accepted : Nat

/-- The calls of a callback that others can observe. -/
inductive Effect where
  | fopen (path : List UInt8)
  /-- The log line about the response to be sent. -/
  | piping (code : Int) (baseUri uri : List UInt8)
  | uvWrite (buf : UvBuf) (answer : WriteAnswer)
  | deleteResponse
  | deleteState
  /-- `uv_close`, with `on_close` as its callback or with none. -/
  | uvClose (onClose : Bool)
  | deleteHandle
  | freeBuffer
  /-- `ThreadPool::enqueue` of the client. -/
  | enqueue

/-- Ways a callback does not return. -/
inductive Fault where
  /-- An access out of range. -/
  | outOfRange
  /-- `std::length_error` from a string that would be too long. -/
  | lengthError
  /-- `std::bad_alloc` from one for which there is no memory. -/
  | badAlloc
  deriving DecidableEq, Repr

/-- The computations of the callbacks. -/
abbrev Act (α : Type) := Outcome Effect Fault α

/-- Room for a string of this size. -/
def allocate (host : Host) (size : Nat) : Act PUnit :=
  if size ≤ host.maxSize then
    if host.allocates size then pure ⟨⟩ else Outcome.fail .badAlloc
  else Outcome.fail .lengthError

/-- `content.resize(filesize)` on an empty string; the `long` becomes a `size_t`. -/
def resize (host : Host) (filesize : Int) : Act (List UInt8) := do
  allocate host (toSizeT filesize)
  return List.replicate (toSizeT filesize) 0

/-- `fread` overwrites the front of the buffer with what it delivers. -/
def freadInto (file : File) (content : List UInt8) (filesize : Int) : List UInt8 :=
  let delivered := file.fread (toSizeT filesize)
  delivered ++ content.drop delivered.length

/-- The block that reads an opened file into a response. The stream that puts the
message together, its `str()` and `m_body` each hold all of it. A stream without
memory would cut the message instead of throwing; the callback ends here as well. -/
def respondFile (host : Host) (file : File) : Act Response := do
  let content ← resize host file.ftell
  let response := respond200 (freadInto file content file.ftell)
  allocate host response.mBody.length
  return response

/-- The response, and the request state whose base URI may have been replaced. -/
def stateToResponse (opts : Options) (host : Host) (state : RequestParsingState) :
    Act (Response × RequestParsingState) := do
  if state.complete = false then return (respond400, state)
  else
    let folder := opts.directory
    let folder := if folder.length = 0 then bytes "." else folder
    let folder :=
      if folder.getLast? = some (byte '/') ∨ folder.getLast? = some (byte '\\') then
        folder.take (folder.length - 1)
      else folder
    let state :=
      if state.baseUri = bytes "/" then { state with baseUri := bytes "/index.html" } else state
    let pt := folder ++ state.baseUri
    Outcome.emit (.fopen (cString pt))
    match host.fopen (cString pt) with
    | some file =>
      let response ← respondFile host file
      return (response, state)
    | none => return (respond404, state)

end MailruHttp.Server
