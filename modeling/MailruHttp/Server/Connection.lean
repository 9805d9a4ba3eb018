import MailruHttp.Server.StateToResponse

/-! The callbacks of one connection, from `server/on_connect.cpp`. -/

namespace MailruHttp.Server

open Library Cmd

/-- One `on_read` call with the outside world's answers during it. libuv hands
back the buffer it asked `on_memory_request` for, 64 KiB in practice; the code
needs no more than that its size is an `int`. -/
structure ReadCall where
  nread : Int
  buf : List UInt8
  fits : nread ≤ buf.length
  narrow : buf.length < 2 ^ 31
  host : Host
  write : WriteAnswer

/-- The bytes a call delivers. -/
def ReadCall.delivered (call : ReadCall) : List UInt8 := call.buf.take call.nread.toNat

/-- The new state of an accepted client; reading starts with it. -/
def onAccept : ClientState := {}

/-- The callback for a new connection: it is accepted into the thread pool, or
its handle is closed and deleted. Failed connections only reach the log. -/
def onConnect (status uvAccept : Int) : Act Unit := do
  if status = 0 then
    if uvAccept = 0 then Outcome.emit .enqueue
    else
      Outcome.emit (.uvClose false)
      Outcome.emit .deleteHandle
  else return

def onClose : Act Unit := Outcome.emit .deleteHandle

/-- The response of `check_if_can_respond`: always when required, otherwise for
a complete request only. -/
def respondTo (opts : Options) (host : Host) (rps : RequestParsingState) (require : Bool) :
    Act (Option (Response × RequestParsingState)) := do
  if require then return some (← stateToResponse opts host rps)
  else if rps.complete then return some (← stateToResponse opts host rps)
  else return none

def checkIfCanRespond (opts : Options) (call : ReadCall) (state : ClientState) (require : Bool) :
    Act ClientState := do
  if state.responded = false then
    let rps ← Outcome.ofOption .outOfRange (parseRequest state)
    match ← respondTo opts call.host rps require with
    | some (response, rps) =>
      let state := { state with responded := true }
      Outcome.emit (.piping response.code (cString rps.baseUri) (cString rps.uri))
      Outcome.emit (.uvWrite response.outBuf call.write)
      Outcome.emit .deleteResponse
      return state
    | none => return state
  else return state

/-- The state afterwards; `none` when the callback deleted it and closed the
handle. The data pointer of an accepted client and the buffer are never null. -/
def onRead (opts : Options) (state : ClientState) (call : ReadCall) :
    Act (Option ClientState) := do
  let next ←
    if call.nread < 0 then do
      let _ ← checkIfCanRespond opts call state true
      Outcome.emit .deleteState
      Outcome.emit (.uvClose true)
      pure none
    else if call.nread > 0 then do
      let state := state.append call.buf (toInt call.nread)
      let state ← checkIfCanRespond opts call state false
      pure (some state)
    else pure (some state)
  if call.nread > 0 then
    Outcome.emit .freeBuffer
    return next
  else return next

/-- The calls libuv makes on one connection, in order; none after it is closed. -/
def onReads (opts : Options) : Option ClientState → List ReadCall → Act (Option ClientState)
  | none, _ => pure none
  | some state, [] => pure (some state)
  | some state, call :: calls => do
    let next ← onRead opts state call
    onReads opts next calls

/-- A regular file read to its end. -/
def File.ofBytes (content : List UInt8) (small : content.length < 2 ^ 63) : File where
  ftell := content.length
  ftell_range := by omega
  fread size := content.take size
  fread_le size := List.length_take_le size content

/-- A file system with one file that opens. -/
def Host.single (path : List UInt8) (file : File) : Host where
  fopen other := if other = path then some file else none
  maxSize := 2 ^ 62
  maxSize_lt := by decide

/-- A call that fills its buffer; each write sends up to `sends` bytes at once. -/
def ReadCall.data (host : Host) (sends : Nat) (buf : List UInt8) (narrow : buf.length < 2 ^ 31) :
    ReadCall where
  nread := buf.length
  buf := buf
  fits := Int.le_refl _
  narrow := narrow
  host := host
  write := { accepted := sends }

/-- The call at the end of the stream, where `nread` is `UV_EOF`. -/
def ReadCall.eof (host : Host) (sends : Nat) : ReadCall where
  nread := -4095
  buf := []
  fits := by decide
  narrow := by decide
  host := host
  write := { accepted := sends }

end MailruHttp.Server
