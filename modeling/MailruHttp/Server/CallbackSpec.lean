import MailruHttp.Server.Connection
import MailruHttp.Server.Grammar

/-! One specification for each callback function: what it emits and returns in
each case. Later proofs cite these and never unfold the callbacks. -/

namespace MailruHttp.Server

open Library Cmd

def Effect.opened? : Effect → Option (List UInt8)
  | .fopen path => some path
  | _ => none

def Effect.written? : Effect → Option UvBuf
  | .uvWrite buf _ => some buf
  | _ => none

/-- The paths passed to `fopen`, in order. -/
def opened (effects : List Effect) : List (List UInt8) := effects.filterMap Effect.opened?

/-- The buffers passed to `uv_write`, in order. -/
def written (effects : List Effect) : List UvBuf := effects.filterMap Effect.written?

@[simp] theorem opened_append (first second : List Effect) :
    opened (first ++ second) = opened first ++ opened second := List.filterMap_append

@[simp] theorem written_append (first second : List Effect) :
    written (first ++ second) = written first ++ written second := List.filterMap_append

theorem onConnect_effects (status uvAccept : Int) :
    (onConnect status uvAccept).effects =
      if status = 0 then if uvAccept = 0 then [.enqueue] else [.uvClose false, .deleteHandle]
      else [] := by
  unfold onConnect
  split
  · split <;> rfl
  · rfl

/-- The directory as it is glued to a base URI: one trailing slash or backslash
less, and never empty to begin with. -/
def folderOf (directory : List UInt8) : List UInt8 :=
  let folder := if directory.length = 0 then bytes "." else directory
  if folder.getLast? = some (byte '/') ∨ folder.getLast? = some (byte '\\') then
    folder.take (folder.length - 1)
  else folder

/-- The state whose base URI `/` has become the index page. -/
def indexed (state : RequestParsingState) : RequestParsingState :=
  if state.baseUri = bytes "/" then { state with baseUri := bytes "/index.html" } else state

/-- The path the C library sees for a request. -/
def requestPath (opts : Options) (state : RequestParsingState) : List UInt8 :=
  cString (folderOf opts.directory ++ (indexed state).baseUri)

theorem stateToResponse_incomplete (opts : Options) (host : Host) {state : RequestParsingState}
    (waits : state.complete = false) :
    stateToResponse opts host state = pure (respond400, state) := by
  simp [stateToResponse, waits]

/-- A string of this size can be made. -/
structure Host.Holds (host : Host) (size : Nat) : Prop where
  short : size ≤ host.maxSize
  memory : host.allocates size = true

theorem allocate_of_holds {host : Host} {size : Nat} (holds : host.Holds size) :
    allocate host size = pure ⟨⟩ := by
  rw [allocate, if_pos holds.short, if_pos holds.memory]

theorem allocate_fails {host : Host} {size : Nat} (refused : ¬ host.Holds size) :
    ∃ fault, allocate host size = Outcome.fail fault := by
  unfold allocate
  split
  · rename_i short
    split
    · rename_i memory
      exact absurd ⟨short, memory⟩ refused
    · exact ⟨_, rfl⟩
  · exact ⟨_, rfl⟩

/-- What the buffer holds once the file has been read into it. -/
def contentOf (file : File) : List UInt8 :=
  freadInto file (List.replicate (toSizeT file.ftell) 0) file.ftell

/-- There is room for the content of a file and for the message with it. -/
structure Host.HoldsFile (host : Host) (file : File) : Prop where
  content : host.Holds (toSizeT file.ftell)
  message : host.Holds (respond200 (contentOf file)).mBody.length

theorem respondFile_of_holds {host : Host} {file : File} (holds : host.HoldsFile file) :
    respondFile host file = pure (respond200 (contentOf file)) := by
  have message := allocate_of_holds holds.message
  unfold contentOf at message ⊢
  simp only [respondFile, resize, allocate_of_holds holds.content, Outcome.pure_bind, message]

theorem respondFile_fails {host : Host} {file : File} (refused : ¬ host.HoldsFile file) :
    ∃ fault, respondFile host file = Outcome.fail fault := by
  by_cases content : host.Holds (toSizeT file.ftell)
  · have message : ¬ host.Holds (respond200 (contentOf file)).mBody.length :=
      fun holds => refused ⟨content, holds⟩
    obtain ⟨fault, fails⟩ := allocate_fails message
    refine ⟨fault, ?_⟩
    unfold contentOf at fails
    simp only [respondFile, resize, allocate_of_holds content, Outcome.pure_bind, fails]
    rfl
  · obtain ⟨fault, fails⟩ := allocate_fails content
    refine ⟨fault, ?_⟩
    simp only [respondFile, resize, fails]
    rfl

theorem stateToResponse_complete (opts : Options) (host : Host) {state : RequestParsingState}
    (complete : state.complete = true) :
    stateToResponse opts host state = (do
      Outcome.emit (.fopen (requestPath opts state))
      match host.fopen (requestPath opts state) with
      | some file =>
        let response ← respondFile host file
        return (response, indexed state)
      | none => return (respond404, indexed state)) := by
  have unfolded : stateToResponse opts host state =
      if state.complete = false then pure (respond400, state)
      else do
        Outcome.emit (.fopen (requestPath opts state))
        match host.fopen (requestPath opts state) with
        | some file =>
          let response ← respondFile host file
          return (response, indexed state)
        | none => return (respond404, indexed state) := rfl
  rw [unfolded, complete, if_neg Bool.noConfusion]

section Complete

variable {opts : Options} {host : Host} {state : RequestParsingState}

theorem stateToResponse_missing (complete : state.complete = true)
    (missing : host.fopen (requestPath opts state) = none) :
    stateToResponse opts host state =
      ⟨[.fopen (requestPath opts state)], .ok (respond404, indexed state)⟩ := by
  rw [stateToResponse_complete opts host complete, missing]
  rfl

theorem stateToResponse_opens (complete : state.complete = true) {file : File}
    (opens : host.fopen (requestPath opts state) = some file) (holds : host.HoldsFile file) :
    stateToResponse opts host state =
      ⟨[.fopen (requestPath opts state)], .ok (respond200 (contentOf file), indexed state)⟩ := by
  rw [stateToResponse_complete opts host complete, opens]
  simp only [respondFile_of_holds holds]
  rfl

theorem stateToResponse_throws (complete : state.complete = true) {file : File}
    (opens : host.fopen (requestPath opts state) = some file) (refused : ¬ host.HoldsFile file) :
    ∃ fault, stateToResponse opts host state =
      ⟨[.fopen (requestPath opts state)], .error fault⟩ := by
  obtain ⟨fault, fails⟩ := respondFile_fails refused
  refine ⟨fault, ?_⟩
  rw [stateToResponse_complete opts host complete, opens]
  simp only [fails]
  rfl

/-- A file that has been read into a response found room on its way. -/
theorem holds_of_returned (complete : state.complete = true) {file : File}
    (opens : host.fopen (requestPath opts state) = some file)
    {value : Response × RequestParsingState}
    (returned : (stateToResponse opts host state).result = .ok value) : host.HoldsFile file := by
  by_contra refused
  obtain ⟨fault, thrown⟩ := stateToResponse_throws complete opens refused
  rw [thrown] at returned
  cases returned

end Complete

theorem effects_stateToResponse (opts : Options) (host : Host) {rps : RequestParsingState}
    (complete : rps.complete = true) :
    (stateToResponse opts host rps).effects = [.fopen (requestPath opts rps)] := by
  cases found : host.fopen (requestPath opts rps) with
  | none => rw [stateToResponse_missing complete found]
  | some file =>
    by_cases holds : host.HoldsFile file
    · rw [stateToResponse_opens complete found holds]
    · obtain ⟨fault, thrown⟩ := stateToResponse_throws complete found holds
      rw [thrown]

/-- Making a response opens a file and does nothing else. -/
theorem fopen_of_mem_stateToResponse {opts : Options} {host : Host} {rps : RequestParsingState}
    {effect : Effect} (member : effect ∈ (stateToResponse opts host rps).effects) :
    ∃ path, effect = .fopen path := by
  cases complete : rps.complete with
  | false =>
    rw [stateToResponse_incomplete opts host complete] at member
    exact absurd member List.not_mem_nil
  | true =>
    rw [effects_stateToResponse opts host complete] at member
    exact ⟨_, List.mem_singleton.mp member⟩

/-- An answer writes one buffer and deletes the response it belongs to. -/
def answer (opts : Options) (call : ReadCall) (state : ClientState) (rps : RequestParsingState) :
    Act ClientState := do
  let (response, rps) ← stateToResponse opts call.host rps
  Outcome.emit (.piping response.code (cString rps.baseUri) (cString rps.uri))
  Outcome.emit (.uvWrite response.outBuf call.write)
  Outcome.emit .deleteResponse
  return { state with responded := true }

theorem answer_of_ok {opts : Options} {call : ReadCall} {rps after : RequestParsingState}
    {response : Response} (state : ClientState)
    (success : (stateToResponse opts call.host rps).result = .ok (response, after)) :
    answer opts call state rps =
      ⟨(stateToResponse opts call.host rps).effects ++
        [.piping response.code (cString after.baseUri) (cString after.uri),
          .uvWrite response.outBuf call.write, .deleteResponse],
        .ok { state with responded := true }⟩ := by
  rw [answer, Outcome.bind_of_ok success]
  rfl

theorem answer_of_error {opts : Options} {call : ReadCall} {rps : RequestParsingState}
    {fault : Fault} (state : ClientState)
    (failure : (stateToResponse opts call.host rps).result = .error fault) :
    answer opts call state rps =
      ⟨(stateToResponse opts call.host rps).effects, .error fault⟩ := by
  rw [answer, Outcome.bind_of_error failure]

/-- A connection that has been answered is left alone. -/
theorem checkIfCanRespond_responded (opts : Options) (call : ReadCall) {state : ClientState}
    (responded : state.responded = true) (require : Bool) :
    checkIfCanRespond opts call state require = pure state := by
  simp [checkIfCanRespond, responded]

theorem checkIfCanRespond_waits (opts : Options) (call : ReadCall) {state : ClientState}
    (parsed : parseRequest state = some rps) (waits : rps.complete = false) :
    checkIfCanRespond opts call state false = pure state := by
  simp [checkIfCanRespond, parsed, respondTo, waits]

theorem checkIfCanRespond_answers (opts : Options) (call : ReadCall) {state : ClientState}
    (fresh : state.responded = false) (parsed : parseRequest state = some rps) {require : Bool}
    (due : require = true ∨ rps.complete = true) :
    checkIfCanRespond opts call state require = answer opts call state rps := by
  have responds : respondTo opts call.host rps require =
      (do return some (← stateToResponse opts call.host rps)) := by
    rcases due with required | complete
    · simp [respondTo, required]
    · cases require <;> simp [respondTo, complete]
  simp only [checkIfCanRespond, fresh, ↓reduceIte, parsed, Outcome.ofOption_some,
    Outcome.pure_bind, responds, answer, Outcome.bind_assoc]

/-- The state with the bytes of a call. -/
def ClientState.receive (state : ClientState) (call : ReadCall) : ClientState :=
  { state with request := state.request ++ call.delivered }

theorem append_eq_receive (state : ClientState) {call : ReadCall} (positive : 0 < call.nread) :
    state.append call.buf (toInt call.nread) = state.receive call := by
  have lower := call.fits
  have upper := call.narrow
  have same : toInt call.nread = call.nread := toInt_of_fits _ (by omega) (by omega)
  rw [ClientState.append, same]
  rfl

theorem onRead_data (opts : Options) (state : ClientState) {call : ReadCall}
    (positive : 0 < call.nread) :
    onRead opts state call = (do
      let state ← checkIfCanRespond opts call (state.receive call) false
      Outcome.emit .freeBuffer
      return some state) := by
  have data : ¬ call.nread < 0 := by omega
  simp only [onRead, data, ↓reduceIte, gt_iff_lt, positive, append_eq_receive state positive]
  rfl

theorem onRead_empty (opts : Options) (state : ClientState) {call : ReadCall}
    (zero : call.nread = 0) : onRead opts state call = pure (some state) := by
  simp [onRead, zero]

theorem onRead_end (opts : Options) (state : ClientState) {call : ReadCall}
    (negative : call.nread < 0) :
    onRead opts state call = (do
      let _ ← checkIfCanRespond opts call state true
      Outcome.emit .deleteState
      Outcome.emit (.uvClose true)
      return none) := by
  have positive : ¬ call.nread > 0 := by omega
  simp only [onRead, negative, positive, ↓reduceIte]
  rfl

theorem onReads_append (opts : Options) (start : Option ClientState) (first second : List ReadCall) :
    onReads opts start (first ++ second) = (do
      let middle ← onReads opts start first
      onReads opts middle second) := by
  induction first generalizing start with
  | nil => cases start <;> simp [onReads]
  | cons call first ih =>
    cases start with
    | none => cases second <;> simp [onReads]
    | some state =>
      simp only [List.cons_append, onReads, ih]
      rw [Outcome.bind_assoc]

end MailruHttp.Server
