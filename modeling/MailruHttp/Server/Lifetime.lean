import MailruHttp.Library.Run
import MailruHttp.Server.ReadCases

/-! The life of a client handle, from the new connection to its close callback,
with a ledger of the bytes handed to `uv_write`. -/

namespace MailruHttp.Server

open Library Cmd

/-- Where a handle is. From `uv_close` to the close callback it is closing. -/
inductive Stage where
  | waiting
  /-- Passed to the thread pool. -/
  | placed
  | reading (state : ClientState)
  | closing (onClose : Bool)
  | closed
  /-- A callback did not return; that ends the whole process. -/
  | crashed

/-- A handle, the response bytes that libuv was given for it and those it has sent. -/
structure Handle where
  stage : Stage := .waiting
  given : Nat := 0
  sent : Nat := 0

/-- What happens to a handle: its connection, `on_accept`, one `on_read`, queued
bytes being sent, and the end of closing. -/
inductive Event where
  | connect (status uvAccept : Int)
  | accept
  | read (call : ReadCall)
  | progress (amount : Nat)
  | closed

/-- What libuv does before it runs the callback. -/
def Handle.enter (handle : Handle) : Event → Handle
  | .progress amount => { handle with sent := handle.sent + amount }
  | .closed => { handle with stage := .closed }
  | _ => handle

/-- The effects of the callback that libuv or the pool runs for an event. -/
def effectsOf (opts : Options) (handle : Handle) : Event → List Effect
  | .connect status uvAccept => (onConnect status uvAccept).effects
  | .read call =>
    match handle.stage with
    | .reading state => (onRead opts state call).effects
    | _ => []
  | .closed =>
    match handle.stage with
    | .closing true => onClose.effects
    | _ => []
  | _ => []

/-- The ledger after one call of the callback. A `uv_write` that succeeds sends
some bytes at once and queues the rest. -/
def Handle.record (handle : Handle) : Effect → Handle
  | .uvWrite buf answer =>
    if answer.result = 0 then
      { handle with
        given := handle.given + buf.len
        sent := handle.sent + min answer.accepted buf.len }
    else handle
  | .uvClose onClose => { handle with stage := .closing onClose }
  | .enqueue => { handle with stage := .placed }
  | _ => handle

@[simp] theorem record_fopen (handle : Handle) (path : List UInt8) :
    handle.record (.fopen path) = handle := rfl

@[simp] theorem record_piping (handle : Handle) (code : Int) (baseUri uri : List UInt8) :
    handle.record (.piping code baseUri uri) = handle := rfl

@[simp] theorem record_deleteResponse (handle : Handle) :
    handle.record .deleteResponse = handle := rfl

@[simp] theorem record_deleteState (handle : Handle) : handle.record .deleteState = handle := rfl

def Handle.after (opts : Options) (handle : Handle) (event : Event) : Handle :=
  (effectsOf opts handle event).foldl Handle.record (handle.enter event)

/-- The events a handle can take, and what they make of it. -/
inductive HandleStep (opts : Options) : Handle → Event → Handle → Prop where
  | connect (waiting : handle.stage = .waiting) :
      HandleStep opts handle (.connect status uvAccept) (handle.after opts (.connect status uvAccept))
  | accept (placed : handle.stage = .placed) :
      HandleStep opts handle .accept { handle with stage := .reading onAccept }
  | read (reading : handle.stage = .reading state)
      (returned : (onRead opts state call).result = .ok (some next)) :
      HandleStep opts handle (.read call)
        { handle.after opts (.read call) with stage := .reading next }
  | last (reading : handle.stage = .reading state)
      (returned : (onRead opts state call).result = .ok none) :
      HandleStep opts handle (.read call) (handle.after opts (.read call))
  | crash (reading : handle.stage = .reading state)
      (failed : (onRead opts state call).result = .error fault) :
      HandleStep opts handle (.read call) { handle.after opts (.read call) with stage := .crashed }
  | progress (reading : handle.stage = .reading state) (queued : handle.sent + amount ≤ handle.given) :
      HandleStep opts handle (.progress amount) (handle.after opts (.progress amount))
  | closed (closing : handle.stage = .closing callback) :
      HandleStep opts handle .closed (handle.after opts .closed)

/-- Some call among the effects meets the ledger in a bad state. -/
def Meets (bad : Handle → Effect → Prop) : Handle → List Effect → Prop
  | _, [] => False
  | handle, effect :: rest => bad handle effect ∨ Meets bad (handle.record effect) rest

/-- The callback for an event makes a bad call. -/
def Commits (opts : Options) (bad : Handle → Effect → Prop) (handle : Handle) (event : Event) : Prop :=
  Meets bad (handle.enter event) (effectsOf opts handle event)

/-- Before its answer a handle has no bytes on the ledger, and its bytes so far
wait for more. -/
def Tracked (handle : Handle) : Prop :=
  match handle.stage with
  | .waiting => handle.given = 0 ∧ handle.sent = 0
  | .placed => handle.given = 0 ∧ handle.sent = 0
  | .reading state =>
    state.responded = false → Waits state ∧ handle.given = 0 ∧ handle.sent = 0
  | _ => True

theorem tracked_initial : Tracked {} := ⟨rfl, rfl⟩

theorem effectsOf_connect (opts : Options) (handle : Handle) (status uvAccept : Int) :
    effectsOf opts handle (.connect status uvAccept) =
      if status = 0 then if uvAccept = 0 then [.enqueue] else [.uvClose false, .deleteHandle]
      else [] := onConnect_effects status uvAccept

theorem effectsOf_read (opts : Options) {handle : Handle} (reading : handle.stage = .reading state)
    (call : ReadCall) : effectsOf opts handle (.read call) = (onRead opts state call).effects := by
  simp [effectsOf, reading]

theorem effectsOf_closed (opts : Options) (handle : Handle) :
    effectsOf opts handle .closed = [] ∨ effectsOf opts handle .closed = [.deleteHandle] := by
  have callback : effectsOf opts handle .closed =
      match handle.stage with
      | .closing true => onClose.effects
      | _ => [] := rfl
  rw [callback]
  split
  · exact .inr rfl
  · exact .inl rfl

theorem stage_after_closed (opts : Options) (handle : Handle) :
    (handle.after opts .closed).stage = .closed := by
  rw [Handle.after]
  rcases effectsOf_closed opts handle with none | deleted
  · rw [none]
    rfl
  · rw [deleted]
    rfl

/-- Events without a callback of the server commit nothing. -/
theorem not_commits_of_effects {bad : Handle → Effect → Prop} {event : Event}
    (none : effectsOf opts handle event = []) : ¬ Commits opts bad handle event := by
  rw [Commits, none]
  exact id

theorem Tracked.untouched (tracked : Tracked handle) (waiting : handle.stage = .waiting) :
    handle.given = 0 ∧ handle.sent = 0 := by simpa only [Tracked, waiting] using tracked

theorem Tracked.waits (tracked : Tracked handle) (reading : handle.stage = .reading state)
    (fresh : state.responded = false) : Waits state ∧ handle.given = 0 ∧ handle.sent = 0 := by
  simp only [Tracked, reading] at tracked
  exact tracked fresh

theorem Tracked.read_case (tracked : Tracked handle) (reading : handle.stage = .reading state)
    (opts : Options) (call : ReadCall) : ReadCase opts state call :=
  Server.read_case opts state call fun fresh => (tracked.waits reading fresh).1

theorem tracked_connect (opts : Options) {handle : Handle} (tracked : Tracked handle)
    (waiting : handle.stage = .waiting) (status uvAccept : Int) :
    Tracked (handle.after opts (.connect status uvAccept)) := by
  rw [Handle.after, effectsOf_connect]
  split
  · split
    · exact tracked.untouched waiting
    · trivial
  · exact tracked

theorem tracked_read (opts : Options) {handle : Handle} (tracked : Tracked handle)
    (reading : handle.stage = .reading state)
    (returned : (onRead opts state call).result = .ok (some next)) :
    Tracked { handle.after opts (.read call) with stage := .reading next } := by
  intro fresh
  cases tracked.read_case reading opts call with
  | silent effects same kept waits =>
    cases Except.ok.inj (same.symm.trans returned)
    have ledger := tracked.waits reading (kept ▸ fresh)
    rw [Handle.after, effectsOf_read opts reading]
    rcases effects with none | freed
    · rw [none]
      exact ⟨waits fresh, ledger.2⟩
    · rw [freed]
      exact ⟨waits fresh, ledger.2⟩
  | answered _ same marked =>
    cases Except.ok.inj (same.symm.trans returned)
    rw [marked] at fresh
    cases fresh
  | faulted _ failed => cases failed.symm.trans returned
  | ended _ closed => cases closed.symm.trans returned
  | refused _ closed => cases closed.symm.trans returned

theorem tracked_last (opts : Options) {handle : Handle} (tracked : Tracked handle)
    (reading : handle.stage = .reading state)
    (returned : (onRead opts state call).result = .ok none) :
    (handle.after opts (.read call)).stage = .closing true := by
  rw [Handle.after, effectsOf_read opts reading]
  cases tracked.read_case reading opts call with
  | silent _ same => cases same.symm.trans returned
  | answered _ same => cases same.symm.trans returned
  | faulted _ failed => cases failed.symm.trans returned
  | ended effects => rw [effects]; rfl
  | refused effects => rw [effects]; rfl

theorem tracked_step {opts : Options} {handle next : Handle} {event : Event}
    (tracked : Tracked handle) (taken : HandleStep opts handle event next) : Tracked next := by
  cases taken with
  | connect waiting => exact tracked_connect opts tracked waiting _ _
  | accept placed =>
    have ledger : handle.given = 0 ∧ handle.sent = 0 := by
      simpa only [Tracked, placed] using tracked
    exact fun _ => ⟨waits_onAccept, ledger⟩
  | read reading returned => exact tracked_read opts tracked reading returned
  | last reading returned =>
    have closing := tracked_last opts tracked reading returned
    simp only [Tracked, closing]
  | crash => trivial
  | progress reading queued =>
    have stage (amount : Nat) : (handle.after opts (.progress amount)).stage = handle.stage := rfl
    simp only [Tracked, stage, reading]
    intro fresh
    obtain ⟨waits, given, sent⟩ := tracked.waits reading fresh
    refine ⟨waits, given, ?_⟩
    change handle.sent + _ = 0
    omega
  | closed closing =>
    rw [Handle.after]
    rcases effectsOf_closed opts handle with none | deleted
    · rw [none]
      trivial
    · rw [deleted]
      trivial

end MailruHttp.Server
