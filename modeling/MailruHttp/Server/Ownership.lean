import Mathlib.Logic.Function.Basic
import MailruHttp.Server.Answering
import MailruHttp.Server.Lifetime

/-! What is deleted while libuv owns it, over all connections of a server. The
response is deleted right after `uv_write`, and a client that could not be
accepted right after `uv_close`. -/

namespace MailruHttp.Server

open Library Cmd

universe u

/-- `uv_write` owns the response until all of it is sent, `uv_close` the handle
until the close callback. -/
def ReleasesOwned (handle : Handle) : Effect → Prop
  | .deleteResponse => handle.sent < handle.given
  | .deleteHandle => ∃ callback, handle.stage = .closing callback
  | _ => False

/-- libuv accepts every client it reports, and a write that succeeds sends all
its bytes at once. -/
def LeavesNothing (opts : Options) (handle : Handle) : Event → Prop
  | .connect status uvAccept => status = 0 → uvAccept = 0
  | event => ∀ buf answer, .uvWrite buf answer ∈ effectsOf opts handle event →
      answer.result = 0 → buf.len ≤ answer.accepted

theorem releases_connect_iff (opts : Options) (handle : Handle) (status uvAccept : Int) :
    ¬ Commits opts ReleasesOwned handle (.connect status uvAccept) ↔ (status = 0 → uvAccept = 0) := by
  rw [Commits, effectsOf_connect]
  by_cases connected : status = 0
  · by_cases accepted : uvAccept = 0
    · simp [connected, accepted, Meets, ReleasesOwned]
    · simp [connected, accepted, Meets, ReleasesOwned, Handle.record]
  · simp [connected, Meets]

/-- The response is owned after its write exactly if that left bytes behind. -/
theorem owned_after_write {handle : Handle} (ledger : handle.given = 0 ∧ handle.sent = 0)
    (buf : UvBuf) (answer : WriteAnswer) :
    (handle.record (.uvWrite buf answer)).sent < (handle.record (.uvWrite buf answer)).given ↔
      ¬ (answer.result = 0 → buf.len ≤ answer.accepted) := by
  unfold Handle.record
  by_cases success : answer.result = 0
  · simp only [success, ↓reduceIte, ledger.1, ledger.2, true_imp_iff]
    omega
  · simp [success, ledger]

theorem releases_read_iff (opts : Options) {handle : Handle} (tracked : Tracked handle)
    (reading : handle.stage = .reading state) (call : ReadCall) :
    ¬ Commits opts ReleasesOwned handle (.read call) ↔ LeavesNothing opts handle (.read call) := by
  have leaves : LeavesNothing opts handle (.read call) ↔
      ∀ buf answer, .uvWrite buf answer ∈ (onRead opts state call).effects →
        answer.result = 0 → buf.len ≤ answer.accepted := by
    rw [← effectsOf_read opts reading]
    rfl
  rw [leaves, Commits, effectsOf_read opts reading,
    show handle.enter (.read call) = handle from rfl]
  cases tracked.read_case reading opts call with
  | silent effects =>
    rcases effects with none | freed
    · simp [none, Meets]
    · simp [freed, Meets, ReleasesOwned]
  | faulted effects => simp [effects, Meets, ReleasesOwned]
  | ended effects => simp [effects, Meets, ReleasesOwned]
  | answered effects _ _ fresh =>
    have owned := owned_after_write (tracked.waits reading fresh).2
    simp [effects, Meets, ReleasesOwned, owned]
  | refused effects _ fresh =>
    have owned := owned_after_write (tracked.waits reading fresh).2
    simp [effects, Meets, ReleasesOwned, owned]

/-- Whether a step deletes something owned depends on libuv's answers in it alone. -/
theorem releases_step_iff {opts : Options} {handle next : Handle} {event : Event}
    (tracked : Tracked handle) (taken : HandleStep opts handle event next) :
    ¬ Commits opts ReleasesOwned handle event ↔ LeavesNothing opts handle event := by
  cases taken with
  | connect => exact releases_connect_iff opts handle _ _
  | accept => exact iff_of_true (not_commits_of_effects rfl) nofun
  | read reading => exact releases_read_iff opts tracked reading _
  | last reading => exact releases_read_iff opts tracked reading _
  | crash reading => exact releases_read_iff opts tracked reading _
  | progress => exact iff_of_true (not_commits_of_effects rfl) nofun
  | closed =>
    rcases effectsOf_closed opts handle with none | deleted
    · simp [Commits, LeavesNothing, none, Meets]
    · simp [Commits, LeavesNothing, deleted, Meets, ReleasesOwned, Handle.enter]

/-- The connections of a server, by name. Their events interleave freely until a
callback does not return. -/
inductive ServerStep {Id : Type u} [DecidableEq Id] (opts : Options) :
    (Id → Handle) → Id × Event → (Id → Handle) → Prop where
  | step (alive : ∀ other, (handles other).stage ≠ .crashed)
      (taken : HandleStep opts (handles client) event next) :
      ServerStep opts handles (client, event) (Function.update handles client next)

/-- In every run of a server, no step deletes what libuv owns exactly when libuv
accepts every client and finishes every successful write at once. -/
theorem nothing_owned_released_iff {Id : Type u} [DecidableEq Id] (opts : Options)
    {history : List ((Id → Handle) × Id × Event)} {handles : Id → Handle}
    (run : Run (ServerStep opts) (fun _ : Id => ({} : Handle)) history handles) :
    (∀ taken ∈ history, ¬ Commits opts ReleasesOwned (taken.1 taken.2.1) taken.2.2) ↔
      ∀ taken ∈ history, LeavesNothing opts (taken.1 taken.2.1) taken.2.2 := by
  have keeps (state : Id → Handle) (label : Id × Event) (after : Id → Handle)
      (tracked : ∀ client, Tracked (state client)) (taken : ServerStep opts state label after) :
      ∀ client, Tracked (after client) := by
    obtain ⟨_, taken⟩ := taken
    intro other
    rw [Function.update_apply]
    split
    · exact tracked_step (tracked _) taken
    · exact tracked other
  have agree (state : Id → Handle) (label : Id × Event) (after : Id → Handle)
      (tracked : ∀ client, Tracked (state client)) (taken : ServerStep opts state label after) :
      ¬ Commits opts ReleasesOwned (state label.1) label.2 ↔
        LeavesNothing opts (state label.1) label.2 := by
    obtain ⟨_, taken⟩ := taken
    exact releases_step_iff (tracked _) taken
  exact run.forall_iff keeps agree (fun _ => tracked_initial)

/-- The request for the index page, on a socket that sends `sends` bytes at once. -/
def indexCall (sends : Nat) : ReadCall := .data greeting sends (bytes "GET /\r\n") (by decide)

theorem effects_indexCall (sends : Nat) :
    (onRead {} onAccept (indexCall sends)).effects =
      [.fopen (bytes "./index.html"), .piping 200 (bytes "/index.html") (bytes "/"),
        .uvWrite (respond200 (bytes "hi")).outBuf { accepted := sends }, .deleteResponse,
        .freeBuffer] := rfl

/-- A server with one client takes the steps of that client. -/
theorem serverStep_single {handle next : Handle} (alive : handle.stage ≠ .crashed)
    (taken : HandleStep opts handle event next) :
    ServerStep opts (fun _ : Unit => handle) ((), event) (fun _ => next) := by
  have same : (fun _ : Unit => next) = Function.update (fun _ => handle) () next := rfl
  rw [same]
  exact .step (fun _ => alive) taken

/-- The run of a client that is accepted and asks for the index page. -/
theorem index_run (sends : Nat) :
    ∃ history handles, Run (ServerStep {}) (fun _ : Unit => {}) history handles ∧
      history = [(fun _ => {}, (), .connect 0 0), (fun _ => { stage := .placed }, (), .accept),
        (fun _ => { stage := .reading onAccept }, (), .read (indexCall sends))] := by
  have connected : Run (ServerStep {}) (fun _ : Unit => {}) _ _ := Run.start.next
    (serverStep_single nofun (.connect rfl : HandleStep {} _ (.connect 0 0) _))
  have accepted := connected.next (serverStep_single nofun (.accept rfl))
  have answered := accepted.next (serverStep_single nofun
    (.read rfl rfl : HandleStep {} _ (.read (indexCall sends)) _))
  exact ⟨_, _, answered, rfl⟩

/-- Nothing owned is deleted when the response goes out at once. -/
theorem nothing_owned_released_iff_index :
    ∃ history handles, Run (ServerStep {}) (fun _ : Unit => {}) history handles ∧
      history.length = 3 ∧
      ∀ taken ∈ history, ¬ Commits {} ReleasesOwned (taken.1 taken.2.1) taken.2.2 := by
  obtain ⟨history, handles, run, same⟩ := index_run 4096
  refine ⟨history, handles, run, by rw [same]; rfl, (nothing_owned_released_iff {} run).mpr ?_⟩
  intro taken member
  simp only [same, List.mem_cons, List.not_mem_nil, or_false] at member
  obtain rfl | rfl | rfl := member
  · exact fun _ => rfl
  · exact nofun
  · intro buf answer member success
    change Effect.uvWrite buf answer ∈ (onRead {} onAccept (indexCall 4096)).effects at member
    rw [effects_indexCall] at member
    obtain ⟨rfl, rfl⟩ : buf = (respond200 (bytes "hi")).outBuf ∧ answer = { accepted := 4096 } := by
      simpa using member
    decide

/-- A client that cannot be accepted is deleted while it is closing, and a response
that does not go out at once is deleted while libuv still sends it. -/
theorem owned_released :
    (∃ handles, Run (ServerStep {}) (fun _ : Unit => {})
      [(fun _ => {}, (), .connect 0 (-24))] handles) ∧
    Commits {} ReleasesOwned {} (.connect 0 (-24)) ∧
    ∃ history handles, Run (ServerStep {}) (fun _ : Unit => {}) history handles ∧
      ∃ taken ∈ history, taken.2.2 = .read (indexCall 10) ∧
        Commits {} ReleasesOwned (taken.1 taken.2.1) taken.2.2 := by
  refine ⟨?_, ?_, ?_⟩
  · have alive : ({} : Handle).stage ≠ .crashed := nofun
    have refused := Run.start.next (serverStep_single alive
      (.connect rfl : HandleStep {} {} (.connect 0 (-24)) _))
    exact ⟨_, refused⟩
  · exact .inr (.inl ⟨false, rfl⟩)
  · obtain ⟨history, handles, run, same⟩ := index_run 10
    refine ⟨history, handles, run, _, by rw [same]; exact List.mem_of_getLast? rfl, rfl, ?_⟩
    have tracked : Tracked { stage := .reading onAccept } := fun _ => ⟨waits_onAccept, rfl, rfl⟩
    by_contra none
    have leaves := (releases_read_iff {} tracked rfl (indexCall 10)).mp none
    have whole := leaves (respond200 (bytes "hi")).outBuf { accepted := 10 }
      (by rw [effectsOf_read {} rfl, effects_indexCall]; simp) rfl
    exact absurd whole (by decide)

end MailruHttp.Server
