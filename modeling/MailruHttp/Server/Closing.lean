import MailruHttp.Server.Ownership

/-! Whether a connection is closed before its response is out. The end of the
stream closes it at once, whatever is still queued. -/

namespace MailruHttp.Server

open Library Cmd

/-- `uv_close` cancels the queued bytes. -/
def CutsOff (handle : Handle) : Effect → Prop
  | .uvClose _ => handle.sent ≠ handle.given
  | _ => False

/-- When the stream ends, all that was given to `uv_write` has been sent, and a
connection without answer can send the whole 400 response at once. -/
def SentBeforeEnd (handle : Handle) : Event → Prop
  | .read call => call.nread < 0 → handle.sent = handle.given ∧
      ∀ state, handle.stage = .reading state → state.responded = false →
        respond400.outBuf.len ≤ call.write.accepted
  | _ => True

/-- A step in which the peer does not fail: each write succeeds, at once or later. -/
def HealthyStep (opts : Options) (handle : Handle) (event : Event) (next : Handle) : Prop :=
  HandleStep opts handle event next ∧ ∀ call, event = .read call → call.write.result = 0

theorem cutsOff_connect (opts : Options) {handle : Handle} (tracked : Tracked handle)
    (waiting : handle.stage = .waiting) (status uvAccept : Int) :
    ¬ Commits opts CutsOff handle (.connect status uvAccept) := by
  have ledger := tracked.untouched waiting
  rw [Commits, effectsOf_connect]
  split
  · split
    · simp [Meets, CutsOff]
    · simp [Meets, CutsOff, Handle.enter, ledger]
  · simp [Meets]

/-- A first write that goes out at once leaves nothing queued, and only that does. -/
theorem queued_after_write {handle : Handle} (ledger : handle.given = 0 ∧ handle.sent = 0)
    (buf : UvBuf) {answer : WriteAnswer} (success : answer.result = 0) :
    (handle.record (.uvWrite buf answer)).sent = (handle.record (.uvWrite buf answer)).given ↔
      buf.len ≤ answer.accepted := by
  unfold Handle.record
  simp only [success, ↓reduceIte, ledger.1, ledger.2]
  omega

theorem cutsOff_read_iff (opts : Options) {handle : Handle} (tracked : Tracked handle)
    (reading : handle.stage = .reading state) {call : ReadCall} (success : call.write.result = 0) :
    ¬ Commits opts CutsOff handle (.read call) ↔ SentBeforeEnd handle (.read call) := by
  unfold SentBeforeEnd
  rw [Commits, effectsOf_read opts reading, show handle.enter (.read call) = handle from rfl]
  cases tracked.read_case reading opts call with
  | silent effects _ _ _ data =>
    have open_ : ¬ call.nread < 0 := by omega
    rcases effects with none | freed
    · simp [none, Meets, open_]
    · simp [freed, Meets, CutsOff, open_]
  | answered effects _ _ _ data =>
    have open_ : ¬ call.nread < 0 := by omega
    simp [effects, Meets, CutsOff, open_]
  | faulted effects _ data =>
    have open_ : ¬ call.nread < 0 := by omega
    simp [effects, Meets, CutsOff, open_]
  | ended effects _ responded negative =>
    simp [effects, Meets, CutsOff, negative, reading, responded]
  | refused effects _ fresh negative =>
    obtain ⟨_, ledger⟩ := tracked.waits reading fresh
    have queued := queued_after_write ledger respond400.outBuf success
    simp [effects, Meets, CutsOff, negative, reading, fresh, queued, ledger]

theorem cutsOff_step_iff {opts : Options} {handle next : Handle} {event : Event}
    (tracked : Tracked handle) (taken : HealthyStep opts handle event next) :
    ¬ Commits opts CutsOff handle event ↔ SentBeforeEnd handle event := by
  obtain ⟨taken, success⟩ := taken
  cases taken with
  | connect waiting => exact iff_of_true (cutsOff_connect opts tracked waiting _ _) trivial
  | accept => exact iff_of_true (not_commits_of_effects rfl) trivial
  | read reading => exact cutsOff_read_iff opts tracked reading (success _ rfl)
  | last reading => exact cutsOff_read_iff opts tracked reading (success _ rfl)
  | crash reading => exact cutsOff_read_iff opts tracked reading (success _ rfl)
  | progress => exact iff_of_true (not_commits_of_effects rfl) trivial
  | closed =>
    rcases effectsOf_closed opts handle with none | deleted
    · simp [Commits, SentBeforeEnd, none, Meets]
    · simp [Commits, SentBeforeEnd, deleted, Meets, CutsOff]

/-- In every run of a connection whose peer does not fail, no close cuts a response
off exactly when each stream ends after its response is out, and an unanswered one
on a socket that takes the whole 400 response. -/
theorem never_cut_off_iff (opts : Options) {history : List (Handle × Event)} {handle : Handle}
    (run : Run (HealthyStep opts) {} history handle) :
    (∀ taken ∈ history, ¬ Commits opts CutsOff taken.1 taken.2) ↔
      ∀ taken ∈ history, SentBeforeEnd taken.1 taken.2 := by
  have keeps (state : Handle) (event : Event) (after : Handle) (tracked : Tracked state)
      (taken : HealthyStep opts state event after) : Tracked after := tracked_step tracked taken.1
  have agree (state : Handle) (event : Event) (after : Handle) (tracked : Tracked state)
      (taken : HealthyStep opts state event after) :
      ¬ Commits opts CutsOff state event ↔ SentBeforeEnd state event :=
    cutsOff_step_iff tracked taken
  exact run.forall_iff keeps agree tracked_initial

/-- The client answered with the index page, of whose 84 bytes ten went out. -/
def answeredHandle (sent : Nat) : Handle where
  stage := .reading { request := bytes "GET /\r\n", responded := true }
  given := 84
  sent := sent

theorem step_indexCall : HealthyStep {} { stage := .reading onAccept } (.read (indexCall 10))
    (answeredHandle 10) := by
  have length : (respond200 (bytes "hi")).outBuf.len = 84 := by decide
  have after : Handle.after {} { stage := .reading onAccept } (.read (indexCall 10)) =
      { stage := .reading onAccept, given := 84, sent := 10 } := by
    rw [Handle.after, effectsOf_read {} rfl, effects_indexCall]
    simp [Handle.enter, Handle.record, length]
  have taken : HandleStep {} { stage := .reading onAccept } (.read (indexCall 10)) _ := .read rfl rfl
  rw [after] at taken
  exact ⟨taken, fun _ same => by cases same; rfl⟩

/-- The run of a client that is accepted. -/
theorem accepted_run : Run (HealthyStep {}) {}
    [({}, .connect 0 0), ({ stage := .placed }, .accept)] { stage := .reading onAccept } := by
  have connected : HealthyStep {} {} (.connect 0 0) { stage := .placed } := ⟨.connect rfl, nofun⟩
  have accepted : HealthyStep {} { stage := .placed } .accept { stage := .reading onAccept } :=
    ⟨.accept rfl, nofun⟩
  exact (Run.start.next connected).next accepted

theorem step_eof (sent : Nat) : HealthyStep {} (answeredHandle sent) (.read (.eof greeting 0))
    ((answeredHandle sent).after {} (.read (.eof greeting 0))) :=
  ⟨.last rfl rfl, fun _ same => by cases same; rfl⟩

/-- The rest of the response goes out before the client ends its stream. -/
theorem never_cut_off_iff_index :
    ∃ history handle, Run (HealthyStep {}) {} history handle ∧
      (answeredHandle 84, Event.read (.eof greeting 0)) ∈ history ∧
      ∀ taken ∈ history, ¬ Commits {} CutsOff taken.1 taken.2 := by
  have sent : HealthyStep {} (answeredHandle 10) (.progress 74) (answeredHandle 84) :=
    ⟨.progress rfl (by decide), nofun⟩
  have last := ((accepted_run.next step_indexCall).next sent).next (step_eof 84)
  refine ⟨_, _, last, by simp, (never_cut_off_iff {} last).mpr ?_⟩
  intro taken member
  simp only [List.cons_append, List.nil_append, List.mem_cons, List.not_mem_nil, or_false] at member
  obtain rfl | rfl | rfl | rfl | rfl := member
  · trivial
  · trivial
  · exact fun negative => absurd negative (by decide)
  · trivial
  · exact fun _ => ⟨rfl, fun _ reading => by cases reading; exact nofun⟩

/-- A client that ends its stream early loses the rest of its response, and one
that never asked loses the 400 response that is written for it. -/
theorem response_cut_off :
    (∃ history handle, Run (HealthyStep {}) {} history handle ∧
      (answeredHandle 10, Event.read (.eof greeting 0)) ∈ history ∧
      Commits {} CutsOff (answeredHandle 10) (.read (.eof greeting 0))) ∧
    ∃ history handle, Run (HealthyStep {}) {} history handle ∧
      ({ stage := .reading onAccept }, Event.read (.eof greeting 10)) ∈ history ∧
      Commits {} CutsOff { stage := .reading onAccept } (.read (.eof greeting 10)) := by
  constructor
  · refine ⟨_, _, (accepted_run.next step_indexCall).next (step_eof 10), by simp, ?_⟩
    have queued : (10 : Nat) ≠ 84 := by decide
    exact .inr (.inl queued)
  · have last : HealthyStep {} { stage := .reading onAccept } (.read (.eof greeting 10)) _ :=
      ⟨.last rfl rfl, fun _ same => by cases same; rfl⟩
    refine ⟨_, _, accepted_run.next last, by simp, ?_⟩
    have tracked : Tracked { stage := .reading onAccept } := fun _ => ⟨waits_onAccept, rfl, rfl⟩
    by_contra none
    have finished := (cutsOff_read_iff {} tracked rfl rfl).mp none
    exact absurd ((finished (by decide)).2 onAccept rfl rfl) (by decide +kernel)

end MailruHttp.Server
