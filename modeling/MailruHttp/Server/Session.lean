import MailruHttp.Server.ReadBuffers

/-! The life of one client: whatever stage it has come to, its history is the one
the stage stands for, and its reads are those of a connection on its own. -/

namespace MailruHttp.Server

open Library Cmd

/-- The calls of `on_read` in a history of a handle. -/
def readCalls (history : List (Handle × Event)) : List ReadCall :=
  history.filterMap fun taken => taken.2.read?

/-- Everything the callbacks did with a handle. -/
def emitted (opts : Options) (history : List (Handle × Event)) : List Effect :=
  history.flatMap fun taken => effectsOf opts taken.1 taken.2

theorem readCalls_snoc (history : List (Handle × Event)) (handle : Handle) (event : Event) :
    readCalls (history ++ [(handle, event)]) = readCalls history ++ event.read?.toList := by
  unfold readCalls
  rw [List.filterMap_append]
  cases event <;> rfl

theorem emitted_snoc (opts : Options) (history : List (Handle × Event)) (handle : Handle)
    (event : Event) :
    emitted opts (history ++ [(handle, event)]) =
      emitted opts history ++ effectsOf opts handle event := by
  simp [emitted]

/-- What lies behind a handle at each stage: its reads, and everything that was
done with it from its connection on. -/
inductive Lived (opts : Options) : Stage → List ReadCall → List Effect → Prop where
  | waiting : Lived opts .waiting [] []
  | placed : Lived opts .placed [] [.enqueue]
  | reading (alone : onReads opts (some onAccept) calls = ⟨effects, .ok (some state)⟩) :
      Lived opts (.reading state) calls (.enqueue :: effects)
  | closing (before : (onReads opts (some onAccept) calls).result = .ok (some state))
      (alone : onReads opts (some onAccept) (calls ++ [final]) = ⟨effects, .ok none⟩) :
      Lived opts (.closing true) (calls ++ [final]) (.enqueue :: effects)
  | closed (before : (onReads opts (some onAccept) calls).result = .ok (some state))
      (alone : onReads opts (some onAccept) (calls ++ [final]) = ⟨effects, .ok none⟩) :
      Lived opts .closed (calls ++ [final]) (.enqueue :: effects ++ [.deleteHandle])
  | crashed (alone : onReads opts (some onAccept) calls = ⟨effects, .error fault⟩) :
      Lived opts .crashed calls (.enqueue :: effects)
  /-- The client of a connection that could not be accepted. -/
  | refused : Lived opts (.closing false) [] [.uvClose false, .deleteHandle]
  | gone : Lived opts .closed [] [.uvClose false, .deleteHandle]

section Step

variable {opts : Options} {handle : Handle} {calls : List ReadCall} {effects : List Effect}

theorem lived_connect (lived : Lived opts handle.stage calls effects)
    (waiting : handle.stage = .waiting) (status uvAccept : Int) :
    Lived opts (handle.after opts (.connect status uvAccept)).stage calls
      (effects ++ effectsOf opts handle (.connect status uvAccept)) := by
  rw [waiting] at lived
  cases lived
  rw [Handle.after, effectsOf_connect]
  split
  · split
    · exact .placed
    · exact .refused
  · change Lived opts handle.stage [] []
    rw [waiting]
    exact .waiting

/-- One more read is one more read of the connection on its own. -/
theorem lived_read {state : ClientState} (lived : Lived opts handle.stage calls effects)
    (reading : handle.stage = .reading state) (call : ReadCall) :
    ∃ alone, (onReads opts (some onAccept) calls).result = .ok (some state) ∧
      onReads opts (some onAccept) (calls ++ [call]) = ⟨alone, (onRead opts state call).result⟩ ∧
      effects ++ effectsOf opts handle (.read call) = .enqueue :: alone := by
  rw [reading] at lived
  cases lived with
  | reading alone =>
    have before : (onReads opts (some onAccept) calls).result = .ok (some state) := by rw [alone]
    refine ⟨_, before, onReads_snoc opts before call, ?_⟩
    rw [alone, effectsOf_read opts reading]
    rfl

theorem lived_closed {callback : Bool} (lived : Lived opts handle.stage calls effects)
    (closing : handle.stage = .closing callback) :
    Lived opts .closed calls (effects ++ effectsOf opts handle .closed) := by
  have called : effectsOf opts handle .closed = if callback then [.deleteHandle] else [] := by
    cases callback with
    | true => simp only [effectsOf, closing]; rfl
    | false => simp only [effectsOf, closing]; rfl
  rw [called]
  rw [closing] at lived
  cases lived with
  | closing before alone => exact .closed before alone
  | refused => exact .gone

theorem lived_step {next : Handle} {event : Event} (tracked : Tracked handle)
    (lived : Lived opts handle.stage calls effects) (taken : HandleStep opts handle event next) :
    Lived opts next.stage (calls ++ event.read?.toList) (effects ++ effectsOf opts handle event) := by
  cases taken with
  | connect waiting =>
    rw [show (Event.connect _ _).read?.toList = [] from rfl, List.append_nil]
    exact lived_connect lived waiting _ _
  | accept placed =>
    rw [placed] at lived
    cases lived
    exact .reading rfl
  | read reading returned =>
    obtain ⟨alone, -, same, emitted⟩ := lived_read lived reading _
    rw [emitted]
    exact .reading (by rw [← returned]; exact same)
  | last reading returned =>
    obtain ⟨alone, before, same, emitted⟩ := lived_read lived reading _
    rw [emitted, tracked_last opts tracked reading returned]
    exact .closing before (by rw [← returned]; exact same)
  | crash reading failed =>
    obtain ⟨alone, -, same, emitted⟩ := lived_read lived reading _
    rw [emitted]
    exact .crashed (by rw [← failed]; exact same)
  | progress reading queued =>
    rw [show (Event.progress _).read?.toList = [] from rfl, List.append_nil,
      show effectsOf opts handle (.progress _) = [] from rfl, List.append_nil]
    exact lived
  | closed closing =>
    rw [show Event.closed.read?.toList = [] from rfl, List.append_nil, stage_after_closed]
    exact lived_closed lived closing

end Step

theorem lived_run {opts : Options} {history : List (Handle × Event)} {handle : Handle}
    (run : Run (HandleStep opts) {} history handle) :
    Lived opts handle.stage (readCalls history) (emitted opts history) := by
  induction run with
  | start => exact .waiting
  | @next history handle event after earlier taken ih =>
    have tracked := earlier.invariant (fun _ _ _ tracked taken => tracked_step tracked taken)
      tracked_initial
    rw [readCalls_snoc, emitted_snoc]
    exact lived_step tracked ih taken

/-- The calls that give a client away or release what belongs to it. -/
def Effect.isMilestone : Effect → Bool
  | .enqueue | .deleteState | .uvClose _ | .deleteHandle => true
  | _ => false

def milestones (effects : List Effect) : List Effect := effects.filter Effect.isMilestone

@[simp] theorem milestones_append (first second : List Effect) :
    milestones (first ++ second) = milestones first ++ milestones second := List.filter_append ..

def Effect.isDeleteResponse : Effect → Bool
  | .deleteResponse => true
  | _ => false

/-- How many responses were deleted. -/
def deletedResponses (effects : List Effect) : Nat := effects.countP Effect.isDeleteResponse

@[simp] theorem deletedResponses_append (first second : List Effect) :
    deletedResponses (first ++ second) = deletedResponses first + deletedResponses second :=
  List.countP_append

/-- What the reads of a connection release by the time they have come to a result,
where its first state was answered or waits. -/
inductive Released (state : ClientState) : Act (Option ClientState) → Prop where
  | goesOn (milestones : milestones effects = [])
      (responses : deletedResponses effects = (written effects).length)
      (answers : state.responded.toNat + (written effects).length = next.responded.toNat)
      (waits : next.responded = false → Waits next) : Released state ⟨effects, .ok (some next)⟩
  | ends (milestones : milestones effects = [.deleteState, .uvClose true])
      (responses : deletedResponses effects = (written effects).length)
      (answers : state.responded.toNat + (written effects).length = 1) :
      Released state ⟨effects, .ok none⟩
  | fails (milestones : milestones effects = [])
      (responses : deletedResponses effects = (written effects).length)
      (answers : state.responded.toNat + (written effects).length ≤ 1) :
      Released state ⟨effects, .error fault⟩

theorem released_onRead (opts : Options) {state : ClientState} (call : ReadCall)
    (waits : state.responded = false → Waits state) : Released state (onRead opts state call) := by
  have whole : onRead opts state call =
      ⟨(onRead opts state call).effects, (onRead opts state call).result⟩ := rfl
  rw [whole]
  cases read_case opts state call waits with
  | silent effects returned same waits =>
    rw [returned]
    rcases effects with none | freed
    · rw [none]
      exact .goesOn rfl rfl (by rw [same]; rfl) waits
    · rw [freed]
      exact .goesOn rfl rfl (by rw [same]; rfl) waits
  | answered effects returned marked fresh =>
    rw [returned, effects]
    exact .goesOn rfl rfl (by rw [marked, fresh]; rfl) (fun unmarked => by simp [marked] at unmarked)
  | faulted effects failed =>
    rw [failed, effects]
    exact .fails rfl rfl (Bool.toNat_le _)
  | ended effects returned responded =>
    rw [returned, effects]
    exact .ends rfl rfl (by rw [responded]; rfl)
  | refused effects returned fresh =>
    rw [returned, effects]
    exact .ends rfl rfl (by rw [fresh]; rfl)

/-- What the first reads released and what the others do add up. -/
theorem Released.then {state next : ClientState} {effects : List Effect}
    {later : Act (Option ClientState)} (none : milestones effects = [])
    (responses : deletedResponses effects = (written effects).length)
    (answers : state.responded.toNat + (written effects).length = next.responded.toNat)
    (rest : Released next later) : Released state ⟨effects ++ later.effects, later.result⟩ := by
  have marks (more : List Effect) : milestones (effects ++ more) = milestones more := by
    rw [milestones_append, none, List.nil_append]
  have deleted {more : List Effect} (same : deletedResponses more = (written more).length) :
      deletedResponses (effects ++ more) = (written (effects ++ more)).length := by
    rw [deletedResponses_append, written_append, List.length_append, responses, same]
  have length (more : List Effect) : state.responded.toNat + (written (effects ++ more)).length =
      next.responded.toNat + (written more).length := by
    rw [written_append, List.length_append, ← Nat.add_assoc, answers]
  cases rest with
  | goesOn milestones responses answers waits =>
    exact .goesOn ((marks _).trans milestones) (deleted responses) ((length _).trans answers) waits
  | ends milestones responses answers =>
    exact .ends ((marks _).trans milestones) (deleted responses) ((length _).trans answers)
  | fails milestones responses answers =>
    exact .fails ((marks _).trans milestones) (deleted responses)
      (by rw [length]; exact answers)

theorem released_onReads (opts : Options) {state : ClientState} (calls : List ReadCall)
    (waits : state.responded = false → Waits state) :
    Released state (onReads opts (some state) calls) := by
  induction calls generalizing state with
  | nil => exact .goesOn rfl rfl rfl waits
  | cons call calls ih =>
    rw [onReads]
    have first := released_onRead opts call waits
    generalize onRead opts state call = outcome at first
    cases first with
    | goesOn none responses answers waits =>
      rw [Outcome.bind_of_ok rfl]
      exact .then none responses answers (ih waits)
    | ends marks responses answers =>
      have nothing : onReads opts none calls = pure none := by cases calls <;> rfl
      rw [Outcome.bind_of_ok rfl, nothing]
      simp only [Outcome.effects_pure, List.append_nil]
      exact .ends marks responses answers
    | fails none responses answers => exact .fails none responses answers

theorem milestones_enqueue (effects : List Effect) :
    milestones (.enqueue :: effects) = .enqueue :: milestones effects := rfl

theorem deletedResponses_enqueue (effects : List Effect) :
    deletedResponses (.enqueue :: effects) = deletedResponses effects := by
  simp [deletedResponses, Effect.isDeleteResponse]

theorem written_enqueue (effects : List Effect) : written (.enqueue :: effects) = written effects :=
  rfl

/-- What becomes of a client's memory and of its response, read off its history. -/
theorem Lived.released {opts : Options} {stage : Stage} {calls : List ReadCall}
    {effects : List Effect} (lived : Lived opts stage calls effects) :
    (milestones effects <+: [.enqueue, .deleteState, .uvClose true, .deleteHandle] ∨
      milestones effects = [.uvClose false, .deleteHandle]) ∧
    deletedResponses effects = (written effects).length ∧ (written effects).length ≤ 1 ∧
    (stage = .closed →
      milestones effects = [.enqueue, .deleteState, .uvClose true, .deleteHandle] ∧
          (written effects).length = 1 ∨
        milestones effects = [.uvClose false, .deleteHandle] ∧ written effects = []) := by
  have reads : Released onAccept (onReads opts (some onAccept) calls) :=
    released_onReads opts calls fun _ => waits_onAccept
  have fresh : onAccept.responded.toNat = 0 := rfl
  cases lived with
  | waiting => exact ⟨.inl (List.nil_prefix ..), rfl, Nat.zero_le 1, nofun⟩
  | placed => exact ⟨.inl ⟨_, rfl⟩, rfl, Nat.zero_le 1, nofun⟩
  | @reading _ _ state alone =>
    rw [alone] at reads
    cases reads with
    | goesOn none responses answers waits =>
      have flag := Bool.toNat_le state.responded
      rw [milestones_enqueue, none, deletedResponses_enqueue, written_enqueue]
      exact ⟨.inl ⟨_, rfl⟩, responses, by omega, nofun⟩
  | closing before alone =>
    rw [alone] at reads
    cases reads with
    | ends marks responses answers =>
      rw [milestones_enqueue, marks, deletedResponses_enqueue, written_enqueue]
      exact ⟨.inl ⟨[.deleteHandle], rfl⟩, responses, by omega, nofun⟩
  | @closed _ _ _ effects before alone =>
    rw [alone] at reads
    cases reads with
    | ends marks responses answers =>
      have once : (written effects).length = 1 := by omega
      have all : milestones (.enqueue :: effects ++ [.deleteHandle]) =
          [.enqueue, .deleteState, .uvClose true, .deleteHandle] := by
        rw [milestones_append, milestones_enqueue, marks]
        rfl
      have same : written (.enqueue :: effects ++ [.deleteHandle]) = written effects := by
        rw [written_append, written_enqueue]
        exact List.append_nil _
      rw [all, same, deletedResponses_append, deletedResponses_enqueue]
      exact ⟨.inl (List.prefix_refl _), responses, Nat.le_of_eq once, fun _ => .inl ⟨rfl, once⟩⟩
  | crashed alone =>
    rw [alone] at reads
    cases reads with
    | fails none responses answers =>
      rw [milestones_enqueue, none, deletedResponses_enqueue, written_enqueue]
      exact ⟨.inl ⟨_, rfl⟩, responses, by omega, nofun⟩
  | refused => exact ⟨.inr rfl, rfl, Nat.zero_le 1, nofun⟩
  | gone => exact ⟨.inr rfl, rfl, Nat.zero_le 1, fun _ => .inr ⟨rfl, rfl⟩⟩

end MailruHttp.Server
