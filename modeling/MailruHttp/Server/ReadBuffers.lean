import MailruHttp.Server.Ownership

/-! The buffers of `on_memory_request`, over all connections of a server. libuv
asks for one before each `on_read` and passes it to that call. -/

namespace MailruHttp.Server

open Library Cmd

universe u

def Effect.isFreeBuffer : Effect → Bool
  | .freeBuffer => true
  | _ => false

/-- How often a callback frees the buffer it was passed. -/
def frees (effects : List Effect) : Nat := effects.countP Effect.isFreeBuffer

@[simp] theorem frees_nil : frees [] = 0 := rfl

@[simp] theorem frees_append (first second : List Effect) :
    frees (first ++ second) = frees first + frees second := List.countP_append

/-- Buffers are numbered as they are allocated; `released` has one entry for each
time a buffer is freed. -/
structure Buffers where
  allocated : Nat := 0
  released : List Nat := []

/-- A new buffer, and its number. -/
def Buffers.onMemoryRequest (buffers : Buffers) : Nat × Buffers :=
  (buffers.allocated, { buffers with allocated := buffers.allocated + 1 })

/-- The effects of an `on_read` that was passed the buffer. -/
def Buffers.free (buffers : Buffers) (buffer : Nat) (effects : List Effect) : Buffers :=
  { buffers with released := buffers.released ++ List.replicate (frees effects) buffer }

/-- One pair: a buffer is requested and passed to one `on_read`. -/
def Buffers.read (buffers : Buffers) (effects : List Effect) : Buffers :=
  let (buffer, buffers) := buffers.onMemoryRequest
  buffers.free buffer effects

@[simp] theorem allocated_read (buffers : Buffers) (effects : List Effect) :
    (buffers.read effects).allocated = buffers.allocated + 1 := rfl

@[simp] theorem released_read (buffers : Buffers) (effects : List Effect) :
    (buffers.read effects).released =
      buffers.released ++ List.replicate (frees effects) buffers.allocated := rfl

/-- The connections of a server and the buffers of their reads. -/
structure BufferedServer (Id : Type u) where
  handles : Id → Handle := fun _ => {}
  buffers : Buffers := {}

/-- The steps of a server; only reads touch the buffers. -/
inductive BufferStep {Id : Type u} [DecidableEq Id] (opts : Options) :
    BufferedServer Id → Id × Event → BufferedServer Id → Prop where
  | read (taken : ServerStep opts server.handles (client, .read call) handles) :
      BufferStep opts server (client, .read call)
        ⟨handles, server.buffers.read (effectsOf opts (server.handles client) (.read call))⟩
  | other (taken : ServerStep opts server.handles (client, event) handles)
      (quiet : ∀ call, event ≠ .read call) :
      BufferStep opts server (client, event) ⟨handles, server.buffers⟩

/-- No buffer is left allocated, and none was released twice. -/
structure Settled (buffers : Buffers) : Prop where
  released : ∀ buffer < buffers.allocated, buffer ∈ buffers.released
  once : buffers.released.Nodup

theorem frees_stateToResponse (opts : Options) (host : Host) (rps : RequestParsingState) :
    frees (stateToResponse opts host rps).effects = 0 := by
  apply List.countP_eq_zero.mpr
  intro effect member
  obtain ⟨path, rfl⟩ := fopen_of_mem_stateToResponse member
  exact Bool.false_ne_true

theorem frees_answer (opts : Options) (call : ReadCall) (state : ClientState)
    (rps : RequestParsingState) : frees (answer opts call state rps).effects = 0 := by
  have quiet := frees_stateToResponse opts call.host rps
  cases success : (stateToResponse opts call.host rps).result with
  | error fault => rw [answer_of_error state success, quiet]
  | ok value =>
    rw [answer_of_ok state success, frees_append, quiet]
    rfl

/-- Answering a request is no business of the buffer. -/
theorem frees_checkIfCanRespond (opts : Options) (call : ReadCall) (state : ClientState)
    (require : Bool) : frees (checkIfCanRespond opts call state require).effects = 0 := by
  cases responded : state.responded with
  | true =>
    rw [checkIfCanRespond_responded opts call responded]
    rfl
  | false =>
    obtain ⟨rps, parsed, _⟩ := parseRequest_parsed state
    by_cases due : require = true ∨ rps.complete = true
    · rw [checkIfCanRespond_answers opts call responded parsed due]
      exact frees_answer opts call state rps
    · obtain ⟨notRequired, waits⟩ := not_or.mp due
      obtain rfl : require = false := by simpa using notRequired
      rw [checkIfCanRespond_waits opts call parsed (by simpa using waits)]
      rfl

/-- An `on_read` that returns has freed its buffer once if it brought bytes, and
otherwise not at all. -/
theorem frees_onRead (opts : Options) (state : ClientState) (call : ReadCall)
    (returned : (onRead opts state call).result = .ok next) :
    frees (onRead opts state call).effects = if 0 < call.nread then 1 else 0 := by
  rcases Int.lt_trichotomy call.nread 0 with negative | zero | positive
  · have quiet := frees_checkIfCanRespond opts call state true
    have silent : ¬ 0 < call.nread := by omega
    rw [onRead_end opts state negative] at returned ⊢
    obtain ⟨value, success, _⟩ := Outcome.result_bind_ok_iff.mp returned
    rw [Outcome.bind_of_ok success, frees_append, quiet, if_neg silent]
    rfl
  · have silent : ¬ 0 < call.nread := by omega
    rw [onRead_empty opts state zero, if_neg silent]
    rfl
  · have quiet := frees_checkIfCanRespond opts call (state.receive call) false
    rw [onRead_data opts state positive] at returned ⊢
    obtain ⟨value, success, _⟩ := Outcome.result_bind_ok_iff.mp returned
    rw [Outcome.bind_of_ok success, frees_append, quiet, if_pos positive]
    rfl

/-- The buffers tell which reads brought bytes: these and no others gave theirs
back, once. -/
structure Accurate (reads : List ReadCall) (buffers : Buffers) : Prop where
  allocated : buffers.allocated = reads.length
  released : ∀ buffer, buffer ∈ buffers.released ↔
    ∃ call, reads[buffer]? = some call ∧ 0 < call.nread
  once : buffers.released.Nodup

/-- The reads so far and one more. -/
theorem getElem?_concat_iff (reads : List ReadCall) (call other : ReadCall) (buffer : Nat) :
    (reads ++ [call])[buffer]? = some other ↔
      reads[buffer]? = some other ∨ buffer = reads.length ∧ call = other := by
  rcases Nat.lt_trichotomy buffer reads.length with before | last | beyond
  · have different : buffer ≠ reads.length := Nat.ne_of_lt before
    simp [List.getElem?_append_left before, different]
  · simp [last]
  · have different : buffer ≠ reads.length := Nat.ne_of_gt beyond
    rw [List.getElem?_eq_none (by simp; omega), List.getElem?_eq_none (Nat.le_of_lt beyond)]
    simp [different]

theorem Accurate.fresh {reads : List ReadCall} {buffers : Buffers}
    (accurate : Accurate reads buffers) : buffers.allocated ∉ buffers.released := by
  intro member
  obtain ⟨call, found, _⟩ := (accurate.released _).mp member
  rw [accurate.allocated, List.getElem?_eq_none (Nat.le_refl _)] at found
  cases found

theorem Accurate.read {reads : List ReadCall} {buffers : Buffers} (accurate : Accurate reads buffers)
    {call : ReadCall} {effects : List Effect}
    (freed : frees effects = if 0 < call.nread then 1 else 0) :
    Accurate (reads ++ [call]) (buffers.read effects) := by
  have fresh := accurate.fresh
  obtain ⟨allocated, released, once⟩ := accurate
  refine ⟨by simp [allocated], ?_, ?_⟩
  · intro buffer
    rw [released_read, freed, List.mem_append, released, allocated]
    constructor
    · rintro (⟨other, found, brought⟩ | last)
      · exact ⟨other, (getElem?_concat_iff ..).mpr (.inl found), brought⟩
      · obtain ⟨some, rfl⟩ := List.mem_replicate.mp last
        have brought : 0 < call.nread := by simpa using some
        exact ⟨call, (getElem?_concat_iff ..).mpr (.inr ⟨rfl, rfl⟩), brought⟩
    · rintro ⟨other, found, brought⟩
      rcases (getElem?_concat_iff ..).mp found with before | ⟨rfl, rfl⟩
      · exact .inl ⟨other, before, brought⟩
      · exact .inr (List.mem_replicate.mpr ⟨by simp [brought], rfl⟩)
  · rw [released_read, freed]
    split
    · rw [List.replicate_one, ← List.concat_eq_append]
      exact once.concat fresh
    · simpa using once

theorem Accurate.settled_iff {reads : List ReadCall} {buffers : Buffers}
    (accurate : Accurate reads buffers) :
    Settled buffers ↔ ∀ call ∈ reads, 0 < call.nread := by
  constructor
  · intro settled call member
    obtain ⟨buffer, inside, found⟩ := List.mem_iff_getElem.mp member
    have freed := settled.released buffer (by rw [accurate.allocated]; exact inside)
    obtain ⟨other, same, brought⟩ := (accurate.released buffer).mp freed
    rw [List.getElem?_eq_getElem inside, found] at same
    cases same
    exact brought
  · intro brought
    refine ⟨fun buffer inside => ?_, accurate.once⟩
    rw [accurate.allocated] at inside
    exact (accurate.released buffer).mpr ⟨reads[buffer], List.getElem?_eq_getElem inside,
      brought _ (List.getElem_mem inside)⟩

def Event.read? : Event → Option ReadCall
  | .read call => some call
  | _ => none

theorem read?_of_quiet {event : Event} (quiet : ∀ call, event ≠ .read call) :
    event.read? = none := by
  cases event with
  | read call => exact absurd rfl (quiet call)
  | _ => rfl

/-- The reads of a run, in order. -/
def readsOf {State Id : Type u} (history : List (State × Id × Event)) : List ReadCall :=
  history.filterMap fun taken => taken.2.2.read?

theorem mem_readsOf {State Id : Type u} {history : List (State × Id × Event)} {call : ReadCall} :
    call ∈ readsOf history ↔ ∃ taken ∈ history, taken.2.2 = .read call := by
  unfold readsOf
  rw [List.mem_filterMap]
  constructor
  · rintro ⟨taken, member, found⟩
    refine ⟨taken, member, ?_⟩
    cases event : taken.2.2 with
    | read other =>
      rw [event] at found
      cases found
      rfl
    | _ =>
      rw [event] at found
      cases found
  · rintro ⟨taken, member, same⟩
    exact ⟨taken, member, by rw [same]; rfl⟩

/-- A read that leaves no handle crashed has returned. -/
theorem handleStep_read_returned {opts : Options} {handle next : Handle} {call : ReadCall}
    (taken : HandleStep opts handle (.read call) next) (alive : next.stage ≠ .crashed) :
    frees (effectsOf opts handle (.read call)) = if 0 < call.nread then 1 else 0 := by
  cases taken with
  | read reading returned =>
    rw [effectsOf_read opts reading]
    exact frees_onRead opts _ call returned
  | last reading returned =>
    rw [effectsOf_read opts reading]
    exact frees_onRead opts _ call returned
  | crash => exact absurd rfl alive

theorem accurate_run {Id : Type u} [DecidableEq Id] (opts : Options)
    {history : List (BufferedServer Id × Id × Event)} {server : BufferedServer Id}
    (run : Run (BufferStep opts) {} history server)
    (alive : ∀ client, (server.handles client).stage ≠ .crashed) :
    Accurate (readsOf history) server.buffers := by
  induction run with
  | start => exact ⟨rfl, by simp [readsOf], List.nodup_nil⟩
  | next earlier taken ih =>
    unfold readsOf
    rw [List.filterMap_append]
    cases taken with
    | read taken =>
      obtain ⟨before, taken⟩ := taken
      refine (ih before).read (handleStep_read_returned taken ?_)
      intro crashed
      exact alive _ ((congrArg Handle.stage (Function.update_self ..)).trans crashed)
    | other taken quiet =>
      obtain ⟨before, taken⟩ := taken
      have none := read?_of_quiet quiet
      simp only [List.filterMap_cons, none, List.filterMap_nil, List.append_nil]
      exact ih before

/-- In a run of any number of connections whose callbacks all return, every buffer
has been released exactly once if and only if every read brought bytes. -/
theorem buffers_settled_iff {Id : Type u} [DecidableEq Id] (opts : Options)
    {history : List (BufferedServer Id × Id × Event)} {server : BufferedServer Id}
    (run : Run (BufferStep opts) {} history server)
    (alive : ∀ client, (server.handles client).stage ≠ .crashed) :
    Settled server.buffers ↔
      ∀ taken ∈ history, ∀ call, taken.2.2 = .read call → 0 < call.nread := by
  rw [(accurate_run opts run alive).settled_iff]
  constructor
  · intro brought taken member call same
    exact brought call (mem_readsOf.mpr ⟨taken, member, same⟩)
  · intro brought call member
    obtain ⟨taken, inside, same⟩ := mem_readsOf.mp member
    exact brought taken inside call same

/-- A run of the server of one client that is accepted. -/
theorem accepted_buffers :
    Run (BufferStep {}) ({} : BufferedServer Unit)
      [({}, (), .connect 0 0), ({ handles := fun _ => { stage := .placed } }, (), .accept)]
      { handles := fun _ => { stage := .reading onAccept } } := by
  have connected : BufferStep {} ({} : BufferedServer Unit) ((), .connect 0 0)
      { handles := fun _ => { stage := .placed } } :=
    .other (serverStep_single nofun (.connect rfl)) nofun
  have accepted : BufferStep {} { handles := fun _ : Unit => { stage := .placed } } ((), .accept)
      { handles := fun _ => { stage := .reading onAccept } } :=
    .other (serverStep_single nofun (.accept rfl)) nofun
  exact (Run.start.next connected).next accepted

/-- The request for the index page comes in one read. -/
theorem buffers_settled_iff_index :
    ∃ history, ∃ server : BufferedServer Unit, Run (BufferStep {}) {} history server ∧
      server.buffers.allocated = 1 ∧ Settled server.buffers := by
  have reading : Stage.reading onAccept ≠ .crashed := nofun
  have step := serverStep_single reading
    (.read rfl rfl : HandleStep {} { stage := .reading onAccept } (.read (indexCall 4096)) _)
  have run := accepted_buffers.next (.read step)
  have alive (next : ClientState) : ∀ _ : Unit, Stage.reading next ≠ .crashed := fun _ => nofun
  refine ⟨_, _, run, rfl, (buffers_settled_iff {} run (alive _)).mpr ?_⟩
  intro taken member call same
  simp only [List.cons_append, List.nil_append, List.mem_cons, List.not_mem_nil, or_false] at member
  obtain rfl | rfl | rfl := member
  · cases same
  · cases same
  · cases same
    decide

/-- The buffer of the read that reports the end of the stream is never released. -/
theorem buffer_leaked_at_end :
    ¬ ∀ (history : List (BufferedServer Unit × Unit × Event)) (server : BufferedServer Unit),
      Run (BufferStep {}) {} history server →
      (∀ client, (server.handles client).stage ≠ .crashed) → Settled server.buffers := by
  intro settled
  have reading : Stage.reading onAccept ≠ .crashed := nofun
  have step := serverStep_single reading
    (.last rfl rfl : HandleStep {} { stage := .reading onAccept } (.read (.eof greeting 0)) _)
  have run := accepted_buffers.next (.read step)
  have closing : (Handle.after {} { stage := .reading onAccept } (.read (.eof greeting 0))).stage =
      .closing true := rfl
  have alive : ∀ _ : Unit,
      (Handle.after {} { stage := .reading onAccept } (.read (.eof greeting 0))).stage ≠ .crashed := by
    rw [closing]
    exact fun _ => nofun
  have released := (settled _ _ run alive).released 0 (Nat.succ_pos 0)
  cases released

end MailruHttp.Server
