import MailruHttp.Sys.WholeServer

/-! The invariant that joins the pool, the handles and the loops, and what follows
from it: the server refines its connections and its service. -/

namespace MailruHttp.Sys

open Library Cmd Server

universe u

variable {Socket : Type u} {count : Nat}

/-- How the pool, the handles and the loops of a server fit together. -/
structure Joined (whole : WholeServer Socket count) : Prop where
  pool : Reachable PoolStep (.initial Socket count) whole.pool
  tracked : ∀ client, Tracked (whole.handles client)
  fresh : ∀ client, whole.stage client = .waiting →
    client ∉ whole.pool.passed ∧ client ∉ whole.service.closed
  held : ∀ client, whole.pool.Holds client → whole.stage client = .placed
  passed : ∀ client, whole.stage client = .placed → client ∈ whole.pool.passed
  owner : ∀ client i, whole.loop client = some i ↔ client ∈ (whole.pool.mWorkers i).accepted
  unowned : ∀ client, whole.stage client = .waiting ∨ whole.stage client = .placed →
    whole.loop client = none
  owned : ∀ client state, whole.stage client = .reading state → whole.loop client ≠ none

section Steps

variable {whole : WholeServer Socket count} {client : Socket}

theorem joined_initial : Joined (.initial Socket count) where
  pool := .start
  tracked _ := tracked_initial
  fresh _ _ := ⟨List.not_mem_nil, List.not_mem_nil⟩
  held client holds := by
    rcases holds with placing | ⟨i, queued⟩
    · exact absurd placing List.not_mem_nil
    · exact absurd queued List.not_mem_nil
  passed _ placed := nomatch placed
  owner _ _ := ⟨nofun, fun accepted => absurd accepted List.not_mem_nil⟩
  unowned _ _ := rfl
  owned _ _ reading := nomatch reading

/-- A queued client is as `on_connect` left it. -/
theorem Joined.front (joined : Joined whole) {i : Fin count} {rest : List Socket}
    (front : (whole.pool.mWorkers i).mQueue = client :: rest) : whole.stage client = .placed :=
  joined.held client (.inr ⟨i, by rw [front]; exact List.mem_cons_self⟩)

theorem Joined.retain (joined : Joined whole) {event : PoolEvent Socket count}
    {next : ThreadPool Socket count} (taken : PoolStep whole.pool event next)
    (retains : Retains whole.pool next) :
    Joined { whole with service := { whole.service with pool := next } } where
  pool := joined.pool.next taken
  tracked := joined.tracked
  fresh client waiting := by
    change client ∉ next.passed ∧ _
    rw [retains.passed]
    exact joined.fresh client waiting
  held client holds := joined.held client (retains.holds client holds)
  passed client placed := by
    change client ∈ next.passed
    rw [retains.passed]
    exact joined.passed client placed
  owner client i := by
    change _ ↔ client ∈ (next.mWorkers i).accepted
    rw [retains.accepted]
    exact joined.owner client i
  unowned := joined.unowned
  owned := joined.owned

/-- A client of the pool that no worker has accepted is still held. -/
theorem Joined.holds (joined : Joined whole) (positive : 0 < count)
    (passed : client ∈ whole.pool.passed) (unowned : whole.loop client = none) :
    whole.pool.Holds client := by
  have ordered (i : Fin count) := inOrder_reachable (worker_reachable joined.pool i)
  have placed := (conserved_reachable positive joined.pool).placed
  rw [pushed_eq ordered] at placed
  have member : client ∈ whole.pool.queued + whole.pool.handed + ↑whole.pool.placing.sockets := by
    rw [← placed]
    exact Multiset.mem_coe.mpr passed
  rcases Multiset.mem_add.mp member with worked | placing
  · rcases Multiset.mem_add.mp worked with queued | handed
    · obtain ⟨i, -, queued⟩ := Multiset.mem_sum.mp queued
      exact .inr ⟨i, Multiset.mem_coe.mp queued⟩
    · obtain ⟨i, -, accepted⟩ := Multiset.mem_sum.mp handed
      have owned := (joined.owner client i).mpr (Multiset.mem_coe.mp accepted)
      rw [unowned] at owned
      cases owned
  · exact .inl (Multiset.mem_coe.mp placing)

/-- A callback of a worker closes none but the worker's own clients. -/
theorem callback_service {started : Nat → Bool} {event : Event} {next : Handle}
    {service : Service Socket count} (joined : Joined whole)
    (free : whole.Free started (whole.loop client))
    (case : CallbackCase whole.service client (whole.handles client) event next service) :
    service = whole.service ∨ ∃ other, ServiceStep started whole.service other service := by
  cases case with
  | accepted waiting placed =>
    obtain ⟨fresh, unclosed⟩ := joined.fresh client waiting
    rw [joined.unowned client (.inl waiting)] at free
    exact .inr ⟨_, accept_step free fresh unclosed⟩
  | @refused uvAccept next waiting rejected closing =>
    obtain ⟨fresh, unclosed⟩ := joined.fresh client waiting
    rw [joined.unowned client (.inl waiting)] at free
    have taken : ServiceStep started whole.service (.connect 0 uvAccept client) _ :=
      .connect free fresh unclosed
    rw [onConnect_effects, if_pos rfl, if_neg rejected] at taken
    exact .inr ⟨_, taken⟩
  | failed => exact .inl rfl
  | kept => exact .inl rfl
  | ended reading closing =>
    cases loop : whole.loop client with
    | none => exact absurd loop (joined.owned client _ reading)
    | some i =>
      rw [loop] at free
      exact .inr ⟨_, .close free.1 ((joined.owner client i).mp loop)⟩
  | crashed => exact .inl rfl
  | closed => exact .inl rfl

variable [DecidableEq Socket]

theorem stage_update (whole : WholeServer Socket count) (service : Service Socket count)
    (client : Socket) (next : Handle) (loop : Socket → Option (Fin count)) (other : Socket) :
    WholeServer.stage ⟨service, Function.update whole.handles client next, loop⟩ other =
      if other = client then next.stage else whole.stage other := by
  simp only [WholeServer.stage, Function.update_apply]
  split <;> rfl

theorem tracked_update (joined : Joined whole) {next : Handle} (tracked : Tracked next)
    (other : Socket) : Tracked (Function.update whole.handles client next other) := by
  rw [Function.update_apply]
  split
  · exact tracked
  · exact joined.tracked other

/-- A client that has left the pool, or never was in it, moves on. -/
theorem Joined.restage (joined : Joined whole) {service : Service Socket count} {next : Handle}
    (pool : service.pool = whole.pool)
    (closed : ∀ other ∈ service.closed, other ∈ whole.service.closed ∨ other = client)
    (left : whole.stage client ≠ .placed) (tracked : Tracked next)
    (elsewhere : next.stage ≠ .waiting ∧ next.stage ≠ .placed)
    (owned : ∀ state, next.stage = .reading state → whole.loop client ≠ none) :
    Joined { whole with service, handles := Function.update whole.handles client next } := by
  have pool : service.pool = whole.service.pool := pool
  refine ⟨?_, tracked_update joined tracked, ?_, ?_, ?_, ?_, ?_, ?_⟩
  · change Reachable _ _ service.pool
    rw [pool]
    exact joined.pool
  · intro other waiting
    rw [stage_update] at waiting
    split at waiting
    · exact absurd waiting elsewhere.1
    · rename_i different
      obtain ⟨passed, unclosed⟩ := joined.fresh other waiting
      refine ⟨by change other ∉ service.pool.passed; rw [pool]; exact passed, fun member => ?_⟩
      rcases closed other member with before | same
      · exact unclosed before
      · exact different same
  · intro other holds
    change service.pool.Holds other at holds
    rw [pool] at holds
    have placed := joined.held other holds
    rw [stage_update]
    split
    · rename_i same
      subst same
      exact absurd placed left
    · exact placed
  · intro other placed
    rw [stage_update] at placed
    split at placed
    · exact absurd placed elsewhere.2
    · change other ∈ service.pool.passed
      rw [pool]
      exact joined.passed other placed
  · intro other i
    change _ ↔ other ∈ (service.pool.mWorkers i).accepted
    rw [pool]
    exact joined.owner other i
  · intro other early
    rw [stage_update] at early
    split at early
    · rcases early with waiting | placed
      · exact absurd waiting elsewhere.1
      · exact absurd placed elsewhere.2
    · exact joined.unowned other early
  · intro other state reading
    rw [stage_update] at reading
    split at reading
    · rename_i same
      subst same
      exact owned state reading
    · exact joined.owned other state reading

/-- The client of a new connection, which `on_connect` passes to the pool. -/
theorem Joined.enqueue (joined : Joined whole) {next : Handle}
    (idle : whole.pool.placing = .idle) (waiting : whole.stage client = .waiting)
    (tracked : Tracked next) (placed : next.stage = .placed) :
    Joined { whole with
      service := whole.service.record client .enqueue
      handles := Function.update whole.handles client next } := by
  obtain ⟨fresh, -⟩ := joined.fresh client waiting
  refine ⟨joined.pool.next (.enqueue idle fresh), tracked_update joined tracked, ?_, ?_, ?_,
    joined.owner, ?_, ?_⟩
  · intro other early
    rw [stage_update] at early
    split at early
    · rw [placed] at early
      cases early
    · rename_i different
      obtain ⟨passed, unclosed⟩ := joined.fresh other early
      refine ⟨fun member => ?_, unclosed⟩
      rcases List.mem_append.mp member with before | new
      · exact passed before
      · exact different (List.mem_singleton.mp new)
  · intro other holds
    rw [stage_update]
    split
    · exact placed
    · rename_i different
      rcases holds with placing | queued
      · exact absurd (List.mem_singleton.mp placing) different
      · exact joined.held other (.inr queued)
  · intro other early
    rw [stage_update] at early
    split at early
    · rename_i same
      exact List.mem_append_right _ (by simp [same])
    · exact List.mem_append_left _ (joined.passed other early)
  · intro other early
    rw [stage_update] at early
    split at early
    · rename_i same
      rw [same]
      exact joined.unowned client (.inl waiting)
    · exact joined.unowned other early
  · intro other state reading
    rw [stage_update] at reading
    split at reading
    · rw [placed] at reading
      cases reading
    · exact joined.owned other state reading

theorem Joined.callback (joined : Joined whole) {event : Event} {next : Handle}
    {service : Service Socket count} {started : Nat → Bool}
    (free : whole.Free started (whole.loop client)) (tracked : Tracked next)
    (case : CallbackCase whole.service client (whole.handles client) event next service) :
    Joined { whole with service, handles := Function.update whole.handles client next } := by
  have closes : ∀ other ∈ whole.service.closed ++ [client],
      other ∈ whole.service.closed ∨ other = client := by simp
  have stays : ∀ other ∈ whole.service.closed,
      other ∈ whole.service.closed ∨ other = client := fun _ member => .inl member
  cases case with
  | accepted waiting placed =>
    rw [joined.unowned client (.inl waiting)] at free
    exact joined.enqueue free waiting tracked placed
  | refused waiting rejected closing =>
    refine joined.restage (by rfl) closes ?_ tracked (by simp [closing]) (by simp [closing])
    simp [WholeServer.stage, waiting]
  | failed waiting =>
    rw [Function.update_eq_self]
    exact joined
  | kept reading still =>
    refine joined.restage (by rfl) stays ?_ tracked (by simp [still])
      (fun _ _ => joined.owned client _ reading)
    simp [WholeServer.stage, reading]
  | ended reading closing =>
    refine joined.restage (by rfl) closes ?_ tracked (by simp [closing]) (by simp [closing])
    simp [WholeServer.stage, reading]
  | crashed reading crashed =>
    refine joined.restage (by rfl) stays ?_ tracked (by simp [crashed]) (by simp [crashed])
    simp [WholeServer.stage, reading]
  | closed closing closed =>
    refine joined.restage (by rfl) stays ?_ tracked (by simp [closed]) (by simp [closed])
    simp [WholeServer.stage, closing]

/-- The client that `perform` hands to `on_accept` was only placed so far, and its
new state is its first. -/
theorem Joined.perform (joined : Joined whole) {i : Fin count} {rest : List Socket}
    {pool : ThreadPool Socket count} (taken : PoolStep whole.pool (.worker i .perform) pool)
    (front : (whole.pool.mWorkers i).mQueue = client :: rest) :
    Joined
      { service := { whole.service with pool }
        handles := Function.update whole.handles client
          { whole.handles client with stage := .reading onAccept }
        loop := Function.update whole.loop client (some i) } := by
  have placed := joined.front front
  have reached := joined.pool.next taken
  have same := perform_pool taken front
  have accepted : (pool.mWorkers i).accepted = (whole.pool.mWorkers i).accepted ++ [client] := by
    rw [same, mWorkers_setWorker]
  have others {j : Fin count} (different : j ≠ i) : pool.mWorkers j = whole.pool.mWorkers j := by
    rw [same, mWorkers_setWorker_of_ne _ different]
  have passed : pool.passed = whole.pool.passed := by rw [same]; rfl
  have placing : pool.placing = whole.pool.placing := by rw [same]; rfl
  have ledger : (whole.handles client).given = 0 ∧ (whole.handles client).sent = 0 := by
    have tracked := joined.tracked client
    simp only [Tracked, show (whole.handles client).stage = .placed from placed] at tracked
    exact tracked
  refine ⟨reached, tracked_update joined fun _ => ⟨waits_onAccept, ledger⟩, ?_, ?_, ?_, ?_, ?_, ?_⟩
  · intro other waiting
    rw [stage_update] at waiting
    split at waiting
    · cases waiting
    · change other ∉ pool.passed ∧ _
      rw [passed]
      exact joined.fresh other waiting
  · intro other holds
    change pool.Holds other at holds
    rw [stage_update]
    split
    · rename_i equal
      subst equal
      have member : other ∈ (pool.mWorkers i).accepted := by simp [accepted]
      exact absurd holds (not_holds_of_accepted reached member)
    · apply joined.held
      rcases holds with early | ⟨j, queued⟩
      · exact .inl (placing ▸ early)
      · refine .inr ⟨j, ?_⟩
        by_cases equal : j = i
        · subst equal
          rw [same, mWorkers_setWorker] at queued
          rw [front]
          exact List.mem_cons_of_mem _ queued
        · rw [← others equal]
          exact queued
  · intro other early
    rw [stage_update] at early
    split at early
    · cases early
    · change other ∈ pool.passed
      rw [passed]
      exact joined.passed other early
  · intro other j
    change Function.update whole.loop client (some i) other = some j ↔
      other ∈ (pool.mWorkers j).accepted
    rw [Function.update_apply]
    by_cases equal : j = i
    · subst equal
      rw [accepted, List.mem_append, ← joined.owner]
      split <;> simp [*]
    · rw [others equal, ← joined.owner]
      split
      · rename_i met
        rw [met, joined.unowned client (.inr placed)]
        simp [Ne.symm equal]
      · rfl
  · intro other early
    rw [stage_update] at early
    split at early
    · simp at early
    · rename_i different
      change Function.update whole.loop client (some i) other = none
      rw [Function.update_of_ne different]
      exact joined.unowned other early
  · intro other state reading
    rw [stage_update] at reading
    change Function.update whole.loop client (some i) other ≠ none
    rw [Function.update_apply]
    split at reading
    · rename_i equal
      simp [equal]
    · rename_i different
      simp only [different, ↓reduceIte]
      exact joined.owned other state reading

theorem joined_step {opts : Options} {started : Nat → Bool} {next : WholeServer Socket count}
    {event : WholeEvent Socket count} (joined : Joined whole)
    (taken : WholeStep opts started whole event next) : Joined next := by
  cases taken with
  | callback alive libuv free taken =>
    exact joined.callback free (tracked_step (joined.tracked _) taken)
      (callback_case (joined.tracked _) libuv taken)
  | place alive places taken => exact joined.retain taken (retains_place places taken)
  | clear alive running taken => exact joined.retain taken (retains_clear taken)
  | perform alive running taken front => exact joined.perform taken front

theorem joined_reachable {opts : Options} {started : Nat → Bool}
    (reached : Reachable (WholeStep opts started) (.initial Socket count) whole) : Joined whole :=
  reached.invariant (fun _ _ _ joined taken => joined_step joined taken) joined_initial

/-- Seen from the connections, `perform` is an accept and the pool does not exist. -/
theorem wholeStep_connections {opts : Options} {started : Nat → Bool}
    {next : WholeServer Socket count} {event : WholeEvent Socket count} (joined : Joined whole)
    (taken : WholeStep opts started whole event next) :
    next.handles = whole.handles ∨ ∃ other, ServerStep opts whole.handles other next.handles := by
  cases taken with
  | callback alive libuv free taken => exact .inr ⟨_, .step alive taken⟩
  | place => exact .inl rfl
  | clear => exact .inl rfl
  | perform alive running taken front =>
    exact .inr ⟨_, .step alive (.accept (joined.front front))⟩

/-- Seen from the service, a step is a step of the service or nothing. -/
theorem wholeStep_service {opts : Options} {started : Nat → Bool}
    {next : WholeServer Socket count} {event : WholeEvent Socket count} (joined : Joined whole)
    (taken : WholeStep opts started whole event next) :
    next.service = whole.service ∨
      ∃ other, ServiceStep started whole.service other next.service := by
  cases taken with
  | callback alive libuv free taken =>
    exact callback_service joined free (callback_case (joined.tracked _) libuv taken)
  | place alive places taken => exact .inr ⟨_, .place places taken⟩
  | clear alive running taken => exact .inr ⟨_, .work running (.inl rfl) taken⟩
  | perform alive running taken front => exact .inr ⟨_, .work running (.inr rfl) taken⟩

end Steps

theorem alive_update [DecidableEq Socket] {whole : WholeServer Socket count} {next : Handle}
    (alive : ∀ other, whole.stage other ≠ .crashed) (fine : next.stage ≠ .crashed)
    (service : Service Socket count) (client : Socket) (loop : Socket → Option (Fin count)) :
    ∀ other, WholeServer.stage ⟨service, Function.update whole.handles client next, loop⟩ other ≠
      .crashed := by
  intro other
  rw [stage_update]
  split
  · exact fine
  · exact alive other

/-- The worker of a client can run its next callback. -/
structure Serving (started : Nat → Bool) (whole : WholeServer Socket count) (client : Socket)
    (i : Fin count) : Prop where
  alive : ∀ other, whole.stage other ≠ .crashed
  running : started i = true
  idle : (whole.pool.mWorkers i).performing = false
  owned : whole.loop client = some i

/-- Whatever libuv reports next about such a client, its callback can run. -/
theorem Serving.next [DecidableEq Socket] {opts : Options} {started : Nat → Bool}
    {whole : WholeServer Socket count} {client : Socket} {i : Fin count} {event : Event}
    {next : Handle} (serving : Serving started whole client i) (joined : Joined whole)
    (libuv : event ≠ .accept) (taken : HandleStep opts (whole.handles client) event next)
    (fine : next.stage ≠ .crashed) :
    ∃ after, WholeStep opts started whole (.callback client event) after ∧
      Serving started after client i ∧ after.handles client = next := by
  have begun : (whole.handles client).stage ≠ .waiting := by
    intro waiting
    cases serving.owned.symm.trans (joined.unowned client (.inl waiting))
  have free : whole.Free started (whole.loop client) := by
    rw [serving.owned]
    exact ⟨serving.running, serving.idle⟩
  refine ⟨_, .callback serving.alive libuv free taken, ⟨?_, serving.running, ?_, serving.owned⟩,
    Function.update_self ..⟩
  · exact alive_update serving.alive fine _ _ _
  · have same : (whole.service.records client (effectsOf opts (whole.handles client) event)).pool =
        whole.service.pool := (callback_case (joined.tracked client) libuv taken).pool begun
    change ((whole.service.records client _).pool.mWorkers i).performing = false
    rw [same]
    exact serving.idle

/-- A client on its way to the one worker of a pool. -/
theorem accepted_run (opts : Options) (client : Nat) :
    ∃ history whole, Run (WholeStep opts fun _ => true) (.initial Nat 1) history whole ∧
      Serving (fun _ => true) whole client 0 ∧ whole.stage client = .reading onAccept ∧
      history.map Prod.snd = [.callback client (.connect 0 0), .place .queueSize,
        .place (.worker 0 (.push client)), .place (.worker 0 .send), .clear 0, .perform 0] := by
  have begin : Run (WholeStep opts fun _ => true) (.initial Nat 1) [] (.initial Nat 1) := .start
  have none : ∀ other, (WholeServer.initial Nat 1).stage other ≠ .crashed := fun _ => nofun
  have connected := begin.next
    (.callback none nofun rfl (.connect rfl) :
      WholeStep _ _ _ (.callback client (.connect 0 0)) _)
  have alive := alive_update none
    (show (Handle.after opts {} (.connect 0 0)).stage ≠ .crashed from nofun)
  have scanned := connected.next (.place (alive _ _ _) rfl (.queueSize rfl Nat.one_pos))
  have pushed := scanned.next (.place (alive _ _ _) rfl (.push rfl .push))
  have sent := pushed.next (.place (alive _ _ _) rfl (.send rfl (.send Nat.one_pos)))
  have cleared := sent.next
    (.clear (alive _ _ _) rfl (.clear (.clear rfl rfl)) : WholeStep _ _ _ (.clear 0) _)
  have accepted := cleared.next
    (.perform (alive _ _ _) rfl (.perform (.perform rfl rfl)) rfl : WholeStep _ _ _ (.perform 0) _)
  refine ⟨_, _, accepted, ⟨?_, rfl, rfl, Function.update_self ..⟩, ?_, rfl⟩
  · exact alive_update (alive _ _ _) (nofun : Stage.reading onAccept ≠ .crashed) _ _ _
  · rw [stage_update, if_pos rfl]

/-- Every run of the server is a run of its connections and one of the service, so
what holds of these holds of the server. A client that a worker takes from its
queue was placed there and never accepted before; and a client of a pool with
workers is either being placed or queued, or accepted by exactly one worker. -/
theorem whole_server_refines [DecidableEq Socket] {opts : Options} {started : Nat → Bool}
    {whole : WholeServer Socket count}
    (reached : Reachable (WholeStep opts started) (.initial Socket count) whole) :
    Reachable (ServerStep opts) (fun _ => {}) whole.handles ∧
    Reachable (ServiceStep started) (.initial Socket count) whole.service ∧
    (∀ i client rest, (whole.pool.mWorkers i).mQueue = client :: rest →
      whole.stage client = .placed ∧ ∀ j, client ∉ (whole.pool.mWorkers j).accepted) ∧
    (0 < count → ∀ client ∈ whole.pool.passed,
      (whole.pool.Holds client ∧ whole.stage client = .placed ∧ whole.loop client = none) ∨
      ∃ i, whole.loop client = some i ∧
        (∀ j, client ∈ (whole.pool.mWorkers j).accepted ↔ j = i) ∧
        ¬ whole.pool.Holds client ∧
        whole.stage client ≠ .waiting ∧ whole.stage client ≠ .placed) := by
  have joined := joined_reachable reached
  refine ⟨?_, ?_, ?_, ?_⟩
  · exact reached.view_reached WholeServer.handles fun _ _ _ earlier taken =>
      wholeStep_connections (joined_reachable earlier) taken
  · exact reached.view_reached WholeServer.service fun _ _ _ earlier taken =>
      wholeStep_service (joined_reachable earlier) taken
  · intro i client rest front
    have placed := joined.front front
    refine ⟨placed, fun j accepted => ?_⟩
    have owned := (joined.owner client j).mpr accepted
    rw [joined.unowned client (.inr placed)] at owned
    cases owned
  · intro positive client passed
    cases loop : whole.loop client with
    | none =>
      have holds := joined.holds positive passed loop
      exact .inl ⟨holds, joined.held client holds, rfl⟩
    | some i =>
      have accepted := (joined.owner client i).mp loop
      refine .inr ⟨i, rfl, fun j => ?_, not_holds_of_accepted joined.pool accepted, ?_, ?_⟩
      · rw [← joined.owner, loop, Option.some.injEq, eq_comm]
      · intro waiting
        cases loop.symm.trans (joined.unowned client (.inl waiting))
      · intro placed
        cases loop.symm.trans (joined.unowned client (.inr placed))

/-- An accepted client of a server with one worker. -/
theorem whole_server_refines_accepted :
    ∃ whole : WholeServer Nat 1, whole.stage 7 = .reading onAccept ∧ whole.loop 7 = some 0 ∧
      Reachable (ServerStep {}) (fun _ => {}) whole.handles := by
  obtain ⟨history, whole, run, serving, reading, -⟩ := accepted_run {} 7
  exact ⟨whole, reading, serving.owned, (whole_server_refines ⟨history, run⟩).1⟩

end MailruHttp.Sys
