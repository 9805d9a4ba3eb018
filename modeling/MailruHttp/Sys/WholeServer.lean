import MailruHttp.Server.Ownership
import MailruHttp.Sys.Service

/-! The whole server: the accepting thread, the workers with their queues, and
the connections their loops serve. -/

namespace MailruHttp.Sys

open Library Cmd Server

universe u

variable {Socket : Type u} {count : Nat}

/-- The service, the handles of its clients, and the loop that `client->loop`
names. A new client has the loop of the accepting thread, which is `none` here. -/
structure WholeServer (Socket : Type u) (count : Nat) where
  service : Service Socket count
  handles : Socket → Handle := fun _ => {}
  loop : Socket → Option (Fin count) := fun _ => none

namespace WholeServer

def initial (Socket : Type u) (count : Nat) : WholeServer Socket count where
  service := .initial Socket count

def pool (whole : WholeServer Socket count) : ThreadPool Socket count := whole.service.pool

def stage (whole : WholeServer Socket count) (client : Socket) : Stage :=
  (whole.handles client).stage

/-- A loop runs one callback at a time, and a worker's loop only in its thread. -/
def Free (started : Nat → Bool) (whole : WholeServer Socket count) : Option (Fin count) → Prop
  | none => whole.pool.placing = .idle
  | some i => started i = true ∧ (whole.pool.mWorkers i).performing = false

end WholeServer

/-- What the calls of a callback on a client do to the service. -/
def Service.records (service : Service Socket count) (client : Socket) (effects : List Effect) :
    Service Socket count :=
  effects.foldl (fun state effect => state.record client effect) service

inductive WholeEvent (Socket : Type u) (count : Nat) where
  /-- A callback of `server/on_connect.cpp`, or what libuv does to a handle. -/
  | callback (client : Socket) (event : Event)
  | place (event : PoolEvent Socket count)
  | clear (i : Fin count)
  | perform (i : Fin count)

/-- What can happen next, until a callback does not return. A callback on a client
touches that client alone, and so is one step. -/
inductive WholeStep [DecidableEq Socket] (opts : Options) (started : Nat → Bool) :
    WholeServer Socket count → WholeEvent Socket count → WholeServer Socket count → Prop where
  | callback (alive : ∀ other, whole.stage other ≠ .crashed) (libuv : event ≠ .accept)
      (free : whole.Free started (whole.loop client))
      (taken : HandleStep opts (whole.handles client) event next) :
      WholeStep opts started whole (.callback client event)
        { whole with
          service := whole.service.records client (effectsOf opts (whole.handles client) event)
          handles := Function.update whole.handles client next }
  | place (alive : ∀ other, whole.stage other ≠ .crashed) (places : event.places = true)
      (taken : PoolStep whole.pool event next) :
      WholeStep opts started whole (.place event)
        { whole with service := { whole.service with pool := next } }
  | clear {i : Fin count} (alive : ∀ other, whole.stage other ≠ .crashed) (running : started i = true)
      (taken : PoolStep whole.pool (.worker i .clear) next) :
      WholeStep opts started whole (.clear i)
        { whole with service := { whole.service with pool := next } }
  /-- `client->loop` is set and `on_accept` makes a new state, whatever the handle
  held before. -/
  | perform {i : Fin count} (alive : ∀ other, whole.stage other ≠ .crashed)
      (running : started i = true)
      (taken : PoolStep whole.pool (.worker i .perform) next)
      (front : (whole.pool.mWorkers i).mQueue = client :: rest) :
      WholeStep opts started whole (.perform i)
        { service := { whole.service with pool := next }
          handles := Function.update whole.handles client
            { whole.handles client with stage := .reading onAccept }
          loop := Function.update whole.loop client (some i) }

section Callbacks

variable {opts : Options} {service : Service Socket count} {client : Socket}

/-- Where a callback takes its client, and what it does to the service. -/
inductive CallbackCase (service : Service Socket count) (client : Socket) (handle : Handle) :
    Event → Handle → Service Socket count → Prop where
  | accepted (waiting : handle.stage = .waiting) (placed : next.stage = .placed) :
      CallbackCase service client handle (.connect 0 0) next (service.record client .enqueue)
  | refused (waiting : handle.stage = .waiting) (rejected : uvAccept ≠ 0)
      (closing : next.stage = .closing false) :
      CallbackCase service client handle (.connect 0 uvAccept) next
        { service with closed := service.closed ++ [client] }
  | failed (waiting : handle.stage = .waiting) :
      CallbackCase service client handle (.connect status uvAccept) handle service
  | kept (reading : handle.stage = .reading state) (still : next.stage = .reading after) :
      CallbackCase service client handle event next service
  | ended (reading : handle.stage = .reading state) (closing : next.stage = .closing true) :
      CallbackCase service client handle (.read call) next
        { service with closed := service.closed ++ [client] }
  | crashed (reading : handle.stage = .reading state) (crashed : next.stage = .crashed) :
      CallbackCase service client handle (.read call) next service
  | closed (closing : handle.stage = .closing callback) (closed : next.stage = .closed) :
      CallbackCase service client handle .closed next service

/-- A call of `on_read` that does not close the client leaves the service alone. -/
theorem records_read {handle : Handle} {state : ClientState} {call : ReadCall}
    (tracked : Tracked handle) (reading : handle.stage = .reading state)
    (returned : (onRead opts state call).result ≠ .ok none) :
    service.records client (effectsOf opts handle (.read call)) = service := by
  rw [effectsOf_read opts reading]
  cases tracked.read_case reading opts call with
  | silent effects =>
    rcases effects with none | freed
    · rw [none]
      rfl
    · rw [freed]
      rfl
  | answered effects => rw [effects]; rfl
  | faulted effects => rw [effects]; rfl
  | ended _ closes => exact absurd closes returned
  | refused _ closes => exact absurd closes returned

theorem records_last {handle : Handle} {state : ClientState} {call : ReadCall}
    (tracked : Tracked handle) (reading : handle.stage = .reading state)
    (returned : (onRead opts state call).result = .ok none) :
    service.records client (effectsOf opts handle (.read call)) =
      { service with closed := service.closed ++ [client] } := by
  rw [effectsOf_read opts reading]
  cases tracked.read_case reading opts call with
  | silent _ goesOn => cases goesOn.symm.trans returned
  | answered _ goesOn => cases goesOn.symm.trans returned
  | faulted _ failed => cases failed.symm.trans returned
  | ended effects => rw [effects]; rfl
  | refused effects => rw [effects]; rfl

/-- The cases of a callback, as far as the pool and the stages go. -/
theorem callback_case {handle next : Handle} {event : Event} (tracked : Tracked handle)
    (libuv : event ≠ .accept) (taken : HandleStep opts handle event next) :
    CallbackCase service client handle event next
      (service.records client (effectsOf opts handle event)) := by
  cases taken with
  | connect waiting =>
    rw [Handle.after, effectsOf_connect]
    split
    · rename_i connected
      subst connected
      split
      · rename_i accepted
        subst accepted
        exact .accepted waiting rfl
      · rename_i rejected
        exact .refused waiting rejected rfl
    · exact .failed waiting
  | accept => exact absurd rfl libuv
  | read reading returned =>
    rw [records_read tracked reading (by rw [returned]; simp)]
    exact .kept reading rfl
  | last reading returned =>
    rw [records_last tracked reading returned]
    exact .ended reading (tracked_last opts tracked reading returned)
  | crash reading failed =>
    rw [records_read tracked reading (by rw [failed]; simp)]
    exact .crashed reading rfl
  | progress reading queued => exact .kept reading reading
  | closed closing =>
    have records : service.records client (effectsOf opts handle .closed) = service := by
      rcases effectsOf_closed opts handle with none | deleted
      · rw [none]
        rfl
      · rw [deleted]
        rfl
    rw [records]
    exact .closed closing (stage_after_closed opts handle)

/-- Only a new connection changes the pool. -/
theorem CallbackCase.pool {handle next : Handle} {event : Event} {after : Service Socket count}
    (case : CallbackCase service client handle event next after)
    (begun : handle.stage ≠ .waiting) : after.pool = service.pool := by
  cases case with
  | accepted waiting => exact absurd waiting begun
  | refused => rfl
  | failed => rfl
  | kept => rfl
  | ended => rfl
  | crashed => rfl
  | closed => rfl

end Callbacks

section Pool

variable {pool next : ThreadPool Socket count} {client : Socket}

/-- The client is being placed or waits in a queue. -/
def ThreadPool.Holds (pool : ThreadPool Socket count) (client : Socket) : Prop :=
  client ∈ pool.placing.sockets ∨ ∃ i, client ∈ (pool.mWorkers i).mQueue

theorem sockets_distinct (positive : 0 < count)
    (reached : Reachable PoolStep (.initial Socket count) pool) :
    (pool.queued + pool.handed + ↑pool.placing.sockets).Nodup := by
  have conserved := conserved_reachable positive reached
  rw [← pushed_eq fun j => inOrder_reachable (worker_reachable reached j), ← conserved.placed]
  exact Multiset.coe_nodup.mpr conserved.distinct

/-- A client that was handed to `on_accept` is in no queue and not being placed. -/
theorem not_holds_of_accepted {i : Fin count}
    (reached : Reachable PoolStep (.initial Socket count) pool)
    (accepted : client ∈ (pool.mWorkers i).accepted) : ¬ pool.Holds client := by
  have handed : client ∈ pool.handed :=
    Multiset.mem_sum.mpr ⟨i, Finset.mem_univ i, Multiset.mem_coe.mpr accepted⟩
  have distinct := sockets_distinct i.pos reached
  obtain ⟨worked, -, placing⟩ := Multiset.nodup_add.mp distinct
  obtain ⟨-, -, queues⟩ := Multiset.nodup_add.mp worked
  rintro (placed | ⟨j, queued⟩)
  · exact Multiset.disjoint_left.mp placing (Multiset.mem_add.mpr (.inr handed))
      (Multiset.mem_coe.mpr placed)
  · have member : client ∈ pool.queued :=
      Multiset.mem_sum.mpr ⟨j, Finset.mem_univ j, Multiset.mem_coe.mpr queued⟩
    exact Multiset.disjoint_left.mp queues member handed

/-- What a step leaves alone that hands on no client: the pool comes to hold none
but the one it was holding. -/
structure Retains (pool next : ThreadPool Socket count) : Prop where
  passed : next.passed = pool.passed
  accepted : ∀ i, (next.mWorkers i).accepted = (pool.mWorkers i).accepted
  holds : ∀ client, next.Holds client → pool.Holds client

theorem retains_setWorker {i : Fin count} {after : Worker Socket} (pool : ThreadPool Socket count)
    (queue : after.mQueue = (pool.mWorkers i).mQueue)
    (accepted : after.accepted = (pool.mWorkers i).accepted) {placing : Placing Socket count}
    (placed : ∀ client ∈ placing.sockets, client ∈ pool.placing.sockets) :
    Retains pool { pool.setWorker i after with placing } := by
  refine ⟨rfl, fun j => congrFun (setWorker_same pool Worker.accepted accepted) j, ?_⟩
  rintro client (placing | ⟨j, queued⟩)
  · exact .inl (placed client placing)
  · have same := congrFun (setWorker_same pool Worker.mQueue queue) j
    exact .inr ⟨j, same ▸ queued⟩

theorem retains_place {event : PoolEvent Socket count} (places : event.places = true)
    (taken : PoolStep pool event next) : Retains pool next := by
  cases taken with
  | enqueue => cases places
  | clear => cases places
  | perform => cases places
  | queueSize scanning more =>
    refine ⟨rfl, fun _ => rfl, ?_⟩
    rintro client (placing | queued)
    · rw [round_sockets] at placing
      exact .inl (by rw [scanning]; exact placing)
    · exact .inr queued
  | @loopEnd _ scan scanning finished =>
    refine ⟨rfl, fun _ => rfl, ?_⟩
    rintro client (placing | queued)
    · refine .inl ?_
      rw [scanning]
      change client ∈ scan.finish.sockets at placing
      unfold Scan.finish at placing
      split at placing
      · exact placing
      · exact absurd placing List.not_mem_nil
    · exact .inr queued
  | @push socket after _ target pushing taken =>
    cases taken with
    | push =>
      refine ⟨rfl, fun j => congrFun (setWorker_same pool Worker.accepted (by rfl)) j, ?_⟩
      rintro client (placing | ⟨j, queued⟩)
      · exact absurd placing List.not_mem_nil
      · by_cases same : j = target
        · subst same
          change client ∈ ((pool.setWorker _ _).mWorkers _).mQueue at queued
          rw [mWorkers_setWorker] at queued
          rcases List.mem_append.mp queued with before | pushed
          · exact .inr ⟨_, before⟩
          · exact .inl (by rw [pushing]; exact pushed)
        · change client ∈ ((pool.setWorker _ _).mWorkers _).mQueue at queued
          rw [mWorkers_setWorker_of_ne pool same] at queued
          exact .inr ⟨j, queued⟩
  | send sending taken =>
    cases taken
    exact retains_setWorker pool (by rfl) (by rfl) nofun

theorem retains_clear {i : Fin count} (taken : PoolStep pool (.worker i .clear) next) :
    Retains pool next := by
  cases taken with
  | clear taken =>
    cases taken
    exact retains_setWorker pool (by rfl) (by rfl) fun _ member => member

/-- The step of the pool in `perform`. -/
theorem perform_pool {i : Fin count} {rest : List Socket}
    (taken : PoolStep pool (.worker i .perform) next)
    (front : (pool.mWorkers i).mQueue = client :: rest) :
    next = pool.setWorker i { pool.mWorkers i with
      mQueue := rest, performing := false, accepted := (pool.mWorkers i).accepted ++ [client] } := by
  cases taken with
  | perform taken =>
    cases taken with
    | perform running returned =>
      obtain ⟨other, others, queue, same⟩ := perform_eq_some_iff.mp returned
      cases front.symm.trans queue
      rw [same]

end Pool

end MailruHttp.Sys
