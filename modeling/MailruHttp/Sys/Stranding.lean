import Mathlib.Algebra.BigOperators.Fin
import MailruHttp.Sys.Composition
import MailruHttp.Sys.Rest
import MailruHttp.Sys.Signals

/-! How the whole server comes to rest, and the clients it has then left in its
queues: how many they are, and which calls of `ThreadPool::enqueue` leave one there. -/

namespace MailruHttp.Sys

open Library Cmd Server

universe u

variable {Socket : Type u} {count : Nat}

/-- The scan of a call of `enqueue` ends without an empty queue. -/
def PoolEvent.full : PoolEvent Socket count → Bool
  | .loopEnd => true
  | _ => false

/-- The send of a call of `enqueue` finds the flag of its worker already set. -/
def ThreadPool.merges (pool : ThreadPool Socket count) : PoolEvent Socket count → Bool
  | .worker i .send => (pool.mWorkers i).receiveSignal
  | _ => false

/-- If nothing else happens, the signal of the call under way is merged. -/
def ThreadPool.AtRisk (pool : ThreadPool Socket count) : Prop :=
  match pool.placing with
  | .pushing _ target => (pool.mWorkers target).mQueue ≠ []
  | .sending target => (pool.mWorkers target).receiveSignal = true
  | _ => False

/-- Merged signals, one sum for all workers. -/
def Balanced (lost : Nat) (workers : Fin count → Worker Socket) : Prop :=
  ∃ merged : Fin count → Nat, ∑ i, merged i = lost ∧ ∀ i, Accounted (merged i) (workers i)

/-- After `full` scans without an empty queue and `lost` merged signals. -/
structure Ledger (full lost : Nat) (pool : ThreadPool Socket count) : Prop where
  balanced : Balanced lost pool.mWorkers
  covered : lost ≤ full
  room : pool.AtRisk → lost < full

theorem ledger_initial : Ledger 0 0 (.initial Socket count) where
  balanced := ⟨fun _ => 0, by simp, fun _ => rfl⟩
  covered := Nat.le_refl 0
  room := nofun

section Step

variable {pool next : ThreadPool Socket count} {event : PoolEvent Socket count} {full lost : Nat}

theorem merges_worker (pool : ThreadPool Socket count) (i : Fin count) (event : WorkerEvent Socket) :
    (pool.merges (.worker i event)).toNat = if Merged (pool.mWorkers i) event then 1 else 0 := by
  cases event with
  | send => cases signal : (pool.mWorkers i).receiveSignal <;> simp [ThreadPool.merges, Merged, signal]
  | push => simp [ThreadPool.merges, Merged]
  | clear => simp [ThreadPool.merges, Merged]
  | perform => simp [ThreadPool.merges, Merged]

theorem balanced_setWorker {i : Fin count} {event : WorkerEvent Socket} {after : Worker Socket}
    (balanced : Balanced lost pool.mWorkers) (taken : WorkerStep (pool.mWorkers i) event after) :
    Balanced (lost + (pool.merges (.worker i event)).toNat) (pool.setWorker i after).mWorkers := by
  obtain ⟨merged, total, accounted⟩ := balanced
  have moved := accounted_step (accounted i) taken
  rw [← merges_worker] at moved
  refine ⟨fun j => merged j + if j = i then (pool.merges (.worker i event)).toNat else 0, ?_, ?_⟩
  · rw [Finset.sum_add_distrib, total, Finset.sum_ite_eq', if_pos (Finset.mem_univ i)]
  · intro j
    by_cases same : j = i
    · subst same
      simp only [mWorkers_setWorker, ↓reduceIte]
      exact moved
    · simp only [mWorkers_setWorker_of_ne pool same, same, ↓reduceIte, Nat.add_zero]
      exact accounted j

theorem balanced_step (balanced : Balanced lost pool.mWorkers) (taken : PoolStep pool event next) :
    Balanced (lost + (pool.merges event).toNat) next.mWorkers := by
  cases taken with
  | enqueue => exact balanced
  | queueSize => exact balanced
  | loopEnd => exact balanced
  | push pushing taken => exact balanced_setWorker balanced taken
  | send sending taken => exact balanced_setWorker balanced taken
  | clear taken => exact balanced_setWorker balanced taken
  | perform taken => exact balanced_setWorker balanced taken

/-- A flag that is set has a socket in the queue behind it. -/
theorem queue_of_signal (balanced : Balanced lost pool.mWorkers) {i : Fin count}
    (signal : (pool.mWorkers i).receiveSignal = true) : (pool.mWorkers i).mQueue ≠ [] := by
  obtain ⟨merged, -, accounted⟩ := balanced
  have length := accounted i
  unfold Accounted at length
  rw [signal, Bool.toNat_true] at length
  intro empty
  rw [empty, List.length_nil] at length
  omega

theorem atRisk_of_merges (taken : PoolStep pool event next) (merges : pool.merges event = true) :
    pool.AtRisk := by
  cases taken with
  | enqueue => cases merges
  | queueSize => cases merges
  | loopEnd => cases merges
  | push => cases merges
  | send sending taken =>
    rw [ThreadPool.AtRisk, sending]
    exact merges
  | clear => cases merges
  | perform => cases merges

/-- A worker's callback makes no queue longer and sets no flag. -/
theorem atRisk_setWorker {i : Fin count} {after : Worker Socket}
    (queue : after.mQueue ≠ [] → (pool.mWorkers i).mQueue ≠ [])
    (signal : after.receiveSignal = true → (pool.mWorkers i).receiveSignal = true)
    (risk : (pool.setWorker i after).AtRisk) : pool.AtRisk := by
  unfold ThreadPool.AtRisk at risk ⊢
  change match pool.placing with
    | .pushing _ target => ((pool.setWorker i after).mWorkers target).mQueue ≠ []
    | .sending target => ((pool.setWorker i after).mWorkers target).receiveSignal = true
    | _ => False at risk
  cases placing : pool.placing with
  | idle => simp [placing] at risk
  | scanning scan => simp [placing] at risk
  | pushing socket target =>
    simp only [placing] at risk
    by_cases same : target = i
    · subst same
      rw [mWorkers_setWorker] at risk
      exact queue risk
    · rw [mWorkers_setWorker_of_ne pool same] at risk
      exact risk
  | sending target =>
    simp only [placing] at risk
    by_cases same : target = i
    · subst same
      rw [mWorkers_setWorker] at risk
      exact signal risk
    · rw [mWorkers_setWorker_of_ne pool same] at risk
      exact risk

theorem round_not_atRisk (pool : ThreadPool Socket count) (scan : Scan Socket count)
    (i : Fin count) :
    ¬ ThreadPool.AtRisk { pool with placing := scan.round i (pool.mWorkers i).queueSize } := by
  unfold Scan.round
  split
  · rename_i empty
    intro risk
    exact risk (List.length_eq_zero_iff.mp empty)
  · split <;> exact id

/-- Only a scan that finds no empty queue puts its client at risk: a queue that was
empty when the scan met it is empty when the client is pushed. -/
theorem atRisk_step (balanced : Balanced lost pool.mWorkers) (taken : PoolStep pool event next)
    (risk : next.AtRisk) : event.full = true ∨ pool.AtRisk ∧ pool.merges event = false := by
  cases taken with
  | enqueue => exact risk.elim
  | queueSize scanning more => exact absurd risk (round_not_atRisk pool _ _)
  | loopEnd => exact .inl rfl
  | push pushing taken =>
    cases taken
    refine .inr ⟨?_, rfl⟩
    rw [ThreadPool.AtRisk] at risk ⊢
    rw [pushing]
    simp only [mWorkers_setWorker] at risk
    exact queue_of_signal balanced risk
  | send => exact risk.elim
  | clear taken =>
    cases taken with
    | clear signalled =>
      refine .inr ⟨atRisk_setWorker ?_ ?_ risk, rfl⟩
      · exact id
      · exact fun _ => signalled
  | perform taken =>
    cases taken with
    | perform running returned =>
      obtain ⟨client, rest, queue, same⟩ := perform_eq_some_iff.mp returned
      refine .inr ⟨atRisk_setWorker ?_ ?_ risk, rfl⟩
      · simp [queue]
      · simp [same]

theorem ledger_step (ledger : Ledger full lost pool) (taken : PoolStep pool event next) :
    Ledger (full + event.full.toNat) (lost + (pool.merges event).toNat) next := by
  obtain ⟨balanced, covered, room⟩ := ledger
  refine ⟨balanced_step balanced taken, ?_, fun risk => ?_⟩
  · cases merges : pool.merges event with
    | false => exact Nat.le_add_right_of_le covered
    | true =>
      have spare := room (atRisk_of_merges taken merges)
      exact Nat.le_add_right_of_le spare
  · rcases atRisk_step balanced taken risk with full | ⟨risk, merges⟩
    · cases event with
      | loopEnd => exact Nat.lt_succ_of_le covered
      | _ => cases full
    · rw [merges]
      exact Nat.lt_add_right _ (room risk)

end Step

section Run

variable {opts : Options} {started : Nat → Bool} {whole next : WholeServer Socket count}

/-- The send of a call of `enqueue` finds the flag of its worker already set. -/
def WholeServer.merges (whole : WholeServer Socket count) : WholeEvent Socket count → Bool
  | .place event => whole.pool.merges event
  | _ => false

/-- The scan of a call of `enqueue` ends without an empty queue. -/
def WholeEvent.full : WholeEvent Socket count → Bool
  | .place event => event.full
  | _ => false

def mergedCalls (history : List (WholeServer Socket count × WholeEvent Socket count)) : Nat :=
  history.countP fun taken => taken.1.merges taken.2

/-- The steps of `ThreadPool::enqueue` and of the workers' callbacks for it. -/
def WholeEvent.pools : WholeEvent Socket count → Bool
  | .callback _ _ => false
  | _ => true

def fullCalls (history : List (WholeServer Socket count × WholeEvent Socket count)) : Nat :=
  history.countP fun taken => taken.2.full

/-- A callback leaves the pool alone, or begins a call of `enqueue`. -/
theorem callback_pool {client : Socket} {event : Event} {after : Handle} (joined : Joined whole)
    (free : whole.Free started (whole.loop client)) (libuv : event ≠ .accept)
    (taken : HandleStep opts (whole.handles client) event after) :
    let service := whole.service.records client (effectsOf opts (whole.handles client) event)
    service.pool = whole.pool ∨ PoolStep whole.pool (.enqueue client) service.pool := by
  have case : CallbackCase whole.service client _ event after _ :=
    callback_case (joined.tracked client) libuv taken
  generalize whole.service.records client _ = service at case ⊢
  cases case with
  | accepted waiting =>
    obtain ⟨fresh, -⟩ := joined.fresh client waiting
    rw [joined.unowned client (.inl waiting)] at free
    exact .inr (.enqueue free fresh)
  | refused => exact .inl rfl
  | failed => exact .inl rfl
  | kept => exact .inl rfl
  | ended => exact .inl rfl
  | crashed => exact .inl rfl
  | closed => exact .inl rfl

variable [DecidableEq Socket]

theorem ledger_wholeStep {event : WholeEvent Socket count} {full lost : Nat}
    (joined : Joined whole) (ledger : Ledger full lost whole.pool)
    (taken : WholeStep opts started whole event next) :
    Ledger (full + event.full.toNat) (lost + (whole.merges event).toNat) next.pool := by
  cases taken with
  | callback alive libuv free taken =>
    rcases callback_pool joined free libuv taken with same | begun
    · change Ledger full lost (Service.pool _)
      rw [same]
      exact ledger
    · exact ledger_step ledger begun
  | place alive places taken => exact ledger_step ledger taken
  | clear alive running taken => exact ledger_step ledger taken
  | perform alive running taken front => exact ledger_step ledger taken

/-- A step of the pool takes from its weight, and a callback adds to it at most the
weight of a new client. -/
theorem credit_wholeStep {event : WholeEvent Socket count} (joined : Joined whole)
    (taken : WholeStep opts started whole event next) :
    event.pools.toNat + next.pool.weight + (count + 6) * whole.pool.passed.length ≤
      whole.pool.weight + (count + 6) * next.pool.passed.length := by
  have within {event : PoolEvent Socket count} {pool : ThreadPool Socket count}
      (taken : PoolStep whole.pool event pool) (within : event.begins = false) :
      1 + pool.weight + (count + 6) * whole.pool.passed.length ≤
        whole.pool.weight + (count + 6) * pool.passed.length := by
    obtain ⟨less, passed⟩ := weight_falls taken within
    rw [passed]
    omega
  cases taken with
  | callback alive libuv free taken =>
    rcases callback_pool joined free libuv taken with same | begun
    · change 0 + (Service.pool _).weight + _ ≤ _ + _ * (Service.pool _).passed.length
      rw [same]
      omega
    · obtain ⟨weight, passed⟩ := weight_begins begun rfl
      change 0 + (Service.pool _).weight + _ ≤ _ + _ * (Service.pool _).passed.length
      rw [weight, passed, Nat.mul_succ]
      omega
  | @place event _ _ alive places taken =>
    have begins : event.begins = false := by cases event <;> first | rfl | cases places
    exact within taken begins
  | clear alive running taken => exact within taken rfl
  | perform alive running taken front => exact within taken rfl

theorem ledger_run {history : List (WholeServer Socket count × WholeEvent Socket count)}
    (run : Run (WholeStep opts started) (.initial Socket count) history whole) :
    Ledger (fullCalls history) (mergedCalls history) whole.pool := by
  induction run with
  | start => exact ledger_initial
  | @next history state event after earlier taken ih =>
    have kept := ledger_wholeStep (joined_reachable ⟨_, earlier⟩) ih taken
    have counted (flag : Bool) : (if flag = true then 1 else 0) = flag.toNat := by cases flag <;> rfl
    simpa only [fullCalls, mergedCalls, List.countP_append, List.countP_singleton, counted] using kept

end Run

/-- With its threads running, the server serves each client it was given within a
number of steps linear in the number of workers: until it is at rest, it goes on. -/
theorem server_comes_to_rest {Socket : Type u} {count : Nat} [DecidableEq Socket] {opts : Options}
    {started : Nat → Bool} {whole : WholeServer Socket count}
    {history : List (WholeServer Socket count × WholeEvent Socket count)}
    (run : Run (WholeStep opts started) (.initial Socket count) history whole) :
    history.countP (fun taken => taken.2.pools) ≤ (count + 6) * whole.pool.passed.length ∧
    ((∀ i : Fin count, started i = true) → (∀ client, whole.stage client ≠ .crashed) →
      (whole.pool.placing = .idle ∧ ∀ i, Quiet (whole.pool.mWorkers i)) ∨
      ∃ event next, WholeStep opts started whole event next ∧ event.pools = true) := by
  have joined := joined_reachable ⟨history, run⟩
  constructor
  · have bounded := run.countP_add_le (fun whole => whole.pool.weight)
      (fun whole => (count + 6) * whole.pool.passed.length) (fun _ => WholeEvent.pools)
      (fun _ _ _ joined taken => joined_step joined taken)
      (fun _ _ _ joined taken => credit_wholeStep joined taken) joined_initial
    have start : (WholeServer.initial Socket count).pool.weight = 0 := by
      simp [WholeServer.initial, WholeServer.pool, Service.initial, ThreadPool.initial,
        ThreadPool.weight, Placing.weight, Worker.pending]
    rw [start] at bounded
    omega
  · intro running alive
    rcases pool_goes_on joined.pool with rest | ⟨event, next, taken, within⟩
    · exact .inl rest
    · refine .inr ?_
      cases taken with
      | enqueue => cases within
      | queueSize scanning more => exact ⟨_, _, .place alive rfl (.queueSize scanning more), rfl⟩
      | loopEnd scanning finished => exact ⟨_, _, .place alive rfl (.loopEnd scanning finished), rfl⟩
      | push pushing taken => exact ⟨_, _, .place alive rfl (.push pushing taken), rfl⟩
      | send sending taken => exact ⟨_, _, .place alive rfl (.send sending taken), rfl⟩
      | clear taken => exact ⟨_, _, .clear alive (running _) (.clear taken), rfl⟩
      | perform taken =>
        cases taken with
        | perform performing returned =>
          obtain ⟨client, rest, queue, -⟩ := perform_eq_some_iff.mp returned
          exact ⟨_, _, .perform alive (running _) (.perform (.perform performing returned)) queue, rfl⟩

/-- One client costs its scan, its signal and its callback. -/
theorem server_comes_to_rest_accepted :
    ∃ history whole, Run (WholeStep {} fun _ => true) (.initial Nat 1) history whole ∧
      history.countP (fun taken => taken.2.pools) = 5 ∧
      history.countP (fun taken => taken.2.pools) ≤ (1 + 6) * whole.pool.passed.length := by
  obtain ⟨history, whole, run, -, -, events⟩ := accepted_run {} 7
  have five : history.countP (fun taken => taken.2.pools) = 5 := by
    have counted := congrArg (List.countP WholeEvent.pools) events
    rw [List.countP_map] at counted
    exact counted
  exact ⟨history, whole, run, five, (server_comes_to_rest run).1⟩

/-- In a pool at rest every queued client is one whose signal was merged. -/
theorem card_queued {pool : ThreadPool Socket count} {lost : Nat}
    (balanced : Balanced lost pool.mWorkers) (quiet : ∀ i, Quiet (pool.mWorkers i)) :
    pool.queued.card = lost := by
  obtain ⟨merged, total, accounted⟩ := balanced
  rw [ThreadPool.queued, Multiset.card_sum, ← total]
  apply Finset.sum_congr rfl
  intro i _
  have length := accounted i
  unfold Accounted at length
  rw [(quiet i).cleared, (quiet i).sent, (quiet i).idle] at length
  simpa using length

/-- When the server comes to rest, the clients in its queues are those that no worker
accepted, one for each call of `ThreadPool::enqueue` whose signal was merged into an
earlier one. There are no more of them than calls that found every queue filled, so a
server whose calls always found an empty queue has accepted every client. -/
theorem clients_left_behind {Socket : Type u} {count : Nat} [DecidableEq Socket] {opts : Options}
    {started : Nat → Bool} {whole : WholeServer Socket count}
    {history : List (WholeServer Socket count × WholeEvent Socket count)} (positive : 0 < count)
    (run : Run (WholeStep opts started) (.initial Socket count) history whole)
    (idle : whole.pool.placing = .idle) (quiet : ∀ i, Quiet (whole.pool.mWorkers i)) :
    (∀ client, client ∈ whole.pool.queued ↔ whole.stage client = .placed) ∧
    whole.pool.queued.Nodup ∧ whole.pool.queued.card = mergedCalls history ∧
    mergedCalls history ≤ fullCalls history := by
  have joined := joined_reachable ⟨history, run⟩
  obtain ⟨balanced, covered, -⟩ := ledger_run run
  refine ⟨fun client => ⟨fun queued => ?_, fun placed => ?_⟩, ?_, card_queued balanced quiet, covered⟩
  · obtain ⟨i, -, member⟩ := Multiset.mem_sum.mp queued
    exact joined.held client (.inr ⟨i, Multiset.mem_coe.mp member⟩)
  · have unowned := joined.unowned client (.inr placed)
    have holds := joined.holds positive (joined.passed client placed) unowned
    rcases holds with placing | ⟨i, member⟩
    · rw [idle] at placing
      exact absurd placing List.not_mem_nil
    · exact Multiset.mem_sum.mpr ⟨i, Finset.mem_univ i, Multiset.mem_coe.mpr member⟩
  · have distinct := sockets_distinct positive joined.pool
    exact (Multiset.nodup_add.mp (Multiset.nodup_add.mp distinct).1).1

/-- The second of two clients that arrive before the one worker wakes up. -/
theorem clients_left_behind_second :
    ∃ history whole, Run (WholeStep {} fun _ => true) (.initial Nat 1) history whole ∧
      fullCalls history = 1 ∧ mergedCalls history = 1 ∧
      whole.pool.queued.card = mergedCalls history := by
  have none : ∀ other, (WholeServer.initial Nat 1).stage other ≠ .crashed := fun _ => nofun
  have fine : (Handle.after {} {} (.connect 0 0)).stage ≠ .crashed := nofun
  have connect {whole : WholeServer Nat 1} (client : Nat)
      (alive : ∀ other, whole.stage other ≠ .crashed)
      (free : whole.Free (fun _ => true) (whole.loop client))
      (waiting : whole.stage client = .waiting) :
      WholeStep {} (fun _ => true) whole (.callback client (.connect 0 0)) _ :=
    .callback alive nofun free (.connect waiting)
  have begin : Run (WholeStep {} fun _ => true) (.initial Nat 1) [] (.initial Nat 1) := .start
  have first := begin.next (connect 1 none (by rfl) rfl)
  have alive := alive_update none fine
  have scanned := first.next (.place (alive _ _ _) rfl (.queueSize rfl Nat.one_pos))
  have pushed := scanned.next (.place (alive _ _ _) rfl (.push rfl .push))
  have sent := pushed.next (.place (alive _ _ _) rfl (.send rfl (.send Nat.one_pos)))
  have second := sent.next (connect 2 (alive _ _ _) (by rfl) rfl)
  have alive service loop := alive_update (alive service 1 loop) fine service 2 loop
  have scanned := second.next (.place (alive _ _) rfl (.queueSize rfl Nat.one_pos))
  have chosen := scanned.next (.place (alive _ _) rfl (.loopEnd rfl (Nat.le_refl 1)))
  have pushed := chosen.next (.place (alive _ _) rfl (.push rfl .push))
  have sent := pushed.next (.place (alive _ _) rfl (.send rfl (.send Nat.one_pos)))
  have cleared := sent.next
    (.clear (alive _ _) rfl (.clear (.clear rfl rfl)) : WholeStep _ _ _ (.clear 0) _)
  have accepted := cleared.next
    (.perform (alive _ _) rfl (.perform (.perform rfl rfl)) rfl : WholeStep _ _ _ (.perform 0) _)
  have left := clients_left_behind Nat.one_pos accepted rfl fun i => by
    rw [Fin.fin_one_eq_zero i]
    exact ⟨rfl, rfl, rfl⟩
  exact ⟨_, _, accepted, rfl, rfl, left.2.2.1⟩

end MailruHttp.Sys
