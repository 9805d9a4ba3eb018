import MailruHttp.Sys.Callers
import MailruHttp.Sys.Conservation

/-! How a pool comes to rest: each socket passed to it pays for its own scan, signal
and callback, and until these are done a step is possible. -/

namespace MailruHttp.Sys

open Library

universe u

variable {Socket : Type u} {count : Nat}

/-- What is left of the callbacks of a worker. -/
def Worker.pending (worker : Worker Socket) : Nat :=
  2 * worker.receiveSignal.toNat + worker.performing.toNat

/-- What is left of a call of `ThreadPool::enqueue`, with the callback it signals. -/
def Placing.weight : Placing Socket count → Nat
  | .idle => 0
  | .scanning scan => count - scan.i + 6
  | .pushing _ _ => 4
  | .sending _ => 3

def ThreadPool.weight (pool : ThreadPool Socket count) : Nat :=
  pool.placing.weight + ∑ i, (pool.mWorkers i).pending

def PoolEvent.begins : PoolEvent Socket count → Bool
  | .enqueue _ => true
  | _ => false

theorem sum_replaced {first second : Fin count → Nat} {i : Fin count}
    (same : ∀ j, j ≠ i → second j = first j) :
    ∑ j, second j + first i = ∑ j, first j + second i := by
  have others : ∑ j ∈ Finset.univ.erase i, second j = ∑ j ∈ Finset.univ.erase i, first j :=
    Finset.sum_congr rfl fun j member => same j (Finset.ne_of_mem_erase member)
  rw [← Finset.add_sum_erase _ first (Finset.mem_univ i),
    ← Finset.add_sum_erase _ second (Finset.mem_univ i), others]
  omega

theorem sum_le_of_each {values : Fin count → Nat} {bound : Nat} (each : ∀ i, values i ≤ bound) :
    ∑ i, values i ≤ count * bound := by
  have total := Finset.sum_le_card_nsmul Finset.univ values bound fun i _ => each i
  rw [Finset.card_univ, Fintype.card_fin, Nat.nsmul_eq_mul] at total
  exact total

section Step

variable {pool next : ThreadPool Socket count} {event : PoolEvent Socket count}

theorem weight_of_idle (idle : pool.placing = .idle) : pool.weight ≤ count * 3 := by
  rw [ThreadPool.weight, idle, Placing.weight, Nat.zero_add]
  apply sum_le_of_each
  intro i
  have signal := Bool.toNat_le (pool.mWorkers i).receiveSignal
  have performing := Bool.toNat_le (pool.mWorkers i).performing
  unfold Worker.pending
  omega

theorem pending_setWorker (pool : ThreadPool Socket count) (i : Fin count) (worker : Worker Socket) :
    ∑ j, ((pool.setWorker i worker).mWorkers j).pending + (pool.mWorkers i).pending =
      ∑ j, (pool.mWorkers j).pending + worker.pending := by
  have replaced : _ + (pool.mWorkers i).pending = _ :=
    sum_replaced fun j (different : j ≠ i) =>
      congrArg Worker.pending (mWorkers_setWorker_of_ne pool different worker)
  rw [replaced, mWorkers_setWorker]

theorem round_weight (scan : Scan Socket count) (more : scan.i < count) (tmp : Nat) :
    (scan.round ⟨scan.i, more⟩ tmp).weight + 1 ≤ count - scan.i + 6 := by
  unfold Scan.round
  split
  · simp only [Placing.weight]
    omega
  · split
    · simp only [Placing.weight]
      omega
    · simp only [Placing.weight]
      omega

theorem finish_weight (scan : Scan Socket count) : scan.finish.weight ≤ 4 := by
  unfold Scan.finish
  split
  · exact Nat.le_refl 4
  · exact Nat.zero_le 4

theorem weight_placed {placing : Placing Socket count}
    (less : placing.weight + 1 ≤ pool.placing.weight) :
    ThreadPool.weight { pool with placing } + 1 ≤ pool.weight := by
  change placing.weight + ∑ i, (pool.mWorkers i).pending + 1 ≤ pool.placing.weight + _
  omega

theorem weight_setWorker {i : Fin count} {worker : Worker Socket} {placing : Placing Socket count}
    (less : placing.weight + worker.pending + 1 ≤ pool.placing.weight + (pool.mWorkers i).pending) :
    ThreadPool.weight { pool.setWorker i worker with placing } + 1 ≤ pool.weight := by
  have replaced := pending_setWorker pool i worker
  change placing.weight + ∑ j, ((pool.setWorker i worker).mWorkers j).pending + 1 ≤
    pool.placing.weight + _
  omega

/-- Every step but the beginning of a call takes from the weight. -/
theorem weight_falls (taken : PoolStep pool event next) (within : event.begins = false) :
    next.weight + 1 ≤ pool.weight ∧ next.passed = pool.passed := by
  cases taken with
  | enqueue => cases within
  | queueSize scanning more =>
    refine ⟨weight_placed ?_, rfl⟩
    rw [scanning]
    exact round_weight _ more _
  | @loopEnd _ scan scanning finished =>
    have chosen := finish_weight scan
    refine ⟨weight_placed ?_, rfl⟩
    rw [scanning]
    change _ ≤ count - scan.i + 6
    omega
  | push pushing taken =>
    cases taken
    refine ⟨weight_setWorker ?_, rfl⟩
    rw [pushing, Placing.weight, Placing.weight]
    simp only [Worker.pending, Worker.push]
    omega
  | send sending taken =>
    cases taken
    refine ⟨weight_setWorker ?_, rfl⟩
    rw [sending, Placing.weight, Placing.weight]
    simp only [Worker.pending, Worker.send, Bool.toNat_true]
    omega
  | clear taken =>
    cases taken with
    | clear signalled idle =>
      refine ⟨weight_setWorker ?_, rfl⟩
      simp only [Worker.pending, Worker.clear, signalled, idle, Bool.toNat_true, Bool.toNat_false]
      omega
  | perform taken =>
    cases taken with
    | perform running returned =>
      obtain ⟨client, rest, queue, same⟩ := perform_eq_some_iff.mp returned
      refine ⟨weight_setWorker ?_, rfl⟩
      simp only [Worker.pending, same, running, Bool.toNat_true, Bool.toNat_false]
      omega

/-- A call of `enqueue` begins with the weight of its scan. -/
theorem weight_begins (taken : PoolStep pool event next) (begins : event.begins = true) :
    next.weight = pool.weight + count + 6 ∧ next.passed.length = pool.passed.length + 1 := by
  cases taken with
  | enqueue idle fresh =>
    refine ⟨?_, List.length_append⟩
    change count - 0 + 6 + ∑ j, (pool.mWorkers j).pending = pool.placing.weight + _ + _ + _
    rw [idle, Placing.weight]
    omega
  | _ => cases begins

end Step

/-- The sends that the accepting thread still owes a worker. -/
def Placing.sends (i : Fin count) : Placing Socket count → Nat
  | .sending target => if i = target then 1 else 0
  | _ => 0

/-- Nobody but the accepting thread is inside a worker's `enqueue`. -/
def Sole (pool : ThreadPool Socket count) : Prop :=
  ∀ i, (pool.mWorkers i).sending = pool.placing.sends i

section Progress

variable {pool next : ThreadPool Socket count} {event : PoolEvent Socket count}

theorem round_sends (scan : Scan Socket count) (i : Fin count) (tmp : Nat) (j : Fin count) :
    (scan.round i tmp).sends j = 0 := by
  unfold Scan.round
  split
  · rfl
  · split <;> rfl

theorem finish_sends (scan : Scan Socket count) (j : Fin count) : scan.finish.sends j = 0 := by
  unfold Scan.finish
  split <;> rfl

theorem sole_step (sole : Sole pool) (taken : PoolStep pool event next) : Sole next := by
  intro j
  have before := sole j
  cases taken with
  | enqueue idle fresh =>
    rw [idle] at before
    exact before
  | queueSize scanning more =>
    rw [scanning] at before
    exact before.trans (round_sends _ _ _ j).symm
  | loopEnd scanning finished =>
    rw [scanning] at before
    exact before.trans (finish_sends _ j).symm
  | @push _ _ _ target pushing taken =>
    cases taken
    rw [pushing] at before
    by_cases same : j = target
    · subst same
      simpa [Placing.sends, Worker.push] using before
    · simpa [Placing.sends, same, mWorkers_setWorker_of_ne pool same] using before
  | @send _ _ target sending taken =>
    cases taken
    rw [sending] at before
    by_cases same : j = target
    · subst same
      simpa [Placing.sends, Worker.send] using congrArg (· - 1) before
    · simpa [Placing.sends, same, mWorkers_setWorker_of_ne pool same] using before
  | clear taken =>
    cases taken
    rw [congrFun (setWorker_same pool Worker.sending (by rfl)) j]
    exact before
  | perform taken =>
    cases taken with
    | perform running returned =>
      obtain ⟨_, _, _, same⟩ := perform_eq_some_iff.mp returned
      rw [congrFun (setWorker_same pool Worker.sending (by rw [same])) j]
      exact before

theorem sole_reachable (reached : Reachable PoolStep (.initial Socket count) pool) : Sole pool :=
  reached.invariant (fun _ _ _ sole taken => sole_step sole taken) fun _ => rfl

/-- A worker whose callback is under way, or due, goes on. -/
theorem worker_goes_on (reached : Reachable PoolStep (.initial Socket count) pool) (i : Fin count)
    (busy : (pool.mWorkers i).performing = true ∨ (pool.mWorkers i).receiveSignal = true) :
    ∃ next, PoolStep pool (.worker i .perform) next ∨ PoolStep pool (.worker i .clear) next := by
  cases performing : (pool.mWorkers i).performing with
  | true =>
    have nonempty := queue_ne_nil_of_performing (worker_reachable reached i) performing
    obtain ⟨client, rest, queue⟩ := List.exists_cons_of_ne_nil nonempty
    have returned := perform_eq_some_iff.mpr ⟨client, rest, queue, rfl⟩
    exact ⟨_, .inl (.perform (.perform performing returned))⟩
  | false =>
    rw [performing] at busy
    exact ⟨_, .inr (.clear (.clear (busy.resolve_left nofun) performing))⟩

/-- Until a pool is at rest, it goes on without another socket. -/
theorem pool_goes_on (reached : Reachable PoolStep (.initial Socket count) pool) :
    (pool.placing = .idle ∧ ∀ i, Quiet (pool.mWorkers i)) ∨
      ∃ event next, PoolStep pool event next ∧ event.begins = false := by
  by_cases begun : pool.placing = .idle
  · by_cases quiet : ∀ i, Quiet (pool.mWorkers i)
    · exact .inl ⟨begun, quiet⟩
    · obtain ⟨i, restless⟩ := not_forall.mp quiet
      have sent := sole_reachable reached i
      rw [begun] at sent
      have busy : (pool.mWorkers i).performing = true ∨ (pool.mWorkers i).receiveSignal = true := by
        by_contra still
        simp only [not_or, Bool.not_eq_true] at still
        exact restless ⟨still.2, sent, still.1⟩
      obtain ⟨next, taken | taken⟩ := worker_goes_on reached i busy
      · exact .inr ⟨_, next, taken, rfl⟩
      · exact .inr ⟨_, next, taken, rfl⟩
  · obtain ⟨event, next, taken, -⟩ := enqueue_goes_on reached begun
    refine .inr ⟨event, next, taken, ?_⟩
    cases taken with
    | enqueue idle => exact absurd idle begun
    | _ => rfl

end Progress

end MailruHttp.Sys
