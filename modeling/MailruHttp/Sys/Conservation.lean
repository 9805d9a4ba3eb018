import Mathlib.Algebra.BigOperators.Group.Finset.Piecewise
import Mathlib.Algebra.Order.BigOperators.Group.Finset
import Mathlib.Algebra.Order.Group.Multiset
import Mathlib.Data.Fintype.Basic
import MailruHttp.Sys.ThreadPool

/-! No socket passed to the pool is lost or handed on twice. -/

namespace MailruHttp.Sys

open Library

universe u

variable {Socket : Type u} {count : Nat}

/-- The sockets in the workers' queues. -/
def ThreadPool.queued (pool : ThreadPool Socket count) : Multiset Socket :=
  ∑ i, (↑(pool.mWorkers i).mQueue : Multiset Socket)

/-- The sockets handed to `on_accept`. -/
def ThreadPool.handed (pool : ThreadPool Socket count) : Multiset Socket :=
  ∑ i, (↑(pool.mWorkers i).accepted : Multiset Socket)

def ThreadPool.pushed (pool : ThreadPool Socket count) : Multiset Socket :=
  ∑ i, (↑(pool.mWorkers i).pushed : Multiset Socket)

/-- The socket still being placed, if there is one. -/
def Placing.sockets : Placing Socket count → List Socket
  | .idle => []
  | .scanning scan => [scan.socket]
  | .pushing socket _ => [socket]
  | .sending _ => []

/-- Past the first round the loop has a fallback. -/
def Placing.Fallback : Placing Socket count → Prop
  | .scanning scan => scan.i = 0 ∨ scan.pos.isSome
  | _ => True

/-- What every step of the pool keeps. -/
structure Conserved (pool : ThreadPool Socket count) : Prop where
  placed : (↑pool.passed : Multiset Socket) = pool.pushed + ↑pool.placing.sockets
  distinct : pool.passed.Nodup
  fallback : pool.placing.Fallback

theorem round_sockets (scan : Scan Socket count) (i : Fin count) (tmp : Nat) :
    (scan.round i tmp).sockets = [scan.socket] := by
  unfold Scan.round
  split
  · rfl
  · split <;> rfl

theorem round_fallback (scan : Scan Socket count) (i : Fin count) (tmp : Nat) :
    (scan.round i tmp).Fallback := by
  unfold Scan.round
  split
  · trivial
  · split
    · exact .inr rfl
    · rename_i kept
      simp only [not_or, Option.isNone_iff_eq_none, ← Option.isSome_iff_ne_none] at kept
      exact .inr kept.1

theorem pushed_setWorker (pool : ThreadPool Socket count) (i : Fin count) (after : Worker Socket) :
    (pool.setWorker i after).pushed + ↑(pool.mWorkers i).pushed = pool.pushed + ↑after.pushed := by
  have updated : (fun j => (↑((pool.setWorker i after).mWorkers j).pushed : Multiset Socket)) =
      Function.update (fun j => (↑(pool.mWorkers j).pushed : Multiset Socket)) i ↑after.pushed := by
    funext j
    by_cases same : j = i
    · subst same
      rw [mWorkers_setWorker, Function.update_self]
    · rw [mWorkers_setWorker_of_ne pool same, Function.update_of_ne same]
  have before := Finset.add_sum_erase Finset.univ
    (fun j => (↑(pool.mWorkers j).pushed : Multiset Socket)) (Finset.mem_univ i)
  rw [ThreadPool.pushed, updated, Finset.sum_update_of_mem (Finset.mem_univ i),
    ← Finset.erase_eq, ThreadPool.pushed, ← before]
  ac_rfl

theorem pushed_push (pool : ThreadPool Socket count) (i : Fin count) (socket : Socket) :
    (pool.setWorker i ((pool.mWorkers i).push socket)).pushed = pool.pushed + ↑[socket] := by
  have moved := pushed_setWorker pool i ((pool.mWorkers i).push socket)
  have longer : (↑((pool.mWorkers i).push socket).pushed : Multiset Socket) =
      ↑[socket] + ↑(pool.mWorkers i).pushed := by
    rw [add_comm, Multiset.coe_add]
    rfl
  rw [longer, ← add_assoc] at moved
  exact add_right_cancel moved

theorem pushed_setWorker_same (pool : ThreadPool Socket count) {i : Fin count}
    {after : Worker Socket} (same : after.pushed = (pool.mWorkers i).pushed) :
    (pool.setWorker i after).pushed = pool.pushed := by
  have kept := setWorker_same pool (fun worker => (↑worker.pushed : Multiset Socket))
    (congrArg Multiset.ofList same)
  exact congrArg (fun pushed : Fin count → Multiset Socket => ∑ j, pushed j) kept

theorem conserved_step {pool next : ThreadPool Socket count} {event : PoolEvent Socket count}
    (positive : 0 < count) (conserved : Conserved pool) (taken : PoolStep pool event next) :
    Conserved next := by
  obtain ⟨placed, distinct, fallback⟩ := conserved
  cases taken with
  | enqueue idle fresh =>
    rw [idle] at placed
    refine ⟨?_, ?_, .inl rfl⟩
    · rw [← Multiset.coe_add, placed]
      simp [Placing.sockets, ThreadPool.pushed]
    · rw [← List.concat_eq_append]
      exact distinct.concat fresh
  | queueSize scanning more =>
    rw [scanning] at placed
    refine ⟨?_, distinct, round_fallback _ _ _⟩
    rw [round_sockets]
    exact placed
  | loopEnd scanning finished =>
    rw [scanning] at placed fallback
    rcases fallback with first | found
    · omega
    · obtain ⟨pos, found⟩ := Option.isSome_iff_exists.mp found
      simp only [Scan.finish, found]
      exact ⟨placed, distinct, trivial⟩
  | push pushing taken =>
    rw [pushing] at placed
    cases taken with
    | push =>
      refine ⟨?_, distinct, trivial⟩
      change (↑pool.passed : Multiset Socket) = (pool.setWorker _ _).pushed + ↑([] : List Socket)
      rw [pushed_push, placed]
      simp [Placing.sockets]
  | send sending taken =>
    rw [sending] at placed
    cases taken with
    | send =>
      refine ⟨?_, distinct, trivial⟩
      change (↑pool.passed : Multiset Socket) = (pool.setWorker _ _).pushed + _
      rw [pushed_setWorker_same pool (by rfl)]
      exact placed
  | clear taken =>
    cases taken with
    | clear =>
      refine ⟨?_, distinct, fallback⟩
      rw [pushed_setWorker_same pool (by rfl)]
      exact placed
  | perform taken =>
    cases taken with
    | perform running returned =>
      obtain ⟨client, rest, queue, same⟩ := perform_eq_some_iff.mp returned
      refine ⟨?_, distinct, fallback⟩
      rw [pushed_setWorker_same pool (by rw [same])]
      exact placed

theorem conserved_reachable {pool : ThreadPool Socket count} (positive : 0 < count)
    (reached : Reachable PoolStep (.initial Socket count) pool) : Conserved pool := by
  apply reached.invariant (fun _ _ _ conserved taken => conserved_step positive conserved taken)
  exact ⟨by simp [ThreadPool.initial, ThreadPool.pushed, Placing.sockets], List.nodup_nil, trivial⟩

/-- In a pool whose workers keep their order, pushed means queued or handed on. -/
theorem pushed_eq {pool : ThreadPool Socket count} (ordered : ∀ i, InOrder (pool.mWorkers i)) :
    pool.pushed = pool.queued + pool.handed := by
  rw [ThreadPool.queued, ThreadPool.handed, ← Finset.sum_add_distrib, ThreadPool.pushed]
  apply Finset.sum_congr rfl
  intro i _
  rw [← ordered i, ← Multiset.coe_add, add_comm]

theorem accepted_le_handed (pool : ThreadPool Socket count) {i j : Fin count} (different : i ≠ j) :
    (↑(pool.mWorkers i).accepted + ↑(pool.mWorkers j).accepted : Multiset Socket) ≤
      pool.handed := by
  have pair : ∑ k ∈ {i, j}, (↑(pool.mWorkers k).accepted : Multiset Socket) = _ :=
    Finset.sum_pair different
  rw [← pair, ThreadPool.handed]
  exact Finset.sum_le_sum_of_subset (Finset.subset_univ _)

/-- In every reachable state of a pool with a worker, the sockets passed to it are
those queued, those handed to `on_accept` and the one being placed, all distinct;
none is handed on twice, and each worker hands on its sockets in their order. -/
theorem sockets_conserved {Socket : Type u} {count : Nat} (positive : 0 < count)
    (pool : ThreadPool Socket count) (reached : Reachable PoolStep (.initial Socket count) pool) :
    (↑pool.passed : Multiset Socket) = pool.queued + pool.handed + ↑pool.placing.sockets ∧
    (pool.queued + pool.handed + ↑pool.placing.sockets).Nodup ∧
    pool.placing.sockets.length ≤ 1 ∧
    (∀ i, (pool.mWorkers i).accepted.Nodup) ∧
    (∀ i j, i ≠ j → (pool.mWorkers i).accepted.Disjoint (pool.mWorkers j).accepted) ∧
    ∀ i, (pool.mWorkers i).accepted ++ (pool.mWorkers i).mQueue = (pool.mWorkers i).pushed := by
  have ordered (i : Fin count) := inOrder_reachable (worker_reachable reached i)
  have conserved := conserved_reachable positive reached
  have placed := conserved.placed
  rw [pushed_eq ordered] at placed
  have distinct : (pool.queued + pool.handed + ↑pool.placing.sockets).Nodup := by
    rw [← placed]
    exact Multiset.coe_nodup.mpr conserved.distinct
  have handed : pool.handed.Nodup :=
    (Multiset.nodup_add.mp (Multiset.nodup_add.mp distinct).1).2.1
  refine ⟨placed, distinct, ?_, ?_, ?_, ordered⟩
  · cases pool.placing <;> simp [Placing.sockets]
  · intro i
    have part : (↑(pool.mWorkers i).accepted : Multiset Socket) ≤ pool.handed :=
      Finset.single_le_sum (fun _ _ => Multiset.zero_le _) (Finset.mem_univ i)
    exact Multiset.coe_nodup.mp (Multiset.nodup_of_le part handed)
  · intro i j different
    have both := Multiset.nodup_of_le (accepted_le_handed pool different) handed
    exact Multiset.coe_disjoint _ _ |>.mp (Multiset.nodup_add.mp both).2.2

/-- One socket on its way through a pool of two workers. -/
theorem sockets_conserved_single :
    ∃ pool : ThreadPool Nat 2, pool.passed = [7] ∧ (pool.mWorkers 0).accepted = [7] ∧
      (↑pool.passed : Multiset Nat) = pool.queued + pool.handed + ↑pool.placing.sockets := by
  have start : Reachable PoolStep (.initial Nat 2) (.initial Nat 2) := .start
  have scanned := (start.next (.enqueue rfl (List.not_mem_nil : 7 ∉ _))).next
    (.queueSize rfl (Nat.succ_pos 1))
  have sent := (scanned.next (.push rfl .push)).next (.send rfl (.send (Nat.succ_pos 0)))
  have served := (sent.next (.clear (.clear rfl rfl) : PoolStep _ (.worker 0 .clear) _)).next
    (.perform (.perform rfl rfl) : PoolStep _ (.worker 0 .perform) _)
  exact ⟨_, rfl, rfl, (sockets_conserved (Nat.succ_pos 1) _ served).1⟩

/-- Between its push and its send, the accepting thread has a signal to send. -/
def Due (pool : ThreadPool Socket count) : Prop :=
  ∀ target, pool.placing = .sending target → 0 < (pool.mWorkers target).sending

theorem due_step {pool next : ThreadPool Socket count} {event : PoolEvent Socket count}
    (due : Due pool) (taken : PoolStep pool event next) : Due next := by
  intro target sending
  cases taken with
  | enqueue => cases sending
  | queueSize =>
    have kept := round_sockets _ _ _ |>.symm.trans (congrArg Placing.sockets sending)
    cases kept
  | @loopEnd _ scan =>
    change scan.finish = _ at sending
    unfold Scan.finish at sending
    split at sending <;> cases sending
  | push pushing taken =>
    cases sending
    cases taken
    change 0 < ((pool.setWorker _ _).mWorkers _).sending
    rw [mWorkers_setWorker]
    exact Nat.succ_pos _
  | send => cases sending
  | clear taken =>
    cases taken
    rw [congrFun (setWorker_same pool Worker.sending (by rfl)) target]
    exact due target sending
  | perform taken =>
    cases taken with
    | perform running returned =>
      obtain ⟨_, _, _, same⟩ := perform_eq_some_iff.mp returned
      rw [congrFun (setWorker_same pool Worker.sending (by rw [same])) target]
      exact due target sending

/-- Once begun, a call of `enqueue` is never stuck. -/
theorem enqueue_goes_on {pool : ThreadPool Socket count}
    (reached : Reachable PoolStep (.initial Socket count) pool) (begun : pool.placing ≠ .idle) :
    ∃ event next, PoolStep pool event next ∧ next.placing ≠ pool.placing := by
  have due : Due pool := reached.invariant (fun _ _ _ due taken => due_step due taken)
    (fun _ sending => by cases sending)
  cases placing : pool.placing with
  | idle => exact absurd placing begun
  | scanning scan =>
    rcases Nat.lt_or_ge scan.i count with more | finished
    · refine ⟨_, _, .queueSize placing more, ?_⟩
      change scan.round _ _ ≠ .scanning scan
      unfold Scan.round
      intro same
      -- a round either leaves the loop or moves on to the next index
      split at same
      · cases same
      · split at same <;> simpa using congrArg Scan.i (Placing.scanning.inj same)
    · refine ⟨_, _, .loopEnd placing finished, ?_⟩
      change scan.finish ≠ .scanning scan
      unfold Scan.finish
      split <;> simp
  | pushing socket target => exact ⟨_, _, .push placing .push, by simp⟩
  | sending target => exact ⟨_, _, .send placing (.send (due target placing)), by simp⟩

end MailruHttp.Sys
