import Mathlib.Logic.Function.Basic
import MailruHttp.Sys.Worker

/-! The pool of `sys/threadpool.cpp`: one accepting thread places sockets, one
locked access at a time, while the workers run their callbacks. -/

namespace MailruHttp.Sys

open Library

universe u v

variable {Socket : Type u} {count : Nat}

/-- The variables of the loop in `ThreadPool::enqueue`; `pos` is `none` for -1. -/
structure Scan (Socket : Type u) (count : Nat) where
  socket : Socket
  i : Nat := 0
  pos : Option (Fin count) := none
  minqueue : Nat := 0

/-- Where the accepting thread is in `ThreadPool::enqueue`. -/
inductive Placing (Socket : Type u) (count : Nat) where
  | idle
  | scanning (scan : Scan Socket count)
  /-- A worker is chosen; its `enqueue` has not pushed yet. -/
  | pushing (socket : Socket) (target : Fin count)
  /-- The worker's `enqueue` has pushed and not sent yet. -/
  | sending (target : Fin count)

/-- One round of the loop, where `tmp` is the size of the queue of worker `i`. -/
def Scan.round (scan : Scan Socket count) (i : Fin count) (tmp : Nat) : Placing Socket count :=
  if tmp = 0 then .pushing scan.socket i
  else if scan.pos.isNone ∨ tmp < scan.minqueue then
    .scanning { scan with i := scan.i + 1, pos := some i, minqueue := tmp }
  else .scanning { scan with i := scan.i + 1 }

/-- After the loop: the fallback, or nothing at all. -/
def Scan.finish (scan : Scan Socket count) : Placing Socket count :=
  match scan.pos with
  | some pos => .pushing scan.socket pos
  | none => .idle

/-- The workers, the accepting thread, and the sockets passed to `enqueue` so far. -/
structure ThreadPool (Socket : Type u) (count : Nat) where
  mWorkers : Fin count → Worker Socket
  placing : Placing Socket count := .idle
  passed : List Socket := []

/-- The pool as constructed. -/
def ThreadPool.initial (Socket : Type u) (count : Nat) : ThreadPool Socket count where
  mWorkers _ := {}

def ThreadPool.setWorker (pool : ThreadPool Socket count) (i : Fin count) (worker : Worker Socket) :
    ThreadPool Socket count :=
  { pool with mWorkers := Function.update pool.mWorkers i worker }

inductive PoolEvent (Socket : Type u) (count : Nat) where
  | enqueue (socket : Socket)
  | queueSize
  | loopEnd
  | worker (i : Fin count) (event : WorkerEvent Socket)

/-- What can happen next. `on_connect` passes a client it has just made, so no
socket is passed twice. -/
inductive PoolStep :
    ThreadPool Socket count → PoolEvent Socket count → ThreadPool Socket count → Prop where
  | enqueue (idle : pool.placing = .idle) (fresh : socket ∉ pool.passed) :
      PoolStep pool (.enqueue socket)
        { pool with placing := .scanning { socket }, passed := pool.passed ++ [socket] }
  | queueSize (scanning : pool.placing = .scanning scan) (more : scan.i < count) :
      PoolStep pool .queueSize
        { pool with placing := scan.round ⟨scan.i, more⟩ (pool.mWorkers ⟨scan.i, more⟩).queueSize }
  | loopEnd (scanning : pool.placing = .scanning scan) (finished : count ≤ scan.i) :
      PoolStep pool .loopEnd { pool with placing := scan.finish }
  | push (pushing : pool.placing = .pushing socket target)
      (taken : WorkerStep (pool.mWorkers target) (.push socket) after) :
      PoolStep pool (.worker target (.push socket))
        { pool.setWorker target after with placing := .sending target }
  | send (sending : pool.placing = .sending target)
      (taken : WorkerStep (pool.mWorkers target) .send after) :
      PoolStep pool (.worker target .send) { pool.setWorker target after with placing := .idle }
  | clear (taken : WorkerStep (pool.mWorkers i) .clear after) :
      PoolStep pool (.worker i .clear) (pool.setWorker i after)
  | perform (taken : WorkerStep (pool.mWorkers i) .perform after) :
      PoolStep pool (.worker i .perform) (pool.setWorker i after)

@[simp] theorem mWorkers_setWorker (pool : ThreadPool Socket count) (i : Fin count)
    (worker : Worker Socket) : (pool.setWorker i worker).mWorkers i = worker :=
  Function.update_self ..

theorem mWorkers_setWorker_of_ne (pool : ThreadPool Socket count) {i j : Fin count}
    (different : j ≠ i) (worker : Worker Socket) :
    (pool.setWorker i worker).mWorkers j = pool.mWorkers j := Function.update_of_ne different ..

/-- What the new worker shares with the old one stays as it was in the whole pool. -/
theorem setWorker_same {β : Type v} (pool : ThreadPool Socket count) (field : Worker Socket → β)
    {i : Fin count} {worker : Worker Socket} (same : field worker = field (pool.mWorkers i)) :
    (fun j => field ((pool.setWorker i worker).mWorkers j)) = fun j => field (pool.mWorkers j) := by
  funext j
  by_cases equal : j = i
  · subst equal
    rw [mWorkers_setWorker, same]
  · rw [mWorkers_setWorker_of_ne pool equal]

theorem setWorker_view (pool : ThreadPool Socket count) (i : Fin count)
    (taken : WorkerStep (pool.mWorkers i) event after) (j : Fin count) :
    (pool.setWorker i after).mWorkers j = pool.mWorkers j ∨
      ∃ other, WorkerStep (pool.mWorkers j) other ((pool.setWorker i after).mWorkers j) := by
  by_cases same : j = i
  · subst same
    refine .inr ⟨event, ?_⟩
    rw [mWorkers_setWorker]
    exact taken
  · exact .inl (mWorkers_setWorker_of_ne pool same _)

/-- Seen from one worker, a step of the pool is a step of the worker or nothing. -/
theorem poolStep_view {pool next : ThreadPool Socket count} {event : PoolEvent Socket count}
    (taken : PoolStep pool event next) (j : Fin count) :
    next.mWorkers j = pool.mWorkers j ∨
      ∃ other, WorkerStep (pool.mWorkers j) other (next.mWorkers j) := by
  cases taken with
  | enqueue => exact .inl rfl
  | queueSize => exact .inl rfl
  | loopEnd => exact .inl rfl
  | push pushing taken => exact setWorker_view pool _ taken j
  | send sending taken => exact setWorker_view pool _ taken j
  | clear taken => exact setWorker_view pool _ taken j
  | perform taken => exact setWorker_view pool _ taken j

/-- Every worker of a reachable pool is a reachable worker. -/
theorem worker_reachable {pool : ThreadPool Socket count}
    (reached : Reachable PoolStep (.initial Socket count) pool) (i : Fin count) :
    Reachable WorkerStep ({} : Worker Socket) (pool.mWorkers i) :=
  reached.view (fun pool => pool.mWorkers i) fun _ _ _ taken => poolStep_view taken i

end MailruHttp.Sys
