import MailruHttp.Library.CriticalSection
import MailruHttp.Sys.Callers

/-! The queue of a worker access by access: what `Worker::queueSize`, `dequeue` and
`enqueue` do between locking and unlocking `m_mtx`, in any number of threads. -/

namespace MailruHttp.Sys

open Library

universe u v

/-- The queue that the lock protects, with the sockets ever pushed. -/
structure Queue (Socket : Type u) where
  mQueue : List Socket := []
  pushed : List Socket := []

/-- What the lock does not protect: the signal, and the sockets handed to
`on_accept`, which only the loop touches. -/
structure Signals (Socket : Type u) where
  receiveSignal : Bool := false
  accepted : List Socket := []

inductive WorkerThread (Caller : Type v) where
  | loop
  | caller (thread : Caller)
deriving DecidableEq

/-- Where a thread is between its sections. A caller is about to lock in
`queueSize` or in `enqueue`, or behind it; the loop is about to lock in the
`dequeue` of `perform`, or behind it. -/
inductive Spot (Socket : Type u) where
  | idle
  | queueSize
  | sized (tmp : Nat)
  | enqueue (socket : Socket)
  | pushed
  | dequeue
  | dequeued (client : Option Socket)

variable {Caller : Type v} {Socket : Type u}

/-- `size()` under the lock. -/
def queueSizeSection : Section (Queue Socket) (Spot Socket) :=
  .read fun queue => .done (.sized queue.mQueue.length)

/-- `push_back` under the lock. -/
def enqueueSection (socket : Socket) : Section (Queue Socket) (Spot Socket) :=
  .write (fun queue => ⟨queue.mQueue ++ [socket], queue.pushed ++ [socket]⟩) (.done .pushed)

/-- `size()` and, unless that is zero, `front()` and `pop_front()` under the lock. -/
def dequeueSection : Section (Queue Socket) (Spot Socket) :=
  .read fun queue =>
    if queue.mQueue.length ≠ 0 then
      .read fun queue => .write (fun queue => { queue with mQueue := queue.mQueue.tail })
        (.done (.dequeued queue.mQueue.head?))
    else .done (.dequeued none)

inductive WorkerLabel where
  | call
  | return
  | send
  | clear
  | accept

/-- The steps outside of the lock. A caller uses the size it got and calls again as
it likes; `enqueue` sends after its push. The loop hands a client on before it
looks at the signal again, and has no step after a null pointer. -/
inductive Apart : WorkerThread Caller → Signals Socket → Spot Socket → WorkerLabel →
    Signals Socket → Spot Socket → Prop where
  | queueSize : Apart (.caller thread) signals .idle .call signals .queueSize
  | sized : Apart (.caller thread) signals (.sized tmp) .return signals .idle
  | enqueue : Apart (.caller thread) signals .idle .call signals (.enqueue socket)
  | send : Apart (.caller thread) signals .pushed .send
      { signals with receiveSignal := true } .idle
  | clear (signalled : signals.receiveSignal = true) :
      Apart .loop signals .idle .clear { signals with receiveSignal := false } .dequeue
  | accept : Apart .loop signals (.dequeued (some client)) .accept
      { signals with accepted := signals.accepted ++ [client] } .idle

/-- The code of a worker and of its callers. -/
def workerProgram (Caller : Type v) (Socket : Type u) :
    Program (WorkerThread Caller) (Spot Socket) (Queue Socket) (Signals Socket) WorkerLabel where
  enters
    | .caller _, .queueSize => some queueSizeSection
    | .caller _, .enqueue socket => some (enqueueSection socket)
    | .loop, .dequeue => some dequeueSection
    | _, _ => none
  apart := Apart

/-- Before the first call. -/
def atStart (Caller : Type v) (Socket : Type u) :
    Atomic (WorkerThread Caller) (Spot Socket) (Queue Socket) (Signals Socket) where
  shared := {}
  free := {}
  threads _ := .idle

/-- The client that the loop has taken and not handed on. -/
def Spot.inHand : Spot Socket → List Socket
  | .dequeued client => client.toList
  | _ => []

/-- The threads whose sections are single steps, seen as the callers of a worker. -/
structure Shows (state : Atomic (WorkerThread Caller) (Spot Socket) (Queue Socket) (Signals Socket))
    (callers : Callers Caller Socket) : Prop where
  mQueue : callers.worker.mQueue = state.shared.mQueue
  pushed : callers.worker.pushed = state.shared.pushed
  receiveSignal : callers.worker.receiveSignal = state.free.receiveSignal
  performing : callers.worker.performing = true ↔ state.threads .loop = .dequeue
  accepted : callers.worker.accepted = state.free.accepted ++ (state.threads .loop).inHand
  midway : ∀ thread, thread ∈ callers.midway ↔ state.threads (.caller thread) = .pushed
  nodup : callers.midway.Nodup
  taken : state.threads .loop ≠ .dequeued none

theorem finish_dequeue (queue : Queue Socket) :
    dequeueSection.finish queue =
      ({ queue with mQueue := queue.mQueue.tail }, .dequeued queue.mQueue.head?) := by
  obtain ⟨mQueue, pushed⟩ := queue
  cases mQueue <;> rfl

section

variable [DecidableEq Caller]
  {state after : Atomic (WorkerThread Caller) (Spot Socket) (Queue Socket) (Signals Socket)}
  {callers : Callers Caller Socket}

/-- A caller that goes to a spot other than the one before its send, from another such. -/
theorem shows_caller (shows : Shows state callers) {thread : Caller} {spot : Spot Socket}
    (before : state.threads (.caller thread) ≠ .pushed) (other : spot ≠ .pushed) :
    Shows { state with threads := Function.update state.threads (.caller thread) spot } callers where
  mQueue := shows.mQueue
  pushed := shows.pushed
  receiveSignal := shows.receiveSignal
  performing := by simpa using shows.performing
  accepted := by simpa using shows.accepted
  midway member := by
    rw [shows.midway]
    by_cases same : member = thread
    · subst same
      simp [before, other]
    · simp [same]
  nodup := shows.nodup
  taken := by simpa using shows.taken

/-- A push, between the two places of `midway`. -/
theorem shows_push (shows : Shows state callers) {thread : Caller} (socket : Socket)
    (before : state.threads (.caller thread) ≠ .pushed) :
    Shows { state with
        shared := ((enqueueSection socket).finish state.shared).1
        threads := Function.update state.threads (.caller thread) .pushed }
      ⟨callers.worker.push socket, thread :: callers.midway⟩ where
  mQueue := by simp [Worker.push, enqueueSection, Section.finish, shows.mQueue]
  pushed := by simp [Worker.push, enqueueSection, Section.finish, shows.pushed]
  receiveSignal := shows.receiveSignal
  performing := by simpa [Worker.push] using shows.performing
  accepted := by simpa [Worker.push] using shows.accepted
  midway member := by
    rw [List.mem_cons, shows.midway]
    by_cases same : member = thread
    · subst same
      simp
    · simp [same]
  nodup := List.nodup_cons.mpr ⟨fun inside => before ((shows.midway thread).mp inside), shows.nodup⟩
  taken := by simpa using shows.taken

theorem shows_send (shows : Shows state callers) {thread : Caller}
    (before : state.threads (.caller thread) = .pushed) :
    Shows { state with
        free := { state.free with receiveSignal := true }
        threads := Function.update state.threads (.caller thread) .idle }
      ⟨callers.worker.send, callers.midway.erase thread⟩ where
  mQueue := shows.mQueue
  pushed := shows.pushed
  receiveSignal := rfl
  performing := by simpa [Worker.send] using shows.performing
  accepted := by simpa [Worker.send] using shows.accepted
  midway member := by
    rw [shows.nodup.mem_erase_iff, shows.midway]
    by_cases same : member = thread
    · subst same
      simp
    · simp [same]
  nodup := shows.nodup.erase thread
  taken := by simpa using shows.taken

theorem shows_clear (shows : Shows state callers) (before : state.threads .loop = .idle) :
    Shows { state with
        free := { state.free with receiveSignal := false }
        threads := Function.update state.threads .loop .dequeue }
      { callers with worker := callers.worker.clear } where
  mQueue := shows.mQueue
  pushed := shows.pushed
  receiveSignal := rfl
  performing := by simp [Worker.clear]
  accepted := by
    have accepted := shows.accepted
    rw [before] at accepted
    simpa [Worker.clear, Spot.inHand] using accepted
  midway member := by simpa using shows.midway member
  nodup := shows.nodup
  taken := by simp

/-- The section of the loop, for a queue that is not empty. -/
theorem shows_dequeue (shows : Shows state callers) (before : state.threads .loop = .dequeue)
    {client : Socket} {rest : List Socket} (queue : state.shared.mQueue = client :: rest) :
    Shows { state with
        shared := (dequeueSection.finish state.shared).1
        threads := Function.update state.threads .loop (dequeueSection.finish state.shared).2 }
      { callers with worker := { callers.worker with
        mQueue := rest
        performing := false
        accepted := callers.worker.accepted ++ [client] } } where
  mQueue := by simp [finish_dequeue, queue]
  pushed := by simp [finish_dequeue, shows.pushed]
  receiveSignal := shows.receiveSignal
  performing := by simp [finish_dequeue]
  accepted := by
    have accepted := shows.accepted
    rw [before] at accepted
    simpa [finish_dequeue, queue, Spot.inHand] using accepted
  midway member := by simpa using shows.midway member
  nodup := shows.nodup
  taken := by simp [finish_dequeue, queue]

theorem shows_accept (shows : Shows state callers) {client : Socket}
    (before : state.threads .loop = .dequeued (some client)) :
    Shows { state with
        free := { state.free with accepted := state.free.accepted ++ [client] }
        threads := Function.update state.threads .loop .idle } callers where
  mQueue := shows.mQueue
  pushed := shows.pushed
  receiveSignal := shows.receiveSignal
  performing := by
    have performing := shows.performing
    rw [before] at performing
    simpa using performing
  accepted := by
    have accepted := shows.accepted
    rw [before] at accepted
    simpa [Spot.inHand] using accepted
  midway member := by simpa using shows.midway member
  nodup := shows.nodup
  taken := by simp

theorem shows_step {label : AtomicEvent (WorkerThread Caller) WorkerLabel}
    (reached : Reachable CallersStep ({} : Callers Caller Socket) callers)
    (shows : Shows state callers)
    (step : AtomicStep (workerProgram Caller Socket) state label after) :
    ∃ next, Reachable CallersStep ({} : Callers Caller Socket) next ∧ Shows after next := by
  cases step with
  | whole enters =>
    rename_i thread body
    cases thread with
    | loop =>
      cases before : state.threads .loop with
      | dequeue =>
        rw [before] at enters
        cases enters
        have running := shows.performing.mpr before
        have nonempty := queue_ne_nil_of_performing (counted_reachable reached).reached running
        obtain ⟨client, rest, queue⟩ := List.exists_cons_of_ne_nil nonempty
        have returned := perform_eq_some_iff.mpr ⟨client, rest, queue, rfl⟩
        exact ⟨_, reached.next (.perform running returned),
          shows_dequeue shows before (shows.mQueue.symm.trans queue)⟩
      | _ => simp [workerProgram, before] at enters
    | caller thread =>
      cases before : state.threads (.caller thread) with
      | queueSize =>
        rw [before] at enters
        cases enters
        exact ⟨callers, reached, shows_caller shows (by simp [before]) nofun⟩
      | enqueue socket =>
        rw [before] at enters
        cases enters
        have outside : thread ∉ callers.midway := by
          rw [shows.midway, before]
          exact nofun
        exact ⟨_, reached.next (.push outside), shows_push shows socket (by simp [before])⟩
      | _ => simp [workerProgram, before] at enters
  | apart taken =>
    rename_i thread label free spot
    generalize before : state.threads thread = place at taken
    cases taken with
    | queueSize => exact ⟨callers, reached, shows_caller shows (by simp [before]) nofun⟩
    | sized => exact ⟨callers, reached, shows_caller shows (by simp [before]) nofun⟩
    | enqueue => exact ⟨callers, reached, shows_caller shows (by simp [before]) nofun⟩
    | send =>
      exact ⟨_, reached.next (.send ((shows.midway _).mpr before)), shows_send shows before⟩
    | clear signalled =>
      have idle : callers.worker.performing = false := by
        rw [Bool.eq_false_iff, ne_eq, shows.performing, before]
        exact nofun
      exact ⟨_, reached.next (.clear (shows.receiveSignal.trans signalled) idle),
        shows_clear shows before⟩
    | accept => exact ⟨callers, reached, shows_accept shows before⟩

theorem shows_reachable
    (reached : Reachable (AtomicStep (workerProgram Caller Socket)) (atStart Caller Socket) state) :
    ∃ callers, Reachable CallersStep ({} : Callers Caller Socket) callers ∧ Shows state callers := by
  obtain ⟨history, run⟩ := reached
  induction run with
  | start =>
    refine ⟨{}, .start, ?_⟩
    constructor <;> simp [atStart, Spot.inHand]
  | next earlier taken ih =>
    obtain ⟨callers, reached, shows⟩ := ih
    exact shows_step reached shows taken

/-- Whatever the order of the single accesses, only one thread is inside at a time,
the calls take effect one after the other as those of `Callers`, the loop never gets
a null pointer, and the sockets are handed on in the order of their pushes. -/
theorem queue_lock_atomic
    {state : Locked (WorkerThread Caller) (Spot Socket) (Queue Socket) (Signals Socket)}
    (reached : Reachable (LockedStep (workerProgram Caller Socket)) (atStart Caller Socket).locked
      state) :
    state.Exclusive ∧ state.threads .loop ≠ .outside (.dequeued none) ∧
      (∃ callers, Reachable CallersStep ({} : Callers Caller Socket) callers ∧
        Shows state.atomic callers) ∧
      (state.owner = none →
        state.free.accepted ++ (state.atomic.threads .loop).inHand ++ state.shared.mQueue =
          state.shared.pushed) := by
  obtain ⟨exclusive, atomic⟩ := locked_reachable reached
  obtain ⟨callers, calls, shows⟩ := shows_reachable atomic
  refine ⟨exclusive, ?_, ⟨callers, calls, shows⟩, ?_⟩
  · intro null
    apply shows.taken
    simp [Locked.atomic, null, Place.settle]
  · intro unowned
    have shared := (Locked.atomic_of_free exclusive unowned).1
    have ordered := inOrder_reachable (counted_reachable calls).reached
    rw [InOrder, shows.accepted, shows.mQueue, shows.pushed, shared] at ordered
    exact ordered

/-- One thread has pushed and not sent, another one is in `queueSize`. -/
theorem queue_lock_atomic_push :
    ∃ state : Locked (WorkerThread Bool) (Spot Nat) (Queue Nat) (Signals Nat),
      state.owner = some (.caller true) ∧ state.shared.pushed = [7] ∧ state.Exclusive := by
  have start : Reachable (LockedStep (workerProgram Bool Nat)) (atStart Bool Nat).locked
      (atStart Bool Nat).locked := .start
  have called := start.next (.apart rfl (.enqueue : Apart (.caller false) _ _ _ _ (.enqueue 7)))
  have locked := called.next
    (.lock rfl rfl rfl : LockedStep (workerProgram Bool Nat) _ (.lock (.caller false)) _)
  have pushed := locked.next
    (.write rfl : LockedStep (workerProgram Bool Nat) _ (.access (.caller false)) _)
  have unlocked := pushed.next
    (.unlock rfl : LockedStep (workerProgram Bool Nat) _ (.unlock (.caller false)) _)
  have other := unlocked.next (.apart rfl (.queueSize : Apart (.caller true) _ _ _ _ _))
  have inside := other.next
    (.lock rfl rfl rfl : LockedStep (workerProgram Bool Nat) _ (.lock (.caller true)) _)
  exact ⟨_, rfl, rfl, (queue_lock_atomic inside).1⟩

end

end MailruHttp.Sys
