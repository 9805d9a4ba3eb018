import MailruHttp.Library.Run

/-! The worker of `sys/worker.cpp`, as the accepting threads and its own loop
move it. Every access to the queue is one step, since it is made under the lock. -/

namespace MailruHttp.Sys

open Library

universe u

variable {Socket : Type u}

/-- The queue, the flag behind `m_receive_signal`, and where the threads are:
`sending` calls of `enqueue` between their push and their send, and `performing`
from the moment the loop clears the flag until its callback is done. The sockets
pushed and those handed to `on_accept` are kept in order. -/
structure Worker (Socket : Type u) where
  mQueue : List Socket := []
  receiveSignal : Bool := false
  sending : Nat := 0
  performing : Bool := false
  pushed : List Socket := []
  accepted : List Socket := []

namespace Worker

/-- The queue size read under the lock. -/
def queueSize (worker : Worker Socket) : Nat := worker.mQueue.length

/-- The first half of `enqueue`, under the lock. -/
def push (worker : Worker Socket) (socket : Socket) : Worker Socket :=
  { worker with
    mQueue := worker.mQueue ++ [socket]
    sending := worker.sending + 1
    pushed := worker.pushed ++ [socket] }

/-- The second half of `enqueue`: `uv_async_send` sets the flag. -/
def send (worker : Worker Socket) : Worker Socket :=
  { worker with receiveSignal := true, sending := worker.sending - 1 }

/-- The loop clears the flag and enters `onSocketReceived`. -/
def clear (worker : Worker Socket) : Worker Socket :=
  { worker with receiveSignal := false, performing := true }

/-- The oldest socket, or the null pointer for an empty queue. -/
def dequeue (worker : Worker Socket) : Option Socket × Worker Socket :=
  match worker.mQueue with
  | [] => (none, worker)
  | socket :: rest => (some socket, { worker with mQueue := rest })

/-- One socket goes from the queue to `on_accept`. The result is `none` where
`client->loop` is set through a null pointer, which comes before the null check. -/
def perform (worker : Worker Socket) : Option (Worker Socket) :=
  match worker.dequeue with
  | (none, _) => none
  | (some client, worker) =>
    some { worker with performing := false, accepted := worker.accepted ++ [client] }

end Worker

inductive WorkerEvent (Socket : Type u) where
  | push (socket : Socket)
  | send
  | clear
  | perform

/-- What can happen to a worker next. Any number of threads may push; the loop
runs one callback at a time. -/
inductive WorkerStep : Worker Socket → WorkerEvent Socket → Worker Socket → Prop where
  | push : WorkerStep worker (.push socket) (worker.push socket)
  | send (due : 0 < worker.sending) : WorkerStep worker .send worker.send
  | clear (signalled : worker.receiveSignal = true) (idle : worker.performing = false) :
      WorkerStep worker .clear worker.clear
  | perform (running : worker.performing = true) (returned : worker.perform = some after) :
      WorkerStep worker .perform after

/-- The flag is clear, no `enqueue` is under way and no callback is running. -/
structure Quiet (worker : Worker Socket) : Prop where
  cleared : worker.receiveSignal = false
  sent : worker.sending = 0
  idle : worker.performing = false

theorem perform_eq_some_iff {worker after : Worker Socket} :
    worker.perform = some after ↔ ∃ client rest, worker.mQueue = client :: rest ∧
      after = { worker with
        mQueue := rest, performing := false, accepted := worker.accepted ++ [client] } := by
  unfold Worker.perform Worker.dequeue
  cases queue : worker.mQueue with
  | nil => simp
  | cons client rest => simp [eq_comm]

/-- A worker hands on its sockets in the order in which they were pushed. -/
def InOrder (worker : Worker Socket) : Prop := worker.accepted ++ worker.mQueue = worker.pushed

theorem inOrder_step {worker after : Worker Socket} {event : WorkerEvent Socket}
    (ordered : InOrder worker) (taken : WorkerStep worker event after) : InOrder after := by
  unfold InOrder at ordered ⊢
  cases taken with
  | push => simp [Worker.push, ← ordered]
  | send => exact ordered
  | clear => exact ordered
  | perform running returned =>
    obtain ⟨client, rest, queue, same⟩ := perform_eq_some_iff.mp returned
    rw [queue] at ordered
    simp [same, ← ordered]

theorem inOrder_reachable {worker : Worker Socket}
    (reached : Reachable WorkerStep ({} : Worker Socket) worker) : InOrder worker :=
  reached.invariant (fun _ _ _ ordered taken => inOrder_step ordered taken) rfl

end MailruHttp.Sys
