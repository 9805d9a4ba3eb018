import MailruHttp.Sys.Signals

/-! The threads that call `Worker::enqueue`, each at its own place between its
push and its send. No interleaving lets `perform` meet an empty queue. -/

namespace MailruHttp.Sys

open Library

universe u v

variable {Thread : Type v} {Socket : Type u}

/-- A worker and the threads whose `enqueue` has pushed and not sent yet. -/
structure Callers (Thread : Type v) (Socket : Type u) where
  worker : Worker Socket := {}
  midway : List Thread := []

inductive CallersEvent (Thread : Type v) (Socket : Type u) where
  | push (thread : Thread) (socket : Socket)
  | send (thread : Thread)
  | clear
  | perform

/-- A thread sends once after each push of its own, whatever the other threads
and the loop have done in between. -/
inductive CallersStep [DecidableEq Thread] :
    Callers Thread Socket → CallersEvent Thread Socket → Callers Thread Socket → Prop where
  | push (outside : thread ∉ callers.midway) :
      CallersStep callers (.push thread socket)
        ⟨callers.worker.push socket, thread :: callers.midway⟩
  | send (inside : thread ∈ callers.midway) :
      CallersStep callers (.send thread) ⟨callers.worker.send, callers.midway.erase thread⟩
  | clear (signalled : callers.worker.receiveSignal = true)
      (idle : callers.worker.performing = false) :
      CallersStep callers .clear { callers with worker := callers.worker.clear }
  | perform (running : callers.worker.performing = true)
      (returned : callers.worker.perform = some after) :
      CallersStep callers .perform { callers with worker := after }

/-- The worker counts the threads that are midway, and has come to its state by
steps of its own. -/
structure Counted (callers : Callers Thread Socket) : Prop where
  sending : callers.worker.sending = callers.midway.length
  reached : Reachable WorkerStep ({} : Worker Socket) callers.worker

theorem counted_step [DecidableEq Thread] {callers next : Callers Thread Socket}
    {event : CallersEvent Thread Socket} (counted : Counted callers)
    (taken : CallersStep callers event next) : Counted next := by
  obtain ⟨sending, reached⟩ := counted
  cases taken with
  | push outside =>
    refine ⟨?_, reached.next .push⟩
    simp [Worker.push, sending]
  | send inside =>
    have due : 0 < callers.worker.sending := by
      rw [sending]
      exact List.length_pos_of_mem inside
    refine ⟨?_, reached.next (.send due)⟩
    simp [Worker.send, sending, List.length_erase_of_mem inside]
  | clear signalled idle => exact ⟨sending, reached.next (.clear signalled idle)⟩
  | perform running returned =>
    refine ⟨?_, reached.next (.perform running returned)⟩
    obtain ⟨_, _, _, same⟩ := perform_eq_some_iff.mp returned
    rw [same]
    exact sending

theorem counted_reachable [DecidableEq Thread] {callers : Callers Thread Socket}
    (reached : Reachable CallersStep ({} : Callers Thread Socket) callers) : Counted callers :=
  reached.invariant (fun _ _ _ counted taken => counted_step counted taken) ⟨rfl, .start⟩

/-- A callback has a socket of its own in the queue. -/
theorem queue_ne_nil_of_performing {worker : Worker Socket}
    (reached : Reachable WorkerStep ({} : Worker Socket) worker)
    (running : worker.performing = true) : worker.mQueue ≠ [] := by
  obtain ⟨history, run⟩ := reached
  have accounted := accounted_run run
  unfold Accounted at accounted
  rw [running, Bool.toNat_true] at accounted
  intro empty
  rw [empty, List.length_nil] at accounted
  omega

/-- Whatever the threads and the loop have done, a running callback finds a
socket in the queue: `dequeue` returns the oldest one and `perform` goes on. -/
theorem perform_finds_socket {Thread : Type v} {Socket : Type u} [DecidableEq Thread]
    {callers : Callers Thread Socket}
    (reached : Reachable CallersStep ({} : Callers Thread Socket) callers)
    (running : callers.worker.performing = true) :
    callers.worker.mQueue ≠ [] ∧
    (∃ client rest, callers.worker.mQueue = client :: rest ∧
      callers.worker.dequeue = (some client, { callers.worker with mQueue := rest })) ∧
    ∃ next, CallersStep callers .perform next := by
  have nonempty := queue_ne_nil_of_performing (counted_reachable reached).reached running
  obtain ⟨client, rest, queue⟩ := List.exists_cons_of_ne_nil nonempty
  refine ⟨nonempty, ⟨client, rest, queue, ?_⟩, ?_⟩
  · unfold Worker.dequeue
    rw [queue]
  · have returned := perform_eq_some_iff.mpr ⟨client, rest, queue, rfl⟩
    exact ⟨_, .perform running returned⟩

/-- Two threads push before either sends, their sends become one signal, and the
callback that follows finds the first socket. -/
theorem perform_finds_socket_coalesced :
    ∃ callers : Callers Bool Nat, callers.worker.performing = true ∧
      callers.worker.mQueue ≠ [] := by
  have start : Reachable CallersStep ({} : Callers Bool Nat) {} := .start
  have pushed := (start.next (.push (by decide) : CallersStep _ (.push false 1) _)).next
    (.push (by decide) : CallersStep _ (.push true 2) _)
  have sent := (pushed.next (.send (by decide) : CallersStep _ (.send false) _)).next
    (.send (by decide) : CallersStep _ (.send true) _)
  have cleared := sent.next (.clear rfl rfl)
  exact ⟨_, rfl, (perform_finds_socket cleared rfl).1⟩

end MailruHttp.Sys
