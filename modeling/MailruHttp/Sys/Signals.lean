import MailruHttp.Sys.Worker

/-! Signals against sockets. A callback serves one socket, so a socket whose
signal was merged into another one stays behind. -/

namespace MailruHttp.Sys

open Library

universe u

variable {Socket : Type u}

/-- A send that finds the flag already set leads to no callback of its own. -/
def Merged (worker : Worker Socket) : WorkerEvent Socket → Prop
  | .send => worker.receiveSignal = true
  | _ => False

instance (worker : Worker Socket) (event : WorkerEvent Socket) : Decidable (Merged worker event) := by
  cases event <;> unfold Merged <;> infer_instance

def mergedSends (history : List (Worker Socket × WorkerEvent Socket)) : Nat :=
  history.countP fun taken => Merged taken.1 taken.2

/-- Each queued socket is still to be sent for, signalled or about to be served,
or its send was merged. -/
def Accounted (merged : Nat) (worker : Worker Socket) : Prop :=
  worker.mQueue.length =
    worker.sending + worker.receiveSignal.toNat + worker.performing.toNat + merged

theorem accounted_step {worker after : Worker Socket} {event : WorkerEvent Socket} {merged : Nat}
    (accounted : Accounted merged worker) (taken : WorkerStep worker event after) :
    Accounted (merged + if Merged worker event then 1 else 0) after := by
  unfold Accounted at accounted ⊢
  cases taken with
  | push =>
    simp only [Worker.push, Merged, List.length_append, List.length_singleton, ↓reduceIte]
    omega
  | send due =>
    cases signalled : worker.receiveSignal with
    | true =>
      simp only [Worker.send, Merged, signalled, Bool.toNat_true, ↓reduceIte] at accounted ⊢
      omega
    | false =>
      simp only [Worker.send, Merged, signalled, Bool.toNat_true, Bool.toNat_false,
        Bool.false_eq_true, ↓reduceIte] at accounted ⊢
      omega
  | clear signalled idle =>
    simp only [Worker.clear, Merged, signalled, idle, Bool.toNat_true, Bool.toNat_false,
      ↓reduceIte] at accounted ⊢
    omega
  | perform running returned =>
    obtain ⟨client, rest, queue, same⟩ := perform_eq_some_iff.mp returned
    simp only [same, Merged, queue, running, List.length_cons, Bool.toNat_true, Bool.toNat_false,
      ↓reduceIte] at accounted ⊢
    omega

theorem accounted_run {worker : Worker Socket} {history : List (Worker Socket × WorkerEvent Socket)}
    (run : Run WorkerStep ({} : Worker Socket) history worker) :
    Accounted (mergedSends history) worker := by
  induction run with
  | start => rfl
  | next earlier taken ih =>
    have kept := accounted_step ih taken
    rw [mergedSends, List.countP_append, List.countP_singleton]
    simpa [mergedSends] using kept

/-- On every run that comes to rest, the queue is empty exactly when no send was
merged into an earlier one. -/
theorem queue_drained_iff {Socket : Type u} {worker : Worker Socket}
    {history : List (Worker Socket × WorkerEvent Socket)}
    (run : Run WorkerStep ({} : Worker Socket) history worker) (quiet : Quiet worker) :
    worker.mQueue = [] ↔ ∀ taken ∈ history, ¬ Merged taken.1 taken.2 := by
  have accounted := accounted_run run
  unfold Accounted at accounted
  rw [quiet.cleared, quiet.sent, quiet.idle] at accounted
  have length : worker.mQueue.length = mergedSends history := by simpa using accounted
  rw [← List.length_eq_zero_iff, length, mergedSends, List.countP_eq_zero]
  simp

/-- Two sockets whose signals are both taken before the next one is sent. -/
theorem queue_drained_iff_alternating :
    ∃ history worker, Run WorkerStep ({} : Worker Nat) history worker ∧
      worker.pushed = [1, 2] ∧ worker.mQueue = [] := by
  have first := (((Run.start.next .push).next (.send (by decide))).next (.clear rfl rfl)).next
    (.perform rfl rfl : WorkerStep (Worker.clear (Worker.send (Worker.push {} 1))) .perform
      { pushed := [1], accepted := [1] })
  have second := (((first.next .push).next (.send (by decide))).next (.clear rfl rfl)).next
    (.perform rfl rfl : WorkerStep
      (Worker.clear (Worker.send (Worker.push { pushed := [1], accepted := [1] } 2))) .perform
      { pushed := [1, 2], accepted := [1, 2] })
  refine ⟨_, _, second, rfl, (queue_drained_iff second ⟨rfl, rfl, rfl⟩).mpr ?_⟩
  simp [Merged, Worker.push, Worker.clear]

/-- Two sends before one callback: the second socket stays in the queue of a
worker at rest. -/
theorem second_socket_stranded :
    ∃ worker : Worker Nat, Reachable WorkerStep {} worker ∧ Quiet worker ∧ worker.mQueue = [2] := by
  have start : Reachable WorkerStep ({} : Worker Nat) {} := .start
  have first := (start.next (.push : WorkerStep _ (.push 1) _)).next (.send (by decide))
  have second := (first.next (.push : WorkerStep _ (.push 2) _)).next (.send (by decide))
  have served := (second.next (.clear rfl rfl)).next (.perform rfl rfl)
  exact ⟨_, served, ⟨rfl, rfl, rfl⟩, rfl⟩

end MailruHttp.Sys
