import MailruHttp.Sys.Rest

/-! How the pool stops: `ThreadPool::wait` kills every worker and joins every thread,
and the destructor deletes the workers, while their loops finish what they do. Whether
`uv_loop_delete` returns for the loop of a worker is libuv's answer. -/

namespace MailruHttp.Sys

open Library

universe u

variable {Socket : Type u} {count : Nat}

/-- The thread of a worker: never created, in `uv_run`, in the last iteration of
`uv_run` after `uv_stop`, or returned from it. -/
inductive Loop where
  | absent
  | running
  | stopping
  | ended
  deriving DecidableEq

def Loop.alive : Loop → Bool
  | .running | .stopping => true
  | _ => false

/-- Where the main thread is: in its own `uv_run`, in one of the two loops of
`ThreadPool::wait`, deleting the workers, or done. It faults where it joins a
thread that was never created, and `uv_loop_delete` may abort the process. -/
inductive Ending where
  | serving
  | killing (i : Nat)
  | joining (i : Nat)
  | deleting (i : Nat)
  | finished
  | faulted
  | aborted

/-- The pool, the flags behind the `m_kill_signal` of its workers, and all threads. -/
structure Shutdown (Socket : Type u) (count : Nat) where
  pool : ThreadPool Socket count
  killSignal : Fin count → Bool := fun _ => false
  loops : Fin count → Loop
  main : Ending := .serving

/-- After `ThreadPool::run`. -/
def Shutdown.initial (Socket : Type u) (count : Nat) (started : Nat → Bool) :
    Shutdown Socket count where
  pool := .initial Socket count
  loops i := if started i then .running else .absent

/-- The worker in whose loop an event of the pool happens. -/
def PoolEvent.loop : PoolEvent Socket count → Option (Fin count)
  | .worker i .clear | .worker i .perform => some i
  | _ => none

inductive ShutdownEvent (Socket : Type u) (count : Nat) where
  | pool (event : PoolEvent Socket count)
  /-- A callback of a connection in the loop of a worker. -/
  | callback (i : Fin count)
  | onKillReceived (i : Fin count)
  | leave (i : Fin count)
  | main

/-- What can happen next. A loop that `uv_stop` was called in still makes the callbacks
of its iteration. The destructor of a worker never closes its two signals, and where
libuv checks that no handle of a loop is open `uv_loop_delete` does not return. -/
inductive ShutdownStep (uvLoopDelete : Nat → Bool) :
    Shutdown Socket count → ShutdownEvent Socket count → Shutdown Socket count → Prop where
  | accept (serving : state.main = .serving) (outside : event.loop = none)
      (taken : PoolStep state.pool event next) :
      ShutdownStep uvLoopDelete state (.pool event) { state with pool := next }
  | work {i : Fin count} (inside : event.loop = some i) (alive : (state.loops i).alive = true)
      (taken : PoolStep state.pool event next) :
      ShutdownStep uvLoopDelete state (.pool event) { state with pool := next }
  | callback {i : Fin count} (alive : (state.loops i).alive = true)
      (idle : (state.pool.mWorkers i).performing = false) :
      ShutdownStep uvLoopDelete state (.callback i) state
  | onKillReceived {i : Fin count} (alive : (state.loops i).alive = true)
      (idle : (state.pool.mWorkers i).performing = false) (signalled : state.killSignal i = true) :
      ShutdownStep uvLoopDelete state (.onKillReceived i)
        { state with
          killSignal := Function.update state.killSignal i false
          loops := Function.update state.loops i .stopping }
  | leave {i : Fin count} (stopping : state.loops i = .stopping)
      (idle : (state.pool.mWorkers i).performing = false) :
      ShutdownStep uvLoopDelete state (.leave i)
        { state with loops := Function.update state.loops i .ended }
  | wait (serving : state.main = .serving) (idle : state.pool.placing = .idle) :
      ShutdownStep uvLoopDelete state .main { state with main := .killing 0 }
  | kill (killing : state.main = .killing i) (more : i < count) :
      ShutdownStep uvLoopDelete state .main
        { state with
          killSignal := Function.update state.killSignal ⟨i, more⟩ true
          main := .killing (i + 1) }
  | killed (killing : state.main = .killing i) (finished : count ≤ i) :
      ShutdownStep uvLoopDelete state .main { state with main := .joining 0 }
  | join (joining : state.main = .joining i) (more : i < count)
      (ended : state.loops ⟨i, more⟩ = .ended) :
      ShutdownStep uvLoopDelete state .main { state with main := .joining (i + 1) }
  | fault (joining : state.main = .joining i) (more : i < count)
      (absent : state.loops ⟨i, more⟩ = .absent) :
      ShutdownStep uvLoopDelete state .main { state with main := .faulted }
  | joined (joining : state.main = .joining i) (finished : count ≤ i) :
      ShutdownStep uvLoopDelete state .main { state with main := .deleting 0 }
  | delete (deleting : state.main = .deleting i) (more : i < count)
      (returns : uvLoopDelete i = true) :
      ShutdownStep uvLoopDelete state .main { state with main := .deleting (i + 1) }
  | abort (deleting : state.main = .deleting i) (more : i < count)
      (aborts : uvLoopDelete i = false) :
      ShutdownStep uvLoopDelete state .main { state with main := .aborted }
  | deleted (deleting : state.main = .deleting i) (finished : count ≤ i) :
      ShutdownStep uvLoopDelete state .main { state with main := .finished }

namespace Ending

/-- `kill` was called on the worker. -/
def Killed : Ending → Nat → Prop
  | .serving, _ => False
  | .killing i, k => k < i
  | _, _ => True

/-- The thread of the worker was joined. -/
def Joined : Ending → Nat → Prop
  | .joining i, k => k < i
  | .deleting _, _ | .finished, _ | .aborted, _ => True
  | _, _ => False

/-- The worker was deleted. -/
def Deleted : Ending → Nat → Prop
  | .deleting i, k => k < i
  | .finished, _ => True
  | _, _ => False

end Ending

/-- How the threads and the signals stand to where the main thread is. -/
structure Halting (uvLoopDelete started : Nat → Bool) (state : Shutdown Socket count) : Prop where
  pool : Reachable PoolStep (.initial Socket count) state.pool
  created : ∀ i, state.loops i = .absent ↔ started i = false
  placing : state.main ≠ .serving → state.pool.placing = .idle
  signalled : ∀ i : Fin count, state.main.Killed i → state.loops i = .running →
    state.killSignal i = true
  killed : ∀ i : Fin count, state.killSignal i = true ∨ state.loops i = .stopping ∨
    state.loops i = .ended → state.main.Killed i
  joined : ∀ i : Fin count, state.main.Joined i → state.loops i = .ended
  faulted : state.main = .faulted → ∃ i : Fin count, started i = false
  deleted : ∀ i : Fin count, state.main.Deleted i → uvLoopDelete i = true
  aborted : state.main = .aborted → ∃ i : Fin count, uvLoopDelete i = false

theorem halting_initial (uvLoopDelete started : Nat → Bool) :
    Halting uvLoopDelete started (.initial Socket count started) where
  pool := .start
  created i := by cases running : started i <;> simp [Shutdown.initial, running]
  placing moved := absurd rfl moved
  signalled _ killed := killed.elim
  killed i signalled := by cases running : started i <;> simp [Shutdown.initial, running] at signalled
  joined _ joined := joined.elim
  faulted := nofun
  deleted _ deleted := deleted.elim
  aborted := nofun

section Step

variable {uvLoopDelete started : Nat → Bool} {state next : Shutdown Socket count}

/-- Outside `ThreadPool::enqueue` a step of a loop leaves the main thread where it is. -/
theorem placing_of_loop {pool after : ThreadPool Socket count} {event : PoolEvent Socket count}
    {i : Fin count} (inside : event.loop = some i) (taken : PoolStep pool event after) :
    after.placing = pool.placing := by
  cases taken with
  | enqueue => cases inside
  | queueSize => cases inside
  | loopEnd => cases inside
  | push => cases inside
  | send => cases inside
  | clear => rfl
  | perform => rfl

/-- A step of the pool. -/
theorem Halting.pooled (halting : Halting uvLoopDelete started state) {pool : ThreadPool Socket count}
    {event : PoolEvent Socket count} (taken : PoolStep state.pool event pool)
    (placing : state.main ≠ .serving → pool.placing = state.pool.placing) :
    Halting uvLoopDelete started { state with pool } where
  pool := halting.pool.next taken
  created := halting.created
  placing moved := (placing moved).trans (halting.placing moved)
  signalled := halting.signalled
  killed := halting.killed
  joined := halting.joined
  faulted := halting.faulted
  deleted := halting.deleted
  aborted := halting.aborted

/-- A step of the main thread that sends no signal. -/
theorem Halting.moved (halting : Halting uvLoopDelete started state) {main : Ending}
    (idle : state.pool.placing = .idle)
    (killed : ∀ i : Fin count, main.Killed i ↔ state.main.Killed i)
    (joined : ∀ i : Fin count, main.Joined i → state.loops i = .ended)
    (faulted : main = .faulted → ∃ i : Fin count, started i = false)
    (deleted : ∀ i : Fin count, main.Deleted i → uvLoopDelete i = true)
    (aborted : main = .aborted → ∃ i : Fin count, uvLoopDelete i = false) :
    Halting uvLoopDelete started { state with main } where
  pool := halting.pool
  created := halting.created
  placing _ := idle
  signalled i reached := halting.signalled i ((killed i).mp reached)
  killed i signalled := (killed i).mpr (halting.killed i signalled)
  joined := joined
  faulted := faulted
  deleted := deleted
  aborted := aborted

theorem Halting.kill (halting : Halting uvLoopDelete started state) {i : Nat}
    (killing : state.main = .killing i)
    (more : i < count) :
    Halting uvLoopDelete started
      { state with
        killSignal := Function.update state.killSignal ⟨i, more⟩ true
        main := .killing (i + 1) } := by
  refine ⟨halting.pool, halting.created, fun _ => halting.placing (by rw [killing]; nofun), ?_, ?_,
    fun _ joined => joined.elim, nofun, fun _ deleted => deleted.elim, nofun⟩
  · intro k killed running
    change Function.update state.killSignal ⟨i, more⟩ true k = true
    rw [Function.update_apply]
    split
    · rfl
    · rename_i different
      apply halting.signalled k _ running
      rw [killing]
      have apart : (k : Nat) ≠ i := fun same => different (Fin.ext same)
      change (k : Nat) < i + 1 at killed
      change (k : Nat) < i
      omega
  · intro k signalled
    change (k : Nat) < i + 1
    by_cases same : k = ⟨i, more⟩
    · rw [same]
      exact Nat.lt_succ_self i
    · have before := halting.killed k (by simpa [Function.update_of_ne same] using signalled)
      rw [killing] at before
      exact Nat.lt_succ_of_lt before

/-- A step of the destructor, which begins when all threads were joined. -/
theorem Halting.deletes (halting : Halting uvLoopDelete started state) {i : Nat} {main : Ending}
    (deleting : state.main = .deleting i)
    (killed : ∀ k, main.Killed k ↔ (Ending.deleting i).Killed k)
    (faulted : main = .faulted → ∃ i : Fin count, started i = false)
    (deleted : ∀ k : Fin count, main.Deleted k → uvLoopDelete k = true)
    (aborted : main = .aborted → ∃ k : Fin count, uvLoopDelete k = false) :
    Halting uvLoopDelete started { state with main } := by
  apply halting.moved (halting.placing (by rw [deleting]; nofun)) ?_ ?_ faulted deleted aborted
  · intro k
    rw [deleting]
    exact killed k
  · exact fun k _ => halting.joined k (by rw [deleting]; trivial)

/-- The loop of a worker that was killed goes on towards its end. -/
theorem Halting.reloop (halting : Halting uvLoopDelete started state) {i : Fin count} {loop : Loop}
    (alive : (state.loops i).alive = true) (killed : state.main.Killed i) (signal : Bool)
    (further : loop = .stopping ∨ loop = .ended) :
    Halting uvLoopDelete started
      { state with
        killSignal := Function.update state.killSignal i signal
        loops := Function.update state.loops i loop } := by
  refine ⟨halting.pool, fun k => ?_, halting.placing, ?_, ?_, ?_, halting.faulted, halting.deleted,
    halting.aborted⟩
  · rw [← halting.created]
    by_cases same : k = i
    · subst same
      have here : state.loops k ≠ .absent := by
        intro absent
        rw [absent] at alive
        cases alive
      have there : loop ≠ .absent := by
        rcases further with rfl | rfl <;> nofun
      simp only [Function.update_self, here, there]
    · simp only [Function.update_of_ne same]
  · intro k reached running
    change Function.update state.loops i loop k = .running at running
    rw [Function.update_apply] at running
    split at running
    · subst running
      simp at further
    · rename_i different
      change Function.update state.killSignal i signal k = true
      rw [Function.update_of_ne different]
      exact halting.signalled k reached running
  · intro k signalled
    by_cases same : k = i
    · rw [same]
      exact killed
    · simp only [Function.update_of_ne same] at signalled
      exact halting.killed k signalled
  · intro k joined
    have ended := halting.joined k joined
    change Function.update state.loops i loop k = .ended
    have different : k ≠ i := by
      rintro rfl
      rw [ended] at alive
      cases alive
    rw [Function.update_of_ne different]
    exact ended

theorem halting_step {event : ShutdownEvent Socket count}
    (halting : Halting uvLoopDelete started state)
    (taken : ShutdownStep uvLoopDelete state event next) : Halting uvLoopDelete started next := by
  cases taken with
  | accept serving outside taken => exact halting.pooled taken fun moved => absurd serving moved
  | work inside alive taken => exact halting.pooled taken fun _ => placing_of_loop inside taken
  | callback => exact halting
  | onKillReceived alive idle signalled =>
    exact halting.reloop alive (halting.killed _ (.inl signalled)) false (.inl rfl)
  | @leave _ i stopping idle =>
    have alive : (state.loops i).alive = true := by rw [stopping]; rfl
    have kept := halting.reloop alive (halting.killed i (.inr (.inl stopping)))
      (state.killSignal i) (.inr rfl)
    rw [Function.update_eq_self] at kept
    exact kept
  | wait serving idle =>
    refine halting.moved idle (fun k => ?_) (fun _ joined => joined.elim) nofun
      (fun _ deleted => deleted.elim) nofun
    rw [serving]
    exact ⟨fun before => absurd before (Nat.not_lt_zero _), False.elim⟩
  | kill killing more => exact halting.kill killing more
  | killed killing finished =>
    refine halting.moved (halting.placing (by rw [killing]; nofun)) (fun k => ?_) ?_ nofun
      (fun _ deleted => deleted.elim) nofun
    · rw [killing]
      exact ⟨fun _ => Nat.lt_of_lt_of_le k.isLt finished, fun _ => trivial⟩
    · exact fun k before => absurd before (Nat.not_lt_zero _)
  | join joining more ended =>
    refine halting.moved (halting.placing (by rw [joining]; nofun)) (fun k => ?_) ?_ nofun
      (fun _ deleted => deleted.elim) nofun
    · rw [joining]
      exact Iff.rfl
    · intro k before
      rcases Nat.lt_succ_iff_lt_or_eq.mp before with earlier | same
      · exact halting.joined k (by rw [joining]; exact earlier)
      · have last : k = ⟨_, more⟩ := Fin.ext same
        rw [last]
        exact ended
  | fault joining more absent =>
    refine halting.moved (halting.placing (by rw [joining]; nofun)) (fun k => ?_)
      (fun _ joined => joined.elim) (fun _ => ⟨_, (halting.created _).mp absent⟩)
      (fun _ deleted => deleted.elim) nofun
    rw [joining]
    exact Iff.rfl
  | joined joining finished =>
    refine halting.moved (halting.placing (by rw [joining]; nofun)) (fun k => ?_) ?_ nofun
      (fun _ deleted => absurd deleted (Nat.not_lt_zero _)) nofun
    · rw [joining]
      exact Iff.rfl
    · exact fun k _ => halting.joined k (by rw [joining]; exact Nat.lt_of_lt_of_le k.isLt finished)
  | delete deleting more returns =>
    refine halting.deletes deleting (fun _ => Iff.rfl) nofun (fun k before => ?_) nofun
    rcases Nat.lt_succ_iff_lt_or_eq.mp before with earlier | same
    · exact halting.deleted k (by rw [deleting]; exact earlier)
    · rw [same]
      exact returns
  | abort deleting more aborts =>
    exact halting.deletes deleting (fun _ => Iff.rfl) nofun (fun _ deleted => deleted.elim)
      fun _ => ⟨⟨_, more⟩, aborts⟩
  | deleted deleting finished =>
    refine halting.deletes deleting (fun _ => Iff.rfl) nofun (fun k _ => ?_) nofun
    exact halting.deleted k (by rw [deleting]; exact Nat.lt_of_lt_of_le k.isLt finished)

theorem halting_reachable
    (reached : Reachable (ShutdownStep uvLoopDelete) (.initial Socket count started) state) :
    Halting uvLoopDelete started state :=
  reached.invariant (fun _ _ _ halting taken => halting_step halting taken)
    (halting_initial uvLoopDelete started)

/-- A thread that was joined had been created. -/
theorem Halting.started_of_joined (halting : Halting uvLoopDelete started state) {i : Fin count}
    (joined : state.main.Joined i) : started i = true := by
  have ended := halting.joined i joined
  cases running : started i with
  | true => rfl
  | false => cases ended.symm.trans ((halting.created i).mpr running)

end Step

section Weight

/-- What is left of `ThreadPool::wait` and the destructor; a `kill` leaves a signal. -/
def Ending.weight (count : Nat) : Ending → Nat
  | .serving => 4 * count + 4
  | .killing i => 2 * (count - i) + 2 * count + 3
  | .joining i => count - i + count + 2
  | .deleting i => count - i + 1
  | .finished | .faulted | .aborted => 0

/-- The kill signal of a worker and its loop. -/
def Shutdown.load (state : Shutdown Socket count) (i : Fin count) : Nat :=
  (state.killSignal i).toNat + (state.loops i).alive.toNat

/-- Once the accepting thread stops, every step but a connection's takes from this. -/
def Shutdown.weight (state : Shutdown Socket count) : Nat :=
  state.main.weight count + state.pool.weight + ∑ i, state.load i

/-- The steps other than the callbacks of connections. -/
def ShutdownEvent.counted : ShutdownEvent Socket count → Bool
  | .callback _ => false
  | _ => true

variable {uvLoopDelete started : Nat → Bool} {state next : Shutdown Socket count}

/-- One loop has less left to do, and the main thread no more. -/
theorem weight_loop {i : Fin count} (same : ∀ j, j ≠ i → next.load j = state.load j)
    (pool : next.pool = state.pool)
    (less : 1 + next.main.weight count + next.load i ≤ state.main.weight count + state.load i) :
    1 + next.weight ≤ state.weight := by
  have replaced := sum_replaced same
  unfold Shutdown.weight
  rw [pool]
  omega

theorem weight_main {main : Ending} (less : 1 + main.weight count ≤ state.main.weight count) :
    1 + Shutdown.weight { state with main } ≤ state.weight := by
  change 1 + (main.weight count + state.pool.weight + ∑ i, state.load i) ≤
    state.main.weight count + _ + _
  omega

theorem weight_pool {pool : ThreadPool Socket count} {event : PoolEvent Socket count}
    {i : Fin count} (inside : event.loop = some i) (taken : PoolStep state.pool event pool) :
    1 + Shutdown.weight { state with pool } ≤ state.weight := by
  have begins : event.begins = false := by cases event <;> first | rfl | cases inside
  obtain ⟨less, -⟩ := weight_falls taken begins
  change 1 + (state.main.weight count + pool.weight + ∑ i, state.load i) ≤
    _ + state.pool.weight + _
  omega

theorem shutdown_falls {event : ShutdownEvent Socket count} (begun : state.main ≠ .serving)
    (taken : ShutdownStep uvLoopDelete state event next) :
    event.counted.toNat + next.weight ≤ state.weight := by
  cases taken with
  | accept serving => exact absurd serving begun
  | work inside alive taken => exact weight_pool inside taken
  | callback => simp [ShutdownEvent.counted]
  | @onKillReceived _ i alive idle signalled =>
    refine weight_loop (fun j (different : j ≠ i) => ?_) rfl ?_
    · simp only [Shutdown.load, Function.update_of_ne different]
    · simp only [Shutdown.load, Function.update_self, alive, signalled]
      simp [Loop.alive]
      omega
  | @leave _ i stopping idle =>
    refine weight_loop (fun j (different : j ≠ i) => ?_) rfl ?_
    · simp only [Shutdown.load, Function.update_of_ne different]
    · simp only [Shutdown.load, Function.update_self, stopping]
      simp [Loop.alive]
      omega
  | wait serving => exact absurd serving begun
  | @kill i _ killing more =>
    refine weight_loop (fun j (different : j ≠ ⟨i, more⟩) => ?_) rfl ?_
    · simp only [Shutdown.load, Function.update_of_ne different]
    · have signal := Bool.toNat_le (state.killSignal ⟨_, more⟩)
      simp only [Shutdown.load, Function.update_self, killing, Ending.weight, Bool.toNat_true]
      omega
  | killed killing finished =>
    refine weight_main ?_
    simp only [killing, Ending.weight]
    omega
  | join joining more ended =>
    refine weight_main ?_
    simp only [joining, Ending.weight]
    omega
  | fault joining more absent =>
    refine weight_main ?_
    simp only [joining, Ending.weight]
    omega
  | joined joining finished =>
    refine weight_main ?_
    simp only [joining, Ending.weight]
    omega
  | delete deleting more returns =>
    refine weight_main ?_
    simp only [deleting, Ending.weight]
    omega
  | abort deleting more aborts =>
    refine weight_main ?_
    simp only [deleting, Ending.weight]
    omega
  | deleted deleting finished =>
    refine weight_main ?_
    simp only [deleting, Ending.weight]
    omega

theorem begun_step {event : ShutdownEvent Socket count} (begun : state.main ≠ .serving)
    (taken : ShutdownStep uvLoopDelete state event next) : next.main ≠ .serving := by
  cases taken with
  | accept => exact begun
  | work => exact begun
  | callback => exact begun
  | onKillReceived => exact begun
  | leave => exact begun
  | _ => nofun

theorem counted_run {final : Shutdown Socket count}
    {history : List (Shutdown Socket count × ShutdownEvent Socket count)}
    (begun : state.main ≠ .serving) (run : Run (ShutdownStep uvLoopDelete) state history final) :
    history.countP (fun taken => taken.2.counted) ≤ state.weight := by
  have bounded := run.countP_add_le Shutdown.weight (fun _ => 0) (fun _ => ShutdownEvent.counted)
    (fun _ _ _ begun taken => begun_step begun taken)
    (fun _ _ _ begun taken => shutdown_falls begun taken) begun
  exact Nat.le_trans (Nat.le_add_right _ _) bounded

/-- The weight is linear in the number of workers. -/
theorem Halting.weight_le (halting : Halting uvLoopDelete started state)
    (begun : state.main ≠ .serving) :
    state.weight ≤ 9 * count + 3 := by
  have pool := weight_of_idle (halting.placing begun)
  have loops : ∑ i, state.load i ≤ count * 2 := by
    apply sum_le_of_each
    intro i
    have kill := Bool.toNat_le (state.killSignal i)
    have alive := Bool.toNat_le (state.loops i).alive
    unfold Shutdown.load
    omega
  have main : state.main.weight count ≤ 4 * count + 3 := by
    cases main : state.main with
    | serving => exact absurd main begun
    | killing i => simp only [Ending.weight]; omega
    | joining i => simp only [Ending.weight]; omega
    | deleting i => simp only [Ending.weight]; omega
    | finished => exact Nat.zero_le _
    | faulted => exact Nat.zero_le _
    | aborted => exact Nat.zero_le _
  unfold Shutdown.weight
  omega

end Weight

section Progress

variable {uvLoopDelete started : Nat → Bool} {state : Shutdown Socket count}

/-- A loop that was killed ends, after the callback it is in. -/
theorem Halting.loop_goes_on (halting : Halting uvLoopDelete started state) (i : Fin count)
    (killed : state.main.Killed i) (alive : (state.loops i).alive = true) :
    ∃ event next, ShutdownStep uvLoopDelete state event next ∧ event.counted = true := by
  cases performing : (state.pool.mWorkers i).performing with
  | true =>
    obtain ⟨next, taken | taken⟩ := worker_goes_on halting.pool i (.inl performing)
    · exact ⟨_, _, .work rfl alive taken, rfl⟩
    · exact ⟨_, _, .work rfl alive taken, rfl⟩
  | false =>
    cases loop : state.loops i with
    | absent =>
      rw [loop] at alive
      cases alive
    | ended =>
      rw [loop] at alive
      cases alive
    | running =>
      exact ⟨_, _, .onKillReceived alive performing (halting.signalled i killed loop), rfl⟩
    | stopping => exact ⟨_, _, .leave loop performing, rfl⟩

theorem Halting.goes_on (halting : Halting uvLoopDelete started state)
    (begun : state.main ≠ .serving)
    (unfinished : state.main ≠ .finished) (sound : state.main ≠ .faulted)
    (alive : state.main ≠ .aborted) :
    ∃ event next, ShutdownStep uvLoopDelete state event next ∧ event.counted = true := by
  cases main : state.main with
  | serving => exact absurd main begun
  | finished => exact absurd main unfinished
  | faulted => exact absurd main sound
  | aborted => exact absurd main alive
  | killing i =>
    rcases Nat.lt_or_ge i count with more | finished
    · exact ⟨_, _, .kill main more, rfl⟩
    · exact ⟨_, _, .killed main finished, rfl⟩
  | deleting i =>
    rcases Nat.lt_or_ge i count with more | finished
    · cases returns : uvLoopDelete i with
      | true => exact ⟨_, _, .delete main more returns, rfl⟩
      | false => exact ⟨_, _, .abort main more returns, rfl⟩
    · exact ⟨_, _, .deleted main finished, rfl⟩
  | joining i =>
    rcases Nat.lt_or_ge i count with more | finished
    · have killed : state.main.Killed i := by
        rw [main]
        trivial
      cases loop : state.loops ⟨i, more⟩ with
      | absent => exact ⟨_, _, .fault main more loop, rfl⟩
      | ended => exact ⟨_, _, .join main more loop, rfl⟩
      | running => exact halting.loop_goes_on ⟨i, more⟩ killed (by rw [loop]; rfl)
      | stopping => exact halting.loop_goes_on ⟨i, more⟩ killed (by rw [loop]; rfl)
    · exact ⟨_, _, .joined main finished, rfl⟩

end Progress

/-- `ThreadPool::wait` leaves the pool to its own steps, stops no loop before it is
called, and joins and deletes no worker whose thread still runs. Once called it is
never stuck: within a number of steps linear in the number of workers, the callbacks
of connections aside, the destructor is done, if every thread was created and every
`uv_loop_delete` returns, or one of them aborts the process, with every thread at its
end, or a thread that was never created is joined. -/
theorem wait_returns {Socket : Type u} {count : Nat} {uvLoopDelete started : Nat → Bool}
    {state : Shutdown Socket count}
    (reached : Reachable (ShutdownStep uvLoopDelete) (.initial Socket count started) state) :
    Reachable PoolStep (.initial Socket count) state.pool ∧
    (state.main = .serving → ∀ i, (state.loops i).alive = started i) ∧
    (∀ i : Fin count, state.main.Joined i → state.loops i = .ended) ∧
    (state.main ≠ .serving →
      (state.main = .finished ∧ ∀ i : Fin count, started i = true ∧ uvLoopDelete i = true) ∨
      (state.main = .faulted ∧ ∃ i : Fin count, started i = false) ∨
      (state.main = .aborted ∧ (∀ i : Fin count, started i = true ∧ state.loops i = .ended) ∧
        ∃ i : Fin count, uvLoopDelete i = false) ∨
      ∃ event next, ShutdownStep uvLoopDelete state event next ∧ event.counted = true) ∧
    ∀ history final, state.main ≠ .serving → Run (ShutdownStep uvLoopDelete) state history final →
      history.countP (fun taken => taken.2.counted) ≤ 9 * count + 3 := by
  have halting := halting_reachable reached
  refine ⟨halting.pool, fun serving i => ?_, halting.joined, fun begun => ?_,
    fun history final begun run => ?_⟩
  · have quiet : ¬ state.main.Killed i := by
      rw [serving]
      exact id
    cases loop : state.loops i with
    | absent => exact ((halting.created i).mp loop).symm
    | running =>
      cases running : started i with
      | true => rfl
      | false => cases loop.symm.trans ((halting.created i).mpr running)
    | stopping => exact absurd (halting.killed i (.inr (.inl loop))) quiet
    | ended => exact absurd (halting.killed i (.inr (.inr loop))) quiet
  · by_cases finished : state.main = .finished
    · refine .inl ⟨finished, fun i => ⟨halting.started_of_joined ?_, halting.deleted i ?_⟩⟩
      · rw [finished]
        trivial
      · rw [finished]
        trivial
    · by_cases faulted : state.main = .faulted
      · exact .inr (.inl ⟨faulted, halting.faulted faulted⟩)
      · by_cases aborted : state.main = .aborted
        · have joined (i : Fin count) : state.main.Joined i := by
            rw [aborted]
            trivial
          exact .inr (.inr (.inl ⟨aborted,
            fun i => ⟨halting.started_of_joined (joined i), halting.joined i (joined i)⟩,
            halting.aborted aborted⟩))
        · exact .inr (.inr (.inr (halting.goes_on begun finished faulted aborted)))
  · exact Nat.le_trans (counted_run begun run) (halting.weight_le begun)

/-- A pool of one worker, whose destructor has come to its loop. -/
theorem deleting_single (uvLoopDelete : Nat → Bool) :
    ∃ state : Shutdown Nat 1,
      Reachable (ShutdownStep uvLoopDelete) (.initial Nat 1 fun _ => true) state ∧
      state.main = .deleting 0 := by
  have start : Reachable (ShutdownStep uvLoopDelete) (.initial Nat 1 fun _ => true)
      (.initial Nat 1 fun _ => true) := .start
  have killed := ((start.next (.wait rfl rfl)).next (.kill rfl Nat.one_pos)).next
    (.killed rfl (Nat.le_refl 1))
  have stopped := killed.next
    (.onKillReceived rfl rfl rfl : ShutdownStep uvLoopDelete _ (.onKillReceived 0) _)
  have left := stopped.next (.leave rfl rfl : ShutdownStep uvLoopDelete _ (.leave 0) _)
  have joined := (left.next (.join rfl Nat.one_pos rfl)).next (.joined rfl (Nat.le_refl 1))
  exact ⟨_, joined, rfl⟩

/-- It is stopped where `uv_loop_delete` returns, and aborts where it does not. -/
theorem wait_returns_single :
    (∃ state : Shutdown Nat 1,
      Reachable (ShutdownStep fun _ => true) (.initial Nat 1 fun _ => true) state ∧
      state.main = .finished ∧ state.loops 0 = .ended) ∧
    ∃ state : Shutdown Nat 1,
      Reachable (ShutdownStep fun _ => false) (.initial Nat 1 fun _ => true) state ∧
      state.main = .aborted ∧ state.loops 0 = .ended := by
  constructor
  · obtain ⟨state, reached, deleting⟩ := deleting_single fun _ => true
    have deleted := (reached.next (.delete deleting Nat.one_pos rfl)).next
      (.deleted rfl (Nat.le_refl 1))
    exact ⟨_, deleted, rfl, (wait_returns deleted).2.2.1 0 trivial⟩
  · obtain ⟨state, reached, deleting⟩ := deleting_single fun _ => false
    have aborted := reached.next (.abort deleting Nat.one_pos rfl)
    exact ⟨_, aborted, rfl, (wait_returns aborted).2.2.1 0 trivial⟩

end MailruHttp.Sys
