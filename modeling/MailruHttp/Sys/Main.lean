import Mathlib.Data.List.GetD
import MailruHttp.Sys.Service
import MailruHttp.Sys.Shutdown

/-! `main` from its start to its exit code: what it sets up, the threads it starts,
and the pool that its end destroys. -/

namespace MailruHttp.Sys

open Library Cmd

universe u

/-- What `main` is given, and what it is answered before it starts the threads. For the
worker of each round of the constructor libuv says whether `uv_loop_delete` returns. -/
structure Boot extends Startup where
  logOpen : Bool := true
  daemonize : Bool := true
  uvTcpInit : Int := 0
  uvTcpKeepalive : Int := 0
  uvIp4Addr : Int := 0
  uvTcpBind : Int := 0
  uvListen : Int := 0
  uvLoopDelete : Nat → Bool := fun _ => true

namespace Boot

/-- The results that `CHECK` looks at, in order. -/
def results (boot : Boot) : List Int :=
  [boot.uvTcpInit, boot.uvTcpKeepalive, boot.uvIp4Addr, boot.uvTcpBind, boot.uvListen]

/-- The exit code of a row of `CHECK`s, if one of them returns. -/
def check (results : List Int) : Option Int :=
  if results.all (· == 0) then none else some 2

/-- The exit code of a `main` that does not come to serve. -/
def refusal (boot : Boot) : Option Int :=
  if boot.logOpen = false then some 1
  else if boot.daemonize = false then some 0
  else check boot.results

/-- The constructor of the pool returns: so does `delete wrk` for every worker it drops. -/
def constructs (boot : Boot) : Bool :=
  (List.range boot.count.toNat).all fun i => boot.init i || boot.uvLoopDelete i

/-- `uv_loop_delete` returns for the loop of worker `k`. -/
def deletes (boot : Boot) (k : Nat) : Bool := boot.uvLoopDelete (boot.mWorkers.getD k 0)

end Boot

/-- Where `main` is: before `Log::open`, before the pool is made, before `daemonize`,
checking the results that are left, in the loop of `ThreadPool::run`, in `uv_run` or
behind it, in the destructor of the pool after an early return, or returned. Making
the pool and leaving early may abort the process. -/
inductive MainStage where
  | opening
  | constructing
  | daemonizing
  | checking (results : List Int)
  | running (i : Nat)
  | serving
  | leaving (code : Int) (i : Nat)
  | exited (code : Int)
  | aborted

/-- `main`, and the threads of the process. -/
structure Process (Socket : Type u) (count : Nat) where
  stage : MainStage := .opening
  threads : Shutdown Socket count := .initial Socket count fun _ => false

variable {Socket : Type u} {count : Nat}

/-- An event in the loop of a worker. -/
def ShutdownEvent.inLoop : ShutdownEvent Socket count → Bool
  | .pool event => event.loop.isSome
  | .callback _ | .onKillReceived _ | .leave _ => true
  | .main => false

inductive ProcessEvent (Socket : Type u) (count : Nat) where
  | main
  | threads (event : ShutdownEvent Socket count)

/-- What can happen next. From `uv_run` on the main thread is that of `Shutdown`. -/
inductive ProcessStep (boot : Boot) :
    Process Socket count → ProcessEvent Socket count → Process Socket count → Prop where
  | opened (opening : process.stage = .opening) (found : boot.logOpen = true) :
      ProcessStep boot process .main { process with stage := .constructing }
  | unopened (opening : process.stage = .opening) (missing : boot.logOpen = false) :
      ProcessStep boot process .main { process with stage := .exited 1 }
  | constructed (constructing : process.stage = .constructing) (returns : boot.constructs = true) :
      ProcessStep boot process .main { process with stage := .daemonizing }
  | unconstructed (constructing : process.stage = .constructing)
      (aborts : boot.constructs = false) :
      ProcessStep boot process .main { process with stage := .aborted }
  | daemonized (daemonizing : process.stage = .daemonizing) (detached : boot.daemonize = true) :
      ProcessStep boot process .main { process with stage := .checking boot.results }
  | undaemonized (daemonizing : process.stage = .daemonizing) (attached : boot.daemonize = false) :
      ProcessStep boot process .main { process with stage := .leaving 0 0 }
  | passed (checking : process.stage = .checking (0 :: results)) :
      ProcessStep boot process .main { process with stage := .checking results }
  | failed (checking : process.stage = .checking (result :: results)) (error : result ≠ 0) :
      ProcessStep boot process .main { process with stage := .leaving 2 0 }
  | listening (checking : process.stage = .checking []) :
      ProcessStep boot process .main { process with stage := .running 0 }
  | create (running : process.stage = .running i) (more : i < count)
      (created : boot.started i = true) :
      ProcessStep boot process .main
        { stage := .running (i + 1)
          threads := { process.threads with
            loops := Function.update process.threads.loops ⟨i, more⟩ .running } }
  | uncreated (running : process.stage = .running i) (more : i < count)
      (failed : boot.started i = false) :
      ProcessStep boot process .main { process with stage := .running (i + 1) }
  | ran (running : process.stage = .running i) (finished : count ≤ i) :
      ProcessStep boot process .main { process with stage := .serving }
  | threads (inside : process.stage = .serving ∨ event.inLoop = true)
      (taken : ShutdownStep boot.deletes process.threads event next) :
      ProcessStep boot process (.threads event) { process with threads := next }
  | returned (serving : process.stage = .serving) (finished : process.threads.main = .finished) :
      ProcessStep boot process .main { process with stage := .exited 0 }
  | delete (leaving : process.stage = .leaving code i) (more : i < count)
      (returns : boot.deletes i = true) :
      ProcessStep boot process .main { process with stage := .leaving code (i + 1) }
  | abort (leaving : process.stage = .leaving code i) (more : i < count)
      (aborts : boot.deletes i = false) :
      ProcessStep boot process .main { process with stage := .aborted }
  | left (leaving : process.stage = .leaving code i) (finished : count ≤ i) :
      ProcessStep boot process .main { process with stage := .exited code }

/-- The threads after the first `i` rounds of `ThreadPool::run`. -/
def Boot.created (boot : Boot) (Socket : Type u) (count i : Nat) : Shutdown Socket count :=
  .initial Socket count fun k => decide (k < i) && boot.started k

section Created

variable {boot : Boot}

theorem created_zero (boot : Boot) :
    boot.created Socket count 0 = .initial Socket count fun _ => false := by
  simp [Boot.created]

theorem created_all {i : Nat} (finished : count ≤ i) :
    boot.created Socket count i = .initial Socket count boot.started := by
  simp only [Boot.created, Shutdown.initial, Shutdown.mk.injEq, true_and, and_true]
  funext k
  simp [Nat.lt_of_lt_of_le k.isLt finished]

/-- A round that creates its thread. -/
theorem created_succ {i : Nat} (more : i < count) (created : boot.started i = true) :
    { boot.created Socket count i with
      loops := Function.update (boot.created Socket count i).loops ⟨i, more⟩ .running } =
      boot.created Socket count (i + 1) := by
  simp only [Boot.created, Shutdown.initial, Shutdown.mk.injEq, true_and, and_true]
  funext k
  by_cases same : k = ⟨i, more⟩
  · subst same
    simp [created]
  · have apart : (k : Nat) ≠ i := fun equal => same (Fin.ext equal)
    have bound : (k : Nat) < i + 1 ↔ (k : Nat) < i := by omega
    simp [Function.update_of_ne same, bound]

theorem created_succ_failed {i : Nat} (failed : boot.started i = false) :
    boot.created Socket count i = boot.created Socket count (i + 1) := by
  simp only [Boot.created, Shutdown.initial, Shutdown.mk.injEq, true_and, and_true]
  funext k
  by_cases same : (k : Nat) = i
  · simp [same, failed]
  · have bound : (k : Nat) < i + 1 ↔ (k : Nat) < i := by omega
    simp [bound]

/-- A loop whose worker was given nothing has nothing to do. -/
theorem initial_idle {uvLoopDelete started : Nat → Bool} {event : ShutdownEvent Socket count}
    {next : Shutdown Socket count} (inside : event.inLoop = true)
    (taken : ShutdownStep uvLoopDelete (.initial Socket count started) event next) :
    event.counted = false ∧ next = .initial Socket count started := by
  cases taken with
  | accept serving outside taken =>
    rw [ShutdownEvent.inLoop, outside] at inside
    cases inside
  | work looping alive taken =>
    cases taken with
    | enqueue => cases looping
    | queueSize => cases looping
    | loopEnd => cases looping
    | push => cases looping
    | send => cases looping
    | clear taken =>
      cases taken with
      | clear signalled idle => cases signalled
    | perform taken =>
      cases taken with
      | perform running returned => cases running
  | callback => exact ⟨rfl, rfl⟩
  | onKillReceived alive idle signalled => cases signalled
  | @leave _ i stopping idle =>
    change (if started i then Loop.running else .absent) = .stopping at stopping
    split at stopping <;> cases stopping
  | _ => cases inside

end Created

section Loops

variable {uvLoopDelete : Nat → Bool} {state next : Shutdown Socket count}
  {event : ShutdownEvent Socket count}

/-- Only a loop that runs has events, and they leave the main thread where it is. -/
theorem inLoop_step (inside : event.inLoop = true)
    (taken : ShutdownStep uvLoopDelete state event next) :
    next.main = state.main ∧ ∃ i, (state.loops i).alive = true := by
  cases taken with
  | accept serving outside taken =>
    rw [ShutdownEvent.inLoop, outside] at inside
    cases inside
  | work looping alive taken => exact ⟨rfl, _, alive⟩
  | callback alive => exact ⟨rfl, _, alive⟩
  | onKillReceived alive => exact ⟨rfl, _, alive⟩
  | @leave _ i stopping idle => exact ⟨rfl, i, by rw [stopping]; rfl⟩
  | _ => cases inside

end Loops

/-- How the threads stand to where `main` is, and both to what it was answered. -/
def Launched (boot : Boot) (threads : Shutdown Socket count) : MainStage → Prop
  | .opening => threads = boot.created Socket count 0
  | .constructing => boot.logOpen = true ∧ threads = boot.created Socket count 0
  | .daemonizing =>
    boot.logOpen = true ∧ boot.constructs = true ∧ threads = boot.created Socket count 0
  | .checking results =>
    boot.refusal = Boot.check results ∧ boot.constructs = true ∧
      threads = boot.created Socket count 0
  | .running i =>
    boot.refusal = none ∧ boot.constructs = true ∧ threads = boot.created Socket count i
  | .serving =>
    boot.refusal = none ∧ boot.constructs = true ∧
      Reachable (ShutdownStep boot.deletes) (.initial Socket count boot.started) threads
  | .leaving code i =>
    boot.refusal = some code ∧ boot.constructs = true ∧
      (∀ k : Fin count, k < i → boot.deletes k = true) ∧ threads = boot.created Socket count 0
  | .exited code =>
    (boot.refusal = some code ∧
      (code ≠ 1 → boot.constructs = true ∧ ∀ k : Fin count, boot.deletes k = true) ∧
      threads = boot.created Socket count 0) ∨
    (boot.refusal = none ∧ code = 0 ∧ boot.constructs = true ∧
      Reachable (ShutdownStep boot.deletes) (.initial Socket count boot.started) threads ∧
      threads.main = .finished)
  | .aborted =>
    (boot.constructs = false ∨ ∃ k : Fin count, boot.deletes k = false) ∧
      threads = boot.created Socket count 0

section Step

variable {boot : Boot} {process next : Process Socket count}

/-- What a loop does, where the accepting thread does not serve. -/
theorem Launched.inside {stage : MainStage} {event : ShutdownEvent Socket count}
    {threads after : Shutdown Socket count} (launched : Launched boot threads stage)
    (inside : event.inLoop = true) (taken : ShutdownStep boot.deletes threads event after) :
    Launched boot after stage := by
  have idle {i : Nat} (start : threads = boot.created Socket count i) :
      after = boot.created Socket count i := by
    subst start
    exact (initial_idle inside taken).2
  cases stage with
  | opening => exact idle launched
  | constructing => exact ⟨launched.1, idle launched.2⟩
  | daemonizing => exact ⟨launched.1, launched.2.1, idle launched.2.2⟩
  | checking results => exact ⟨launched.1, launched.2.1, idle launched.2.2⟩
  | running i => exact ⟨launched.1, launched.2.1, idle launched.2.2⟩
  | serving => exact ⟨launched.1, launched.2.1, launched.2.2.next taken⟩
  | leaving code i => exact ⟨launched.1, launched.2.1, launched.2.2.1, idle launched.2.2.2⟩
  | exited code =>
    rcases launched with ⟨refused, deleted, start⟩ | ⟨accepted, zero, made, reached, finished⟩
    · exact .inl ⟨refused, deleted, idle start⟩
    · exact .inr ⟨accepted, zero, made, reached.next taken,
        (inLoop_step inside taken).1.trans finished⟩
  | aborted => exact ⟨launched.1, idle launched.2⟩

/-- The threads are those of some rounds of `ThreadPool::run`, or went on from all of them. -/
theorem Launched.threads_cases {stage : MainStage} {threads : Shutdown Socket count}
    (launched : Launched boot threads stage) :
    (stage ≠ .serving ∧ ∃ i, threads = boot.created Socket count i) ∨
    (Reachable (ShutdownStep boot.deletes) (.initial Socket count boot.started) threads ∧
      (stage = .serving ∨ stage = .exited 0)) := by
  cases stage with
  | opening => exact .inl ⟨nofun, 0, launched⟩
  | constructing => exact .inl ⟨nofun, 0, launched.2⟩
  | daemonizing => exact .inl ⟨nofun, 0, launched.2.2⟩
  | checking results => exact .inl ⟨nofun, 0, launched.2.2⟩
  | running i => exact .inl ⟨nofun, i, launched.2.2⟩
  | serving => exact .inr ⟨launched.2.2, .inl rfl⟩
  | leaving code i => exact .inl ⟨nofun, 0, launched.2.2.2⟩
  | exited code =>
    rcases launched with ⟨-, -, start⟩ | ⟨-, rfl, -, reached, -⟩
    · exact .inl ⟨nofun, 0, start⟩
    · exact .inr ⟨reached, .inr rfl⟩
  | aborted => exact .inl ⟨nofun, 0, launched.2⟩

theorem launched_step {event : ProcessEvent Socket count}
    (launched : Launched boot process.threads process.stage)
    (taken : ProcessStep boot process event next) : Launched boot next.threads next.stage := by
  cases taken with
  | opened opening found =>
    rw [opening] at launched
    exact ⟨found, launched⟩
  | unopened opening missing =>
    rw [opening] at launched
    exact .inl ⟨by rw [Boot.refusal, if_pos missing], fun other => absurd rfl other, launched⟩
  | constructed constructing returns =>
    rw [constructing] at launched
    exact ⟨launched.1, returns, launched.2⟩
  | unconstructed constructing aborts =>
    rw [constructing] at launched
    exact ⟨.inl aborts, launched.2⟩
  | daemonized daemonizing detached =>
    rw [daemonizing] at launched
    exact ⟨by simp [Boot.refusal, launched.1, detached], launched.2⟩
  | undaemonized daemonizing attached =>
    rw [daemonizing] at launched
    exact ⟨by simp [Boot.refusal, launched.1, attached], launched.2.1,
      fun _ before => absurd before (Nat.not_lt_zero _), launched.2.2⟩
  | passed checking =>
    rw [checking] at launched
    exact launched
  | failed checking error =>
    rw [checking] at launched
    exact ⟨by simp [launched.1, Boot.check, error], launched.2.1,
      fun _ before => absurd before (Nat.not_lt_zero _), launched.2.2⟩
  | listening checking =>
    rw [checking] at launched
    exact launched
  | create running more created =>
    rw [running] at launched
    refine ⟨launched.1, launched.2.1, ?_⟩
    rw [launched.2.2, created_succ more created]
  | uncreated running more failed =>
    rw [running] at launched
    exact ⟨launched.1, launched.2.1, launched.2.2.trans (created_succ_failed failed)⟩
  | ran running finished =>
    rw [running] at launched
    refine ⟨launched.1, launched.2.1, ?_⟩
    rw [launched.2.2, created_all finished]
    exact .start
  | threads inside taken =>
    rcases inside with serving | inside
    · rw [serving] at launched
      change Launched boot _ process.stage
      rw [serving]
      exact ⟨launched.1, launched.2.1, launched.2.2.next taken⟩
    · exact launched.inside inside taken
  | returned serving finished =>
    rw [serving] at launched
    exact .inr ⟨launched.1, rfl, launched.2.1, launched.2.2, finished⟩
  | delete leaving more returns =>
    rw [leaving] at launched
    obtain ⟨refused, made, deleted, start⟩ := launched
    refine ⟨refused, made, fun k before => ?_, start⟩
    rcases Nat.lt_succ_iff_lt_or_eq.mp before with earlier | same
    · exact deleted k earlier
    · rw [same]
      exact returns
  | abort leaving more aborts =>
    rw [leaving] at launched
    exact ⟨.inr ⟨⟨_, more⟩, aborts⟩, launched.2.2.2⟩
  | left leaving finished =>
    rw [leaving] at launched
    obtain ⟨refused, made, deleted, start⟩ := launched
    exact .inl ⟨refused,
      fun _ => ⟨made, fun k => deleted k (Nat.lt_of_lt_of_le k.isLt finished)⟩, start⟩

theorem launched_reachable (reached : Reachable (ProcessStep boot) {} process) :
    Launched boot process.threads process.stage := by
  have keeps (process : Process Socket count) (event : ProcessEvent Socket count)
      (next : Process Socket count) (launched : Launched boot process.threads process.stage)
      (taken : ProcessStep boot process event next) : Launched boot next.threads next.stage :=
    launched_step launched taken
  have kept := reached.invariant keeps (created_zero boot).symm
  exact kept

end Step

/-- The accepting thread is in `uv_run`. -/
def Process.serves (process : Process Socket count) : Bool :=
  match process.stage, process.threads.main with
  | .serving, .serving => true
  | _, _ => false

/-- The steps that are counted: those of `main`, and outside `uv_run` all of the
others but the callbacks of connections. -/
def Process.counted (process : Process Socket count) : ProcessEvent Socket count → Bool
  | .main => true
  | .threads event => !process.serves && event.counted

/-- What is left of `main`, apart from `uv_run`. -/
def Process.weight (process : Process Socket count) : Nat :=
  match process.stage with
  | .opening => 10 * count + 14
  | .constructing => 10 * count + 13
  | .daemonizing => 10 * count + 12
  | .checking results => results.length + (10 * count + 6)
  | .running i => count - i + (9 * count + 5)
  | .serving => if process.serves then 9 * count + 4 else process.threads.weight + 1
  | .leaving _ i => count - i + 1
  | .exited _ | .aborted => 0

section Weight

variable {boot : Boot} {process next : Process Socket count}

theorem serves_iff : process.serves = true ↔
    process.stage = .serving ∧ process.threads.main = .serving := by
  unfold Process.serves
  split
  · rename_i stage main
    simp [stage, main]
  · rename_i other
    simp only [Bool.false_eq_true, false_iff]
    rintro ⟨stage, main⟩
    exact other stage main

theorem not_serves (begun : process.threads.main ≠ .serving) : process.serves = false :=
  Bool.eq_false_iff.mpr fun serves => begun (serves_iff.mp serves).2

/-- After its exit a process does nothing. -/
theorem Launched.ended {code : Int} {event : ShutdownEvent Socket count}
    {threads after : Shutdown Socket count} (launched : Launched boot threads (.exited code))
    (inside : event.inLoop = true) (taken : ShutdownStep boot.deletes threads event after) :
    False := by
  obtain ⟨i, alive⟩ := (inLoop_step inside taken).2
  rcases launched with ⟨-, -, start⟩ | ⟨-, -, -, reached, finished⟩
  · subst start
    simp [Boot.created, Shutdown.initial, Loop.alive] at alive
  · rw [(halting_reachable reached).joined i (by rw [finished]; trivial)] at alive
    cases alive

/-- Where `main` does not serve, a loop does nothing that counts. -/
theorem Launched.idle {stage : MainStage} {event : ShutdownEvent Socket count}
    {threads after : Shutdown Socket count} (launched : Launched boot threads stage)
    (elsewhere : stage ≠ .serving) (inside : event.inLoop = true)
    (taken : ShutdownStep boot.deletes threads event after) : event.counted = false := by
  rcases launched.threads_cases with ⟨-, i, rfl⟩ | ⟨-, serving | exited⟩
  · exact (initial_idle inside taken).1
  · exact absurd serving elsewhere
  · subst exited
    exact (launched.ended inside taken).elim

/-- A step of the main thread or of a loop, from `uv_run` on. -/
theorem serving_falls {event : ShutdownEvent Socket count} {threads after : Shutdown Socket count}
    (halting : Halting boot.deletes boot.started after)
    (taken : ShutdownStep boot.deletes threads event after) :
    (Process.counted ⟨.serving, threads⟩ (.threads event)).toNat +
      Process.weight ⟨.serving, after⟩ ≤ Process.weight ⟨.serving, threads⟩ := by
  by_cases serving : threads.main = .serving
  · have serves : Process.serves ⟨.serving, threads⟩ = true := serves_iff.mpr ⟨rfl, serving⟩
    simp only [Process.counted, Process.weight, serves, if_true, Bool.not_true, Bool.false_and,
      Bool.toNat_false]
    split
    · omega
    · rename_i stopped
      have begun : after.main ≠ .serving := fun still => stopped (serves_iff.mpr ⟨rfl, still⟩)
      have less := halting.weight_le begun
      omega
  · have outside : Process.serves ⟨.serving, threads⟩ = false := not_serves serving
    have still : Process.serves ⟨.serving, after⟩ = false := not_serves (begun_step serving taken)
    have less := shutdown_falls serving taken
    simp only [Process.counted, Process.weight, outside, still, Bool.not_false, Bool.true_and]
    simp
    omega

/-- Where `main` does not serve, what it has left is its own. -/
theorem weight_elsewhere (elsewhere : process.stage ≠ .serving) (after : Shutdown Socket count) :
    Process.weight { process with threads := after } = process.weight := by
  unfold Process.weight
  cases stage : process.stage with
  | serving => exact absurd stage elsewhere
  | _ => rfl

theorem process_falls {event : ProcessEvent Socket count}
    (launched : Launched boot process.threads process.stage)
    (taken : ProcessStep boot process event next) :
    (process.counted event).toNat + next.weight ≤ process.weight := by
  cases taken with
  | opened opening found =>
    simp only [Process.counted, Process.weight, opening, Bool.toNat_true]
    omega
  | unopened opening missing =>
    simp only [Process.counted, Process.weight, opening, Bool.toNat_true]
    omega
  | constructed constructing returns =>
    simp only [Process.counted, Process.weight, constructing, Bool.toNat_true]
    omega
  | unconstructed constructing aborts =>
    simp only [Process.counted, Process.weight, constructing, Bool.toNat_true]
    omega
  | daemonized daemonizing detached =>
    have results : boot.results.length = 5 := rfl
    simp only [Process.counted, Process.weight, daemonizing, results, Bool.toNat_true]
    omega
  | undaemonized daemonizing attached =>
    simp only [Process.counted, Process.weight, daemonizing, Bool.toNat_true]
    omega
  | passed checking =>
    simp only [Process.counted, Process.weight, checking, List.length_cons, Bool.toNat_true]
    omega
  | failed checking error =>
    simp only [Process.counted, Process.weight, checking, List.length_cons, Bool.toNat_true]
    omega
  | listening checking =>
    simp only [Process.counted, Process.weight, checking, List.length_nil, Bool.toNat_true]
    omega
  | create running more created =>
    simp only [Process.counted, Process.weight, running, Bool.toNat_true]
    omega
  | uncreated running more failed =>
    simp only [Process.counted, Process.weight, running, Bool.toNat_true]
    omega
  | ran running finished =>
    rw [running] at launched
    have serving : process.threads.main = .serving := by
      rw [launched.2.2]
      rfl
    have serves : Process.serves { process with stage := .serving } = true :=
      serves_iff.mpr ⟨rfl, serving⟩
    simp only [Process.counted, Process.weight, running, serves, Bool.toNat_true, if_true]
    omega
  | threads inside taken =>
    by_cases serving : process.stage = .serving
    · obtain ⟨stage, threads⟩ := process
      subst serving
      exact serving_falls (halting_reachable (launched.2.2.next taken)) taken
    · have looping := inside.resolve_left serving
      have uncounted := launched.idle serving looping taken
      rw [weight_elsewhere serving]
      simp [Process.counted, uncounted]
  | returned serving finished =>
    have outside : process.serves = false := not_serves (by rw [finished]; nofun)
    simp [Process.counted, Process.weight, serving, outside]
  | delete leaving more returns =>
    simp only [Process.counted, Process.weight, leaving, Bool.toNat_true]
    omega
  | abort leaving more aborts =>
    simp only [Process.counted, Process.weight, leaving, Bool.toNat_true]
    omega
  | left leaving finished =>
    simp only [Process.counted, Process.weight, leaving, Bool.toNat_true]
    omega

/-- A process that has not ended goes on, unless a join of a thread that was never
created has ended it, or `uv_loop_delete`. -/
theorem Launched.goes_on (launched : Launched boot process.threads process.stage)
    (unfinished : ∀ code, process.stage ≠ .exited code) (outside : process.serves = false)
    (sound : process.threads.main ≠ .faulted) (alive : process.stage ≠ .aborted)
    (running : process.threads.main ≠ .aborted) :
    ∃ event next, ProcessStep boot process event next ∧ process.counted event = true := by
  cases stage : process.stage with
  | opening =>
    cases opened : boot.logOpen with
    | true => exact ⟨.main, _, .opened stage opened, rfl⟩
    | false => exact ⟨.main, _, .unopened stage opened, rfl⟩
  | constructing =>
    cases returns : boot.constructs with
    | true => exact ⟨.main, _, .constructed stage returns, rfl⟩
    | false => exact ⟨.main, _, .unconstructed stage returns, rfl⟩
  | daemonizing =>
    cases detached : boot.daemonize with
    | true => exact ⟨.main, _, .daemonized stage detached, rfl⟩
    | false => exact ⟨.main, _, .undaemonized stage detached, rfl⟩
  | checking results =>
    cases results with
    | nil => exact ⟨.main, _, .listening stage, rfl⟩
    | cons result results =>
      by_cases zero : result = 0
      · subst zero
        exact ⟨.main, _, .passed stage, rfl⟩
      · exact ⟨.main, _, .failed stage zero, rfl⟩
  | running i =>
    rcases Nat.lt_or_ge i count with more | finished
    · cases created : boot.started i with
      | true => exact ⟨.main, _, .create stage more created, rfl⟩
      | false => exact ⟨.main, _, .uncreated stage more created, rfl⟩
    · exact ⟨.main, _, .ran stage finished, rfl⟩
  | leaving code i =>
    rcases Nat.lt_or_ge i count with more | finished
    · cases returns : boot.deletes i with
      | true => exact ⟨.main, _, .delete stage more returns, rfl⟩
      | false => exact ⟨.main, _, .abort stage more returns, rfl⟩
    · exact ⟨.main, _, .left stage finished, rfl⟩
  | exited code => exact absurd stage (unfinished code)
  | aborted => exact absurd stage alive
  | serving =>
    by_cases finished : process.threads.main = .finished
    · exact ⟨.main, _, .returned stage finished, rfl⟩
    · have begun : process.threads.main ≠ .serving := by
        intro serving
        rw [serves_iff.mpr ⟨stage, serving⟩] at outside
        cases outside
      rw [stage] at launched
      obtain ⟨event, next, taken, counted⟩ :=
        (halting_reachable launched.2.2).goes_on begun finished sound running
      refine ⟨.threads event, _, .threads (.inl stage) taken, ?_⟩
      simp [Process.counted, outside, counted]

end Weight

/-- The worker was deleted. -/
def Process.Deleted (process : Process Socket count) (k : Nat) : Prop :=
  match process.stage with
  | .leaving _ i => k < i
  | .exited code => code ≠ 1
  | .serving =>
    match process.threads.main with
    | .deleting i => k < i
    | .finished => True
    | _ => False
  | _ => False

/-- A `uv_loop_delete` ended the process. -/
def Process.Aborted (process : Process Socket count) : Prop :=
  process.stage = .aborted ∨ process.threads.main = .aborted

section Exit

variable {boot : Boot} {process : Process Socket count}

theorem Launched.deleted (launched : Launched boot process.threads process.stage) {i : Fin count}
    (deleted : process.Deleted i) : (process.threads.loops i).alive = false := by
  have absent (start : process.threads = boot.created Socket count 0) :
      (process.threads.loops i).alive = false := by
    rw [start, created_zero]
    rfl
  have ended (reached : Reachable (ShutdownStep boot.deletes)
        (.initial Socket count boot.started) process.threads)
      (joined : process.threads.main.Joined i) : (process.threads.loops i).alive = false := by
    rw [(halting_reachable reached).joined i joined]
    rfl
  unfold Process.Deleted at deleted
  cases stage : process.stage with
  | opening => simp [stage] at deleted
  | constructing => simp [stage] at deleted
  | daemonizing => simp [stage] at deleted
  | checking results => simp [stage] at deleted
  | running k => simp [stage] at deleted
  | aborted => simp [stage] at deleted
  | leaving code k =>
    rw [stage] at launched
    exact absent launched.2.2.2
  | exited code =>
    rw [stage] at launched
    rcases launched with ⟨-, -, start⟩ | ⟨-, -, -, reached, finished⟩
    · exact absent start
    · exact ended reached (by rw [finished]; trivial)
  | serving =>
    rw [stage] at launched
    refine ended launched.2.2 ?_
    cases main : process.threads.main <;> simp [stage, main] at deleted <;> trivial

/-- Only a process that serves joins a thread. -/
theorem Launched.faulted (launched : Launched boot process.threads process.stage)
    (faulted : process.threads.main = .faulted) : ∃ i : Fin count, boot.started i = false := by
  rcases launched.threads_cases with ⟨-, i, start⟩ | ⟨reached, -⟩
  · rw [start] at faulted
    cases faulted
  · exact (halting_reachable reached).faulted faulted

/-- No thread runs when a process is aborted, and some worker could not be deleted. -/
theorem Launched.aborted (launched : Launched boot process.threads process.stage)
    (aborted : process.Aborted) :
    (boot.constructs = false ∨ ∃ k : Fin count, boot.deletes k = false) ∧
      ∀ i, (process.threads.loops i).alive = false := by
  rcases aborted with early | late
  · rw [early] at launched
    refine ⟨launched.1, fun i => ?_⟩
    rw [launched.2, created_zero]
    rfl
  · rcases launched.threads_cases with ⟨-, i, start⟩ | ⟨reached, -⟩
    · rw [start] at late
      cases late
    · have halting := halting_reachable reached
      refine ⟨.inr (halting.aborted late), fun i => ?_⟩
      rw [halting.joined i (by rw [late]; trivial)]
      rfl

/-- An exit is the first refusal, or the end of all threads. -/
theorem Launched.exits {code : Int} {threads : Shutdown Socket count}
    (launched : Launched boot threads (.exited code)) :
    (code ≠ 1 → boot.constructs = true ∧ ∀ i : Fin count, boot.deletes i = true) ∧
    ((boot.refusal = some code ∧ ∀ i, threads.loops i = .absent) ∨
      (boot.refusal = none ∧ code = 0 ∧
        ∀ i : Fin count, boot.started i = true ∧ threads.loops i = .ended)) := by
  rcases launched with ⟨refused, deleted, start⟩ | ⟨accepted, zero, made, reached, finished⟩
  · refine ⟨deleted, .inl ⟨refused, fun i => ?_⟩⟩
    rw [start, created_zero]
    rfl
  · have halting := halting_reachable reached
    have joined (i : Fin count) : threads.main.Joined i := by
      rw [finished]
      trivial
    have deleted (i : Fin count) : boot.deletes i = true :=
      halting.deleted i (by rw [finished]; trivial)
    exact ⟨fun _ => ⟨made, deleted⟩, .inr ⟨accepted, zero, fun i =>
      ⟨halting.started_of_joined (joined i), halting.joined i (joined i)⟩⟩⟩

/-- A process is at one of its ends, in `uv_run`, or goes on. -/
theorem Launched.ends_or_goes_on (launched : Launched boot process.threads process.stage) :
    (∃ code, process.stage = .exited code) ∨ process.serves = true ∨ process.Aborted ∨
      (process.threads.main = .faulted ∧ ∃ i : Fin count, boot.started i = false) ∨
      ∃ event next, ProcessStep boot process event next ∧ process.counted event = true := by
  by_cases ended : ∃ code, process.stage = .exited code
  · exact .inl ended
  · cases serves : process.serves with
    | true => exact .inr (.inl rfl)
    | false =>
      by_cases aborted : process.Aborted
      · exact .inr (.inr (.inl aborted))
      · by_cases faulted : process.threads.main = .faulted
        · exact .inr (.inr (.inr (.inl ⟨faulted, launched.faulted faulted⟩)))
        · have goesOn := launched.goes_on (fun code exited => ended ⟨code, exited⟩) serves faulted
            (fun early => aborted (.inl early)) fun late => aborted (.inr late)
          exact .inr (.inr (.inr (.inr goesOn)))

/-- Every worker was made in some round of the constructor. -/
theorem round_of_worker {startup : Startup} {i : Nat} (member : i ∈ startup.mWorkers) :
    i < startup.count.toNat := by
  unfold Startup.mWorkers at member
  exact List.mem_range.mp (List.mem_filter.mp member).1

theorem getD_mem {rounds : List Nat} {k : Nat} (inside : k < rounds.length) :
    rounds.getD k 0 ∈ rounds := by
  rw [List.getD_eq_getElem _ _ inside]
  exact List.getElem_mem inside

theorem round_of_aborts (boot : Boot)
    (aborts : boot.constructs = false ∨
      ∃ k : Fin boot.mWorkers.length, boot.deletes k = false) :
    ∃ i < boot.count.toNat, boot.uvLoopDelete i = false := by
  rcases aborts with dropped | ⟨k, kept⟩
  · obtain ⟨i, member, failed⟩ := List.all_eq_false.mp dropped
    simp only [Bool.or_eq_true, not_or, Bool.not_eq_true] at failed
    exact ⟨i, List.mem_range.mp member, failed.2⟩
  · exact ⟨_, round_of_worker (getD_mem k.isLt), kept⟩

end Exit

/-- `main`, in every interleaving with the threads that it starts, comes to `uv_run`
only if all it asked for was granted, and then with the pool and the threads from which
`Shutdown` starts; before that no worker is given anything. It leaves with the code
of the first refusal, without having started a thread, or with 0 after `run` has counted
every worker and all of their threads have ended; no worker is deleted while its thread
runs, and from the constructor of the pool on each one that is deleted takes a
`uv_loop_delete` that returns. One that does not aborts the process, where no thread
runs. Outside `uv_run` it goes on until then, in a number of steps linear in the number
of workers, or joins a thread that was never created. -/
theorem main_exits {Socket : Type u} {boot : Boot} {process : Process Socket boot.mWorkers.length}
    {history : List (Process Socket boot.mWorkers.length × ProcessEvent Socket boot.mWorkers.length)}
    (run : Run (ProcessStep boot) {} history process) :
    (process.stage = .serving → boot.refusal = none ∧ boot.constructs = true ∧
      Reachable (ShutdownStep boot.deletes) (.initial Socket boot.mWorkers.length boot.started)
        process.threads) ∧
    (process.stage ≠ .serving → (∀ code, process.stage ≠ .exited code) →
      process.threads.pool = .initial Socket boot.mWorkers.length ∧
      ∀ i, process.threads.killSignal i = false) ∧
    (∀ code, process.stage = .exited code →
      (code ≠ 1 → boot.constructs = true ∧
        ∀ i : Fin boot.mWorkers.length, boot.deletes i = true) ∧
      ((boot.refusal = some code ∧ ∀ i, process.threads.loops i = .absent) ∨
      (boot.refusal = none ∧ code = 0 ∧ boot.run = boot.mWorkers.length ∧
        ∀ i : Fin boot.mWorkers.length,
          boot.started i = true ∧ process.threads.loops i = .ended))) ∧
    (∀ i : Fin boot.mWorkers.length, process.Deleted i →
      (process.threads.loops i).alive = false) ∧
    (process.Aborted → (∃ i < boot.count.toNat, boot.uvLoopDelete i = false) ∧
      ∀ i, (process.threads.loops i).alive = false) ∧
    ((∃ code, process.stage = .exited code) ∨ process.serves = true ∨ process.Aborted ∨
      (process.threads.main = .faulted ∧ ∃ i : Fin boot.mWorkers.length, boot.started i = false) ∨
      ∃ event next, ProcessStep boot process event next ∧ process.counted event = true) ∧
    history.countP (fun taken => taken.1.counted taken.2) ≤ 10 * boot.mWorkers.length + 14 := by
  have launched := launched_reachable ⟨history, run⟩
  refine ⟨fun serving => ?_, fun elsewhere unfinished => ?_, fun code exited => ?_,
    fun i deleted => launched.deleted deleted, fun aborted => ?_, launched.ends_or_goes_on, ?_⟩
  · rw [serving] at launched
    exact launched
  · rcases launched.threads_cases with ⟨-, i, start⟩ | ⟨-, serving | exited⟩
    · rw [start]
      exact ⟨rfl, fun _ => rfl⟩
    · exact absurd serving elsewhere
    · exact absurd exited (unfinished 0)
  · rw [exited] at launched
    obtain ⟨deleted, refused | ⟨accepted, zero, ended⟩⟩ := launched.exits
    · exact ⟨deleted, .inl refused⟩
    · have counted : boot.run = boot.mWorkers.length :=
        boot.run_eq_iff.mpr fun k inside => (ended ⟨k, inside⟩).1
      exact ⟨deleted, .inr ⟨accepted, zero, counted, ended⟩⟩
  · obtain ⟨aborts, still⟩ := launched.aborted aborted
    exact ⟨round_of_aborts boot aborts, still⟩
  · have bounded := run.countP_add_le Process.weight (fun _ => 0) Process.counted
      (fun _ _ _ launched taken => launched_step launched taken)
      (fun _ _ _ launched taken => process_falls launched taken) (created_zero boot).symm
    exact Nat.le_trans (Nat.le_add_right _ _) bounded

/-- One worker of ten, and a port that is taken. -/
def Boot.taken (uvLoopDelete : Nat → Bool) : Boot :=
  { uvTcpBind := -98, asyncInit := fun i => (if i = 4 then 0 else -24, 0), uvLoopDelete }

theorem Boot.taken_single (uvLoopDelete : Nat → Bool) : (Boot.taken uvLoopDelete).mWorkers = [4] := by
  have none : (Boot.taken uvLoopDelete).arguments = [] := rfl
  rw [Startup.mWorkers, Startup.count, Startup.options, parse, none, getopt]
  rfl

theorem Boot.taken_leaves (uvLoopDelete : Nat → Bool)
    (constructs : (Boot.taken uvLoopDelete).constructs = true) :
    ∃ history process, Run (ProcessStep (Boot.taken uvLoopDelete))
      ({} : Process Nat (Boot.taken uvLoopDelete).mWorkers.length) history process ∧
      process.stage = .leaving 2 0 := by
  have run : Run (ProcessStep (Boot.taken uvLoopDelete))
      ({} : Process Nat (Boot.taken uvLoopDelete).mWorkers.length) [] {} := .start
  have made := (run.next (.opened rfl rfl)).next (.constructed rfl constructs)
  have listening := (made.next (.daemonized rfl rfl)).next (.passed rfl)
  have refused := ((listening.next (.passed rfl)).next (.passed rfl)).next
    (.failed rfl (by change (-98 : Int) ≠ 0; decide))
  exact ⟨_, _, refused, rfl⟩

/-- It exits where `uv_loop_delete` does not look at the handles of a loop, and aborts
where it refuses the loop of the one worker, whose signals are open. -/
theorem main_exits_taken :
    (∃ process : Process Nat (Boot.taken fun _ => true).mWorkers.length,
      process.stage = .exited 2 ∧ ∀ i, process.threads.loops i = .absent) ∧
    ∃ process : Process Nat (Boot.taken fun i => i != 4).mWorkers.length,
      process.stage = .aborted ∧ ∀ i, (process.threads.loops i).alive = false := by
  have length (uvLoopDelete : Nat → Bool) : (Boot.taken uvLoopDelete).mWorkers.length = 1 := by
    rw [Boot.taken_single]
    rfl
  have more (uvLoopDelete : Nat → Bool) : 0 < (Boot.taken uvLoopDelete).mWorkers.length := by
    rw [length]
    exact Nat.one_pos
  constructor
  · obtain ⟨history, process, run, leaving⟩ := Boot.taken_leaves (fun _ => true)
      (List.all_eq_true.mpr fun _ _ => Bool.or_true _)
    have exited := (run.next (.delete leaving (more _) rfl)).next (.left rfl (Nat.le_of_eq (length _)))
    obtain ⟨-, ⟨-, absent⟩ | ⟨-, zero, -⟩⟩ := (main_exits exited).2.2.1 2 rfl
    · exact ⟨_, rfl, absent⟩
    · cases zero
  · have constructs : (Boot.taken fun i => i != 4).constructs = true := by
      apply List.all_eq_true.mpr
      intro i _
      by_cases kept : i = 4
      · subst kept
        rfl
      · exact Bool.or_eq_true_iff.mpr (.inr (bne_iff_ne.mpr kept))
    obtain ⟨history, process, run, leaving⟩ := Boot.taken_leaves (fun i => i != 4) constructs
    have refuses : (Boot.taken fun i => i != 4).deletes 0 = false := by
      rw [Boot.deletes, Boot.taken_single]
      rfl
    have aborted := run.next (.abort leaving (more _) refuses)
    exact ⟨_, rfl, ((main_exits aborted).2.2.2.2.1 (.inl rfl)).2⟩

end MailruHttp.Sys
