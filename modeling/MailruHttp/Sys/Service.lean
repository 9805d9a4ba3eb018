import Mathlib.Data.Fintype.EquivFin
import MailruHttp.Cmd.Parse
import MailruHttp.Server.CallbackSpec
import MailruHttp.Sys.Balance
import MailruHttp.Sys.Conservation

/-! The server from its start on: how many workers `main` ends up with, which of
them run, and what becomes of the clients it accepts. -/

namespace MailruHttp.Sys

open Library Cmd Server

universe u

/-- `Worker::init`, where both signals are to be made. -/
def Worker.init (killSignal receiveSignal : Int) : Bool := killSignal == 0 && receiveSignal == 0

/-- `Thread::run`, with the result of `uv_thread_create`. -/
def Thread.run (created : Int) : Bool := created == 0

/-- What `main` is given by its caller and by libuv: the results of `uv_async_init`
for the worker of each round, and of `uv_thread_create` for each thread. -/
structure Startup where
  posixlyCorrect : Bool := false
  arguments : List CString := []
  asyncInit : Nat → Int × Int := fun _ => (0, 0)
  threadCreate : Nat → Int := fun _ => 0

namespace Startup

def options (startup : Startup) : ServerOptions := parse startup.posixlyCorrect startup.arguments {}

/-- The argument of the constructor of `ThreadPool`, an `int`. -/
def count (startup : Startup) : Int := toInt startup.options.threadPoolSize

/-- The worker made in round `i` of the constructor is kept. -/
def init (startup : Startup) (i : Nat) : Bool :=
  Worker.init (startup.asyncInit i).1 (startup.asyncInit i).2

/-- `m_workers` after the constructor: the rounds whose worker was kept. -/
def mWorkers (startup : Startup) : List Nat := (List.range startup.count.toNat).filter startup.init

/-- The thread of worker `k` was started by `ThreadPool::run`. -/
def started (startup : Startup) (k : Nat) : Bool := Thread.run (startup.threadCreate k)

/-- The result of `ThreadPool::run`, which `main` only logs. -/
def run (startup : Startup) : Nat := (List.range startup.mWorkers.length).countP startup.started

end Startup

variable {Socket : Type u} {count : Nat}

/-- The pool, and the clients whose handle was passed to `uv_close`. -/
structure Service (Socket : Type u) (count : Nat) where
  pool : ThreadPool Socket count
  closed : List Socket := []

def Service.initial (Socket : Type u) (count : Nat) : Service Socket count where
  pool := .initial Socket count

/-- What a call made by `on_connect` does with its new client. -/
def Service.record (service : Service Socket count) (client : Socket) : Effect → Service Socket count
  | .enqueue =>
    { service with
      pool := { service.pool with
        placing := .scanning { socket := client }, passed := service.pool.passed ++ [client] } }
  | .uvClose _ => { service with closed := service.closed ++ [client] }
  | _ => service

inductive ServiceEvent (Socket : Type u) (count : Nat) where
  | connect (status uvAccept : Int) (client : Socket)
  | place (event : PoolEvent Socket count)
  | work (i : Fin count) (event : WorkerEvent Socket)
  | close (i : Fin count) (client : Socket)

/-- The events of a call of `ThreadPool::enqueue` once it has begun. -/
def PoolEvent.places : PoolEvent Socket count → Bool
  | .queueSize | .loopEnd | .worker _ (.push _) | .worker _ .send => true
  | _ => false

/-- What can happen next. The loop of a worker runs in its thread, and only the
threads in `started` exist; a worker closes no client but its own. -/
inductive ServiceStep (started : Nat → Bool) :
    Service Socket count → ServiceEvent Socket count → Service Socket count → Prop where
  | connect {status uvAccept : Int} {client : Socket} (idle : service.pool.placing = .idle)
      (fresh : client ∉ service.pool.passed) (unclosed : client ∉ service.closed) :
      ServiceStep started service (.connect status uvAccept client)
        ((onConnect status uvAccept).effects.foldl (fun state effect => state.record client effect)
          service)
  | place (places : event.places = true) (taken : PoolStep service.pool event next) :
      ServiceStep started service (.place event) { service with pool := next }
  | work {i : Fin count} (running : started i = true) (looping : event = .clear ∨ event = .perform)
      (taken : PoolStep service.pool (.worker i event) next) :
      ServiceStep started service (.work i event) { service with pool := next }
  | close {i : Fin count} (running : started i = true)
      (accepted : client ∈ (service.pool.mWorkers i).accepted) :
      ServiceStep started service (.close i client)
        { service with closed := service.closed ++ [client] }

/-- Every client passed to the pool is still being placed, was pushed to a worker
whose thread was started, or is closed; and no other worker was ever given one. -/
structure Served (started : Nat → Bool) (service : Service Socket count) : Prop where
  placed : ∀ client ∈ service.pool.passed, client ∈ service.pool.placing.sockets ∨
    (∃ i : Fin count, started i = true ∧ client ∈ (service.pool.mWorkers i).pushed) ∨ client ∈ service.closed
  live : ∀ i, (service.pool.mWorkers i).pushed ≠ [] → started i = true

theorem connect_cases (service : Service Socket count) (status uvAccept : Int) (client : Socket) :
    let after := (onConnect status uvAccept).effects.foldl
      (fun state effect => state.record client effect) service
    (status = 0 ∧ uvAccept = 0 ∧ after = service.record client .enqueue) ∨
      after.pool = service.pool := by
  rw [onConnect_effects]
  split
  · rename_i connected
    split
    · rename_i accepted
      exact .inl ⟨connected, accepted, rfl⟩
    · exact .inr rfl
  · exact .inr rfl

/-- Seen from the pool, a step of the service is a step of the pool or nothing. -/
theorem serviceStep_pool {started : Nat → Bool} {service next : Service Socket count}
    {event : ServiceEvent Socket count} (taken : ServiceStep started service event next) :
    next.pool = service.pool ∨ ∃ event, PoolStep service.pool event next.pool := by
  cases taken with
  | connect idle fresh unclosed =>
    rcases connect_cases service _ _ _ with ⟨-, -, passed⟩ | same
    · rw [passed]
      exact .inr ⟨_, .enqueue idle fresh⟩
    · exact .inl same
  | place places taken => exact .inr ⟨_, taken⟩
  | work running looping taken => exact .inr ⟨_, taken⟩
  | close => exact .inl rfl

theorem pool_reachable {started : Nat → Bool} {service : Service Socket count}
    (reached : Reachable (ServiceStep started) (.initial Socket count) service) :
    Reachable PoolStep (.initial Socket count) service.pool :=
  reached.view Service.pool fun _ _ _ taken => serviceStep_pool taken

/-- A pool with workers, all of them running, serves every client. -/
theorem served_reachable {started : Nat → Bool} {service : Service Socket count}
    (positive : 0 < count) (all : ∀ i < count, started i = true)
    (reached : Reachable (ServiceStep started) (.initial Socket count) service) :
    Served started service := by
  have placed := (conserved_reachable positive (pool_reachable reached)).placed
  refine ⟨?_, fun i _ => all i i.isLt⟩
  intro client passed
  have member : client ∈ service.pool.pushed + ↑service.pool.placing.sockets := by
    rw [← placed]
    exact Multiset.mem_coe.mpr passed
  rcases Multiset.mem_add.mp member with pushed | placing
  · obtain ⟨i, -, pushed⟩ := Multiset.mem_sum.mp pushed
    exact .inr (.inl ⟨i, all i i.isLt, Multiset.mem_coe.mp pushed⟩)
  · exact .inl (Multiset.mem_coe.mp placing)

/-- The service with its accepting thread elsewhere. -/
def Service.at (service : Service Socket count) (placing : Placing Socket count) :
    Service Socket count :=
  { service with pool := { service.pool with placing } }

section Calls

variable {started : Nat → Bool} {start service : Service Socket count}

/-- A client that `uv_accept` accepts is passed to the pool. -/
theorem accept_step {client : Socket} (idle : service.pool.placing = .idle)
    (fresh : client ∉ service.pool.passed) (unclosed : client ∉ service.closed) :
    ServiceStep started service (.connect 0 0 client) (service.record client .enqueue) :=
  .connect idle fresh unclosed

/-- A round chooses its worker or goes on to the next one. -/
theorem round_cases (scan : Scan Socket count) (i : Fin count) (tmp : Nat) :
    scan.round i tmp = .pushing scan.socket i ∨
      ∃ next, scan.round i tmp = .scanning next ∧ next.socket = scan.socket ∧
        next.i = scan.i + 1 := by
  unfold Scan.round
  split
  · exact .inl rfl
  · split
    · exact .inr ⟨_, rfl, rfl, rfl⟩
    · exact .inr ⟨_, rfl, rfl, rfl⟩

/-- Left alone, the loop of `enqueue` ends at the first worker with a shortest queue. -/
theorem scan_chooses {scan : Scan Socket count} (positive : 0 < count)
    (known : ScanExact service.pool.size scan)
    (reached : Reachable (ServiceStep started) start (service.at (.scanning scan))) :
    ∃ target, LowestMinimal service.pool.size target ∧
      Reachable (ServiceStep started) start (service.at (.pushing scan.socket target)) := by
  induction left : count - scan.i generalizing scan with
  | zero =>
    have finished : count ≤ scan.i := by omega
    have after := reached.next (.place rfl (.loopEnd rfl finished))
    cases pos : scan.pos with
    | none =>
      have first := known.first pos
      omega
    | some target =>
      have chosen := finish_exact known finished
      simp only [Scan.finish, pos] at chosen after
      exact ⟨target, chosen, after⟩
  | succ left ih =>
    have more : scan.i < count := by omega
    have after := reached.next (.place rfl (.queueSize rfl more))
    have chosen := round_exact known more
    rcases round_cases scan ⟨scan.i, more⟩ (service.pool.size ⟨scan.i, more⟩) with
      pushing | ⟨next, scanning, same, following⟩
    · rw [pushing] at chosen
      refine ⟨_, chosen, ?_⟩
      rw [← pushing]
      exact after
    · rw [scanning] at chosen
      rw [← same]
      refine ih chosen ?_ (by omega)
      rw [← scanning]
      exact after

/-- A call of `enqueue` that is left alone gives its client to the first worker
with a shortest queue. -/
theorem call_places {client : Socket} (positive : 0 < count)
    (reached : Reachable (ServiceStep started) start service)
    (idle : service.pool.placing = .idle) (fresh : client ∉ service.pool.passed)
    (unclosed : client ∉ service.closed) :
    ∃ target next, LowestMinimal service.pool.size target ∧
      Reachable (ServiceStep started) start next ∧ next.pool.placing = .idle ∧
      next.pool.mWorkers =
        (service.pool.setWorker target ((service.pool.mWorkers target).push client).send).mWorkers := by
  have passed : Reachable (ServiceStep started) start
      ((service.record client .enqueue).at (.scanning { socket := client })) :=
    reached.next (accept_step idle fresh unclosed)
  obtain ⟨target, chosen, pushing⟩ := scan_chooses positive (scanExact_start client) passed
  have pushed := pushing.next (.place rfl (.push rfl .push))
  have due : 0 < (((service.record client .enqueue).pool.setWorker target
      ((service.pool.mWorkers target).push client)).mWorkers target).sending := by
    rw [mWorkers_setWorker]
    exact Nat.succ_pos _
  have sent := pushed.next (.place rfl (.send rfl (.send due)))
  refine ⟨target, _, chosen, sent, rfl, ?_⟩
  simp only [ThreadPool.setWorker, Function.update_self, Function.update_idem]
  rfl

theorem exists_client [Infinite Socket] (service : Service Socket count) :
    ∃ client, client ∉ service.pool.passed ∧ client ∉ service.closed := by
  classical
  obtain ⟨client, absent⟩ :=
    Infinite.exists_notMem_finset (service.pool.passed ++ service.closed).toFinset
  simp only [List.mem_toFinset, List.mem_append, not_or] at absent
  exact ⟨client, absent⟩

/-- The first `filled` workers have one client each, the others none. -/
structure Filled (filled : Nat) (service : Service Socket count) : Prop where
  idle : service.pool.placing = .idle
  size : ∀ i : Fin count, service.pool.size i = if (i : Nat) < filled then 1 else 0
  given : ∀ i : Fin count, (i : Nat) < filled → (service.pool.mWorkers i).pushed ≠ []

theorem Filled.next {filled : Nat} (known : Filled filled service) (more : filled < count)
    {target : Fin count} (chosen : LowestMinimal service.pool.size target) :
    (target : Nat) = filled := by
  have minimal := chosen.minimal ⟨filled, more⟩
  rw [known.size, known.size] at minimal
  rcases Nat.lt_trichotomy target filled with before | same | after
  · simp [before] at minimal
  · exact same
  · have lowest := chosen.lowest ⟨filled, more⟩ after
    simp [known.size] at lowest

/-- One more worker has a client. -/
theorem Filled.succ {filled : Nat} (known : Filled filled service) {target : Fin count}
    (same : (target : Nat) = filled) {next : Service Socket count} {client : Socket}
    (idle : next.pool.placing = .idle) (workers : next.pool.mWorkers =
      (service.pool.setWorker target ((service.pool.mWorkers target).push client).send).mWorkers) :
    Filled (filled + 1) next := by
  have others {i : Fin count} (different : i ≠ target) :
      (i : Nat) < filled ↔ (i : Nat) < filled + 1 := by
    have apart : (i : Nat) ≠ filled := fun met => different (Fin.ext (met.trans same.symm))
    omega
  refine ⟨idle, fun i => ?_, fun i inside => ?_⟩
  · have size : next.pool.size i =
        if i = target then service.pool.size target + 1 else service.pool.size i := by
      rw [ThreadPool.size, workers, ← ThreadPool.size, size_setWorker]
      simp [Worker.push, Worker.send, Worker.queueSize, ThreadPool.size]
    rw [size]
    split
    · rename_i equal
      rw [known.size, equal, same, if_neg (Nat.lt_irrefl _), if_pos (Nat.lt_succ_self _)]
    · rename_i different
      simp only [known.size, others different]
  · rw [workers]
    by_cases equal : i = target
    · subst equal
      rw [mWorkers_setWorker]
      simp [Worker.push, Worker.send]
    · rw [mWorkers_setWorker_of_ne _ equal]
      exact known.given i ((others equal).mpr inside)

/-- While no worker takes anything from its queue, the workers are given one
client each, in their order. -/
theorem filled_reachable (Socket : Type u) [Infinite Socket] {count : Nat} (started : Nat → Bool)
    (filled : Nat) (room : filled ≤ count) :
    ∃ service : Service Socket count,
      Reachable (ServiceStep started) (.initial Socket count) service ∧ Filled filled service := by
  induction filled with
  | zero =>
    refine ⟨_, .start, rfl, fun i => ?_, fun i none => absurd none (Nat.not_lt_zero _)⟩
    simp [Service.initial, ThreadPool.initial, ThreadPool.size, Worker.queueSize]
  | succ filled ih =>
    obtain ⟨service, reached, known⟩ := ih (Nat.le_of_succ_le room)
    obtain ⟨client, fresh, unclosed⟩ := exists_client service
    have positive : 0 < count := Nat.lt_of_lt_of_le (Nat.succ_pos _) room
    obtain ⟨target, next, chosen, after, idle, workers⟩ :=
      call_places positive reached known.idle fresh unclosed
    exact ⟨next, after, known.succ (known.next room chosen) idle workers⟩

end Calls

/-- A service that serves every client of every run has a worker, since the client
of a pool without one is dropped. -/
theorem positive_of_served [Nonempty Socket] {started : Nat → Bool}
    (serves : ∀ service : Service Socket count,
      Reachable (ServiceStep started) (.initial Socket count) service → Served started service) :
    0 < count := by
  obtain ⟨client⟩ := ‹Nonempty Socket›
  by_contra none
  have start : Reachable (ServiceStep started) (.initial Socket count) (.initial Socket count) := .start
  have passed := start.next (accept_step rfl (List.not_mem_nil : client ∉ _) List.not_mem_nil)
  have dropped := passed.next (.place rfl (.loopEnd rfl (Nat.le_of_not_lt none)))
  rcases (serves _ dropped).placed client (by simp [Service.record, Service.initial]) with
    placing | ⟨i, -, -⟩ | closed
  · exact List.not_mem_nil placing
  · exact none (Nat.zero_lt_of_lt i.isLt)
  · exact List.not_mem_nil closed

/-- Every worker of such a service runs, since each is given a client in some run. -/
theorem started_of_served [Infinite Socket] {started : Nat → Bool}
    (serves : ∀ service : Service Socket count,
      Reachable (ServiceStep started) (.initial Socket count) service → Served started service)
    (k : Fin count) : started k = true := by
  obtain ⟨service, reached, filled⟩ := filled_reachable Socket started (k + 1) k.isLt
  exact (serves service reached).live k (filled.given k (Nat.lt_succ_self _))

namespace Startup

/-- With `-t` as the only option, its argument is the number of workers asked for. -/
theorem count_of_threads {startup : Startup} {optarg : CString}
    (only : startup.arguments = [{ text := bytes "-t" }, optarg]) :
    startup.count = requestedWorkers optarg.text := by
  have found : getopt startup.posixlyCorrect startup.arguments =
      [] ++ .option (byte 't') optarg :: [] := by
    rw [only]
    exact getopt_threads _ optarg
  exact parse_threadPoolSize {} found fun _ member => absurd member List.not_mem_nil

/-- A number of workers that an `unsigned` can hold and an `int` can not makes a
pool without workers. -/
theorem mWorkers_of_large {startup : Startup} {optarg : CString} {n : Nat}
    (only : startup.arguments = [{ text := bytes "-t" }, optarg])
    (read : scanDecimal optarg.text = some (false, n)) (low : 2 ^ 31 ≤ n) (high : n < 2 ^ 32) :
    startup.mWorkers = [] := by
  have negative : toInt n ≤ 0 := by
    unfold toInt
    rw [Int.bmod_eq_emod]
    split <;> omega
  have none : startup.count.toNat = 0 := by
    rw [count_of_threads only, requestedWorkers_of_scan read (by omega)]
    exact Int.toNat_of_nonpos negative
  rw [mWorkers, none]
  rfl

theorem mWorkers_positive_iff (startup : Startup) :
    0 < startup.mWorkers.length ↔ ∃ i : Nat, (i : Int) < startup.count ∧ startup.init i = true := by
  rw [List.length_pos_iff_exists_mem]
  simp only [mWorkers, List.mem_filter, List.mem_range, Int.lt_toNat]

/-- Where no `init` fails, the pool has the workers it was asked for, as an `int`. -/
theorem mWorkers_length {startup : Startup} (kept : ∀ i, startup.init i = true) :
    startup.mWorkers.length = startup.count.toNat := by
  rw [mWorkers, List.filter_eq_self.mpr fun i _ => kept i, List.length_range]

/-- Every thread was started exactly when `run` counts as many as there are workers. -/
theorem run_eq_iff (startup : Startup) :
    startup.run = startup.mWorkers.length ↔
      ∀ k < startup.mWorkers.length, startup.started k = true := by
  have threads := (List.length_range : (List.range startup.mWorkers.length).length = _)
  calc startup.run = startup.mWorkers.length
      ↔ startup.run = (List.range startup.mWorkers.length).length := by rw [threads]
    _ ↔ ∀ k ∈ List.range startup.mWorkers.length, startup.started k = true := List.countP_eq_length
    _ ↔ ∀ k < startup.mWorkers.length, startup.started k = true := by simp only [List.mem_range]

end Startup

/-- The server serves every client it accepts, in every run, exactly when the
constructor of its pool keeps a worker and every thread of the pool is started. -/
theorem clients_served_iff (Socket : Type u) [Infinite Socket] (startup : Startup) :
    (∀ service : Service Socket startup.mWorkers.length,
      Reachable (ServiceStep startup.started) (.initial Socket _) service →
      Served startup.started service) ↔
    (∃ i : Nat, (i : Int) < startup.count ∧ startup.init i = true) ∧
      ∀ k < startup.mWorkers.length, startup.started k = true := by
  rw [← startup.mWorkers_positive_iff]
  constructor
  · intro serves
    exact ⟨positive_of_served serves, fun k inside => started_of_served serves ⟨k, inside⟩⟩
  · rintro ⟨positive, all⟩ service reached
    exact served_reachable positive all reached

/-- The defaults on a healthy machine. -/
theorem clients_served_iff_default :
    ∃ service : Service Nat (Startup.mWorkers {}).length,
      Reachable (ServiceStep (Startup.started {})) (.initial Nat _) service ∧
      service.pool.passed = [7] ∧ Served (Startup.started {}) service := by
  have start : Reachable (ServiceStep (Startup.started {}))
    (.initial Nat (Startup.mWorkers {}).length) (.initial Nat _) := .start
  have passed := start.next (accept_step rfl (List.not_mem_nil : 7 ∉ _) List.not_mem_nil)
  refine ⟨_, passed, rfl, (clients_served_iff Nat {}).mpr ⟨⟨0, ?_, rfl⟩, fun _ _ => rfl⟩ _ passed⟩
  decide

/-- The command line asks for more workers than an `int` can count. -/
def Startup.overflowing : Startup where
  arguments := [{ text := bytes "-t" }, { text := bytes "3000000000" }]

/-- Two workers, of which the second one has no thread. -/
def Startup.threadless : Startup where
  arguments := [{ text := bytes "-t" }, { text := bytes "2" }]
  threadCreate k := if k = 1 then -11 else 0

/-- Too large a number of threads leaves no worker, and an accepted client is
dropped; and a worker whose thread was not started is given a client. -/
theorem accepted_client_dropped :
    (∃ service : Service Nat Startup.overflowing.mWorkers.length,
      Reachable (ServiceStep Startup.overflowing.started) (.initial Nat _) service ∧
      service.pool.passed = [7] ∧ service.pool.placing.sockets = [] ∧
      (∀ i, (service.pool.mWorkers i).pushed = []) ∧ service.closed = [] ∧
      ¬ Served Startup.overflowing.started service) ∧
    ∃ service : Service Nat Startup.threadless.mWorkers.length,
      Reachable (ServiceStep Startup.threadless.started) (.initial Nat _) service ∧
      (∃ i : Fin _, Startup.threadless.started i = false ∧ (service.pool.mWorkers i).pushed ≠ []) ∧
      ¬ Served Startup.threadless.started service := by
  constructor
  · have read : scanDecimal (bytes "3000000000") = some (false, 3000000000) := by decide
    have large : Startup.overflowing.mWorkers = [] :=
      Startup.mWorkers_of_large rfl read (by omega) (by omega)
    have none : Startup.overflowing.mWorkers.length = 0 := by rw [large, List.length_nil]
    have start : Reachable (ServiceStep Startup.overflowing.started)
      (.initial Nat Startup.overflowing.mWorkers.length) (.initial Nat _) := .start
    have passed := start.next (accept_step rfl (List.not_mem_nil : 7 ∉ _) List.not_mem_nil)
    have dropped := passed.next (.place rfl (.loopEnd rfl (by rw [none])))
    refine ⟨_, dropped, rfl, rfl, fun _ => rfl, rfl, fun served => ?_⟩
    rcases served.placed 7 (List.mem_singleton_self 7) with placing | ⟨i, -, -⟩ | closed
    · exact List.not_mem_nil placing
    · exact absurd i.isLt (by omega)
    · exact List.not_mem_nil closed
  · have read : scanDecimal (bytes "2") = some (false, 2) := by decide
    have asked := Startup.count_of_threads (rfl : Startup.threadless.arguments = _)
    have two : Startup.threadless.mWorkers.length = 2 := by
      rw [Startup.mWorkers_length fun _ => rfl, asked, requestedWorkers_of_scan read (by omega)]
      exact congrArg Int.toNat (toInt_of_fits 2 (by omega) (by omega))
    obtain ⟨service, reached, filled⟩ :=
      filled_reachable Nat Startup.threadless.started 2 (Nat.le_of_eq two.symm)
    have given := filled.given ⟨1, by omega⟩ Nat.one_lt_two
    exact ⟨service, reached, ⟨_, rfl, given⟩, fun served => nomatch served.live _ given⟩

end MailruHttp.Sys
