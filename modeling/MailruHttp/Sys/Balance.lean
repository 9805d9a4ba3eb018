import MailruHttp.Sys.ThreadPool

/-! How `ThreadPool::enqueue` balances the queues, with and without workers that
drain them during its scan. -/

namespace MailruHttp.Sys

open Library

universe u

variable {Socket : Type u} {count : Nat}

/-- The length of the queue of one worker of a pool. -/
def ThreadPool.size (pool : ThreadPool Socket count) (i : Fin count) : Nat :=
  (pool.mWorkers i).queueSize

inductive CallEvent (count : Nat) where
  | queueSize
  | loopEnd
  | dequeue (i : Fin count)

/-- One call of `ThreadPool::enqueue` up to its push, the only producer, while
workers take sockets from any queue at any time. -/
inductive CallStep :
    ThreadPool Socket count → CallEvent count → ThreadPool Socket count → Prop where
  | queueSize (taken : PoolStep pool .queueSize next) : CallStep pool .queueSize next
  | loopEnd (taken : PoolStep pool .loopEnd next) : CallStep pool .loopEnd next
  | dequeue (i : Fin count) :
      CallStep pool (.dequeue i) (pool.setWorker i (pool.mWorkers i).dequeue.2)

theorem dequeue_queueSize_le (worker : Worker Socket) :
    worker.dequeue.2.queueSize ≤ worker.queueSize := by
  unfold Worker.dequeue
  cases queue : worker.mQueue with
  | nil => exact Nat.le_refl _
  | cons client rest => simp [Worker.queueSize, queue]

theorem size_setWorker (pool : ThreadPool Socket count) (i j : Fin count) (worker : Worker Socket) :
    (pool.setWorker i worker).size j = if j = i then worker.queueSize else pool.size j := by
  unfold ThreadPool.size
  by_cases same : j = i
  · subst same
    rw [mWorkers_setWorker, if_pos rfl]
  · rw [mWorkers_setWorker_of_ne pool same, if_neg same]

theorem size_push (pool : ThreadPool Socket count) (i j : Fin count) (socket : Socket) :
    (pool.setWorker i ((pool.mWorkers i).push socket)).size j =
      if j = i then pool.size i + 1 else pool.size j := by
  rw [size_setWorker]
  simp [Worker.push, Worker.queueSize, ThreadPool.size]

theorem size_dequeue_le (pool : ThreadPool Socket count) (i j : Fin count) :
    (pool.setWorker i (pool.mWorkers i).dequeue.2).size j ≤ pool.size j := by
  rw [size_setWorker]
  split
  · rename_i same
    rw [same]
    exact dequeue_queueSize_le _
  · exact Nat.le_refl _

/-- After a round the loop has seen what it had seen before, and worker `i`. -/
theorem seen_cases {i : Nat} (more : i < count) {k : Fin count} (seen : (k : Nat) < i + 1) :
    (k : Nat) < i ∨ k = ⟨i, more⟩ := by
  rcases Nat.lt_succ_iff_lt_or_eq.mp seen with before | last
  · exact .inl before
  · exact .inr (Fin.ext last)

section Draining

variable (initial current : Fin count → Nat) (socket : Socket)

/-- What the loop knows while queues may shrink: the fallback is no longer than
`minqueue`, and no queue already seen was shorter than that at the start. -/
structure ScanBound (scan : Scan Socket count) : Prop where
  socket : scan.socket = socket
  first : scan.pos = none → scan.i = 0
  fallback : ∀ p, scan.pos = some p → current p ≤ scan.minqueue
  seen : ∀ p, scan.pos = some p → ∀ k : Fin count, k < scan.i → scan.minqueue ≤ initial k

/-- What the call knows at each of its places. -/
def PlacingBound : Placing Socket count → Prop
  | .idle => False
  | .scanning scan => ScanBound initial current socket scan
  | .pushing chosen target => chosen = socket ∧ ∀ j, current target ≤ initial j
  | .sending _ => False

variable {initial current socket}

theorem scanBound_start : ScanBound initial current socket { socket } where
  socket := rfl
  first _ := rfl
  fallback _ found := nomatch found
  seen _ found := nomatch found

/-- One round of the loop, which samples a queue no longer than it was. -/
theorem round_bound {scan : Scan Socket count} (shrunk : ∀ j, current j ≤ initial j)
    (known : ScanBound initial current socket scan) (more : scan.i < count) :
    PlacingBound initial current socket (scan.round ⟨scan.i, more⟩ (current ⟨scan.i, more⟩)) := by
  have sampled := shrunk ⟨scan.i, more⟩
  unfold Scan.round
  split
  · rename_i empty
    exact ⟨known.socket, fun j => by omega⟩
  · split
    · rename_i better
      refine ⟨known.socket, fun absent => absurd absent (Option.some_ne_none _), ?_, ?_⟩
      · intro p found
        cases found
        exact Nat.le_refl _
      · intro p _ k earlier
        rcases seen_cases more earlier with before | rfl
        · cases pos : scan.pos with
          | none =>
            have start := known.first pos
            omega
          | some q =>
            have shorter : current ⟨scan.i, more⟩ < scan.minqueue := by simpa [pos] using better
            exact Nat.le_trans (Nat.le_of_lt shorter) (known.seen q pos k before)
        · exact sampled
    · rename_i kept
      rw [not_or, Nat.not_lt] at kept
      refine ⟨known.socket, ?_, known.fallback, ?_⟩
      · intro absent
        exact absurd (Option.isNone_iff_eq_none.mpr absent) kept.1
      · intro p found k earlier
        rcases seen_cases more earlier with before | rfl
        · exact known.seen p found k before
        · exact Nat.le_trans kept.2 sampled

/-- At the end of the loop the fallback is the choice. -/
theorem finish_bound {scan : Scan Socket count} (positive : 0 < count)
    (known : ScanBound initial current socket scan) (finished : count ≤ scan.i) :
    PlacingBound initial current socket scan.finish := by
  unfold Scan.finish
  cases pos : scan.pos with
  | none =>
    have start := known.first pos
    omega
  | some p =>
    refine ⟨known.socket, fun j => ?_⟩
    have seen := known.seen p pos j (Nat.lt_of_lt_of_le j.isLt finished)
    exact Nat.le_trans (known.fallback p pos) seen

/-- Shorter queues keep every bound. -/
theorem PlacingBound.shrink {later : Fin count → Nat} {placing : Placing Socket count}
    (known : PlacingBound initial current socket placing) (shorter : ∀ j, later j ≤ current j) :
    PlacingBound initial later socket placing := by
  cases placing with
  | idle => exact known
  | scanning scan =>
    refine ⟨known.socket, known.first, fun p found => ?_, known.seen⟩
    exact Nat.le_trans (shorter p) (known.fallback p found)
  | pushing chosen target =>
    exact ⟨known.1, fun j => Nat.le_trans (shorter target) (known.2 j)⟩
  | sending target => exact known

end Draining

/-- What every step of a call keeps, when `initial` are the sizes at its start. -/
structure Bounded (initial : Fin count → Nat) (socket : Socket) (pool : ThreadPool Socket count) :
    Prop where
  shrunk : ∀ j, pool.size j ≤ initial j
  placing : PlacingBound initial pool.size socket pool.placing

theorem bounded_step {initial : Fin count → Nat} {socket : Socket}
    {pool next : ThreadPool Socket count} {event : CallEvent count} (positive : 0 < count)
    (bounded : Bounded initial socket pool) (taken : CallStep pool event next) :
    Bounded initial socket next := by
  obtain ⟨shrunk, placing⟩ := bounded
  cases taken with
  | queueSize taken =>
    cases taken with
    | queueSize scanning more =>
      rw [scanning] at placing
      exact ⟨shrunk, round_bound shrunk placing more⟩
  | loopEnd taken =>
    cases taken with
    | loopEnd scanning finished =>
      rw [scanning] at placing
      exact ⟨shrunk, finish_bound positive placing finished⟩
  | dequeue i =>
    have shorter (j : Fin count) := size_dequeue_le pool i j
    exact ⟨fun j => Nat.le_trans (shorter j) (shrunk j), placing.shrink shorter⟩

section Resting

variable (size : Fin count → Nat)

/-- The lowest-indexed worker of those with the shortest queues. -/
structure LowestMinimal (target : Fin count) : Prop where
  minimal : ∀ j, size target ≤ size j
  lowest : ∀ j < target, size target < size j

/-- What the loop knows while the queues rest: the fallback is the first shortest
queue of those already seen. -/
structure ScanExact (scan : Scan Socket count) : Prop where
  first : scan.pos = none → scan.i = 0
  positive : ∀ k : Fin count, k < scan.i → 0 < size k
  fallback : ∀ p, scan.pos = some p → size p = scan.minqueue
  minimal : ∀ p, scan.pos = some p → ∀ k : Fin count, k < scan.i → size p ≤ size k
  lowest : ∀ p, scan.pos = some p → ∀ k < p, size p < size k
  earlier : ∀ p, scan.pos = some p → p < scan.i

def PlacingExact : Placing Socket count → Prop
  | .scanning scan => ScanExact size scan
  | .pushing _ target => LowestMinimal size target
  | _ => True

variable {size}

theorem round_exact {scan : Scan Socket count} (known : ScanExact size scan)
    (more : scan.i < count) :
    PlacingExact size (scan.round ⟨scan.i, more⟩ (size ⟨scan.i, more⟩)) := by
  unfold Scan.round
  split
  · rename_i empty
    refine ⟨fun j => by omega, fun j before => ?_⟩
    have positive := known.positive j before
    omega
  · rename_i filled
    have positive (k : Fin count) (earlier : (k : Nat) < scan.i + 1) : 0 < size k := by
      rcases seen_cases more earlier with before | rfl
      · exact known.positive k before
      · omega
    split
    · rename_i better
      have shorter (k : Fin count) (before : (k : Nat) < scan.i) : size ⟨scan.i, more⟩ < size k := by
        cases pos : scan.pos with
        | none =>
          have start := known.first pos
          omega
        | some q =>
          have lower := known.minimal q pos k before
          have same := known.fallback q pos
          have better : size ⟨scan.i, more⟩ < scan.minqueue := by simpa [pos] using better
          omega
      refine ⟨fun absent => absurd absent (Option.some_ne_none _), positive, ?_, ?_, ?_, ?_⟩
      · intro p found
        cases found
        rfl
      · intro p found k earlier
        cases found
        rcases seen_cases more earlier with before | rfl
        · exact Nat.le_of_lt (shorter k before)
        · exact Nat.le_refl _
      · intro p found k before
        cases found
        exact shorter k before
      · intro p found
        cases found
        exact Nat.lt_succ_self _
    · rename_i kept
      rw [not_or, Nat.not_lt] at kept
      refine ⟨?_, positive, known.fallback, ?_, known.lowest, ?_⟩
      · intro absent
        exact absurd (Option.isNone_iff_eq_none.mpr absent) kept.1
      · intro p found k earlier
        rcases seen_cases more earlier with before | rfl
        · exact known.minimal p found k before
        · rw [known.fallback p found]
          exact kept.2
      · intro p found
        exact Nat.lt_succ_of_lt (known.earlier p found)

theorem finish_exact {scan : Scan Socket count} (known : ScanExact size scan)
    (finished : count ≤ scan.i) : PlacingExact size scan.finish := by
  unfold Scan.finish
  cases pos : scan.pos with
  | none => trivial
  | some p =>
    refine ⟨fun j => ?_, known.lowest p pos⟩
    exact known.minimal p pos j (Nat.lt_of_lt_of_le j.isLt finished)

theorem scanExact_start (socket : Socket) : ScanExact size { socket } where
  first _ := rfl
  positive _ before := by simp at before
  fallback _ found := nomatch found
  minimal _ found := nomatch found
  lowest _ found := nomatch found
  earlier _ found := nomatch found

end Resting

/-- The pool at rest between two dequeues: its call knows the queues exactly. -/
def Exact (pool : ThreadPool Socket count) : Prop := PlacingExact pool.size pool.placing

theorem size_of_same_queue (pool : ThreadPool Socket count) {i : Fin count} {worker : Worker Socket}
    (same : worker.mQueue = (pool.mWorkers i).mQueue) :
    (pool.setWorker i worker).size = pool.size :=
  setWorker_same pool Worker.queueSize (congrArg List.length same)

/-- Every step but a dequeue keeps what the call knows. -/
theorem exact_step {pool next : ThreadPool Socket count} {event : PoolEvent Socket count}
    (known : Exact pool) (taken : PoolStep pool event next)
    (kept : ∀ i, event ≠ .worker i .perform) : Exact next := by
  unfold Exact at known ⊢
  cases taken with
  | enqueue => exact scanExact_start _
  | queueSize scanning more =>
    rw [scanning] at known
    exact round_exact known more
  | loopEnd scanning finished =>
    rw [scanning] at known
    exact finish_exact known finished
  | push => trivial
  | send => trivial
  | clear taken =>
    cases taken with
    | clear =>
      rw [size_of_same_queue pool (by rfl)]
      exact known
  | perform => exact absurd rfl (kept _)

/-- Any two queue lengths differ by at most one. -/
def Even (pool : ThreadPool Socket count) : Prop := ∀ i j, pool.size i ≤ pool.size j + 1

theorem even_step {pool next : ThreadPool Socket count} {event : PoolEvent Socket count}
    (known : Exact pool) (even : Even pool) (taken : PoolStep pool event next)
    (kept : ∀ i, event ≠ .worker i .perform) : Even next := by
  cases taken with
  | enqueue => exact even
  | queueSize => exact even
  | loopEnd => exact even
  | push pushing taken =>
    cases taken with
    | push =>
      rename_i socket target
      unfold Exact at known
      rw [pushing] at known
      intro i j
      change (pool.setWorker _ _).size i ≤ (pool.setWorker _ _).size j + 1
      have lower := known.minimal j
      have upper := even i j
      have close := even i target
      rw [size_push, size_push]
      split <;> split <;> omega
  | send sending taken =>
    cases taken with
    | send =>
      intro i j
      change (pool.setWorker _ _).size i ≤ (pool.setWorker _ _).size j + 1
      rw [size_of_same_queue pool (by rfl)]
      exact even i j
  | clear taken =>
    cases taken with
    | clear =>
      unfold Even
      rw [size_of_same_queue pool (by rfl)]
      exact even
  | perform => exact absurd rfl (kept _)

/-- The steps of a call of its own are steps of the pool. -/
theorem callStep_exact {pool next : ThreadPool Socket count} {event : CallEvent count}
    (known : Exact pool) (taken : CallStep pool event next) (kept : ∀ i, event ≠ .dequeue i) :
    Exact next := by
  cases taken with
  | queueSize taken => exact exact_step known taken (fun _ same => nomatch same)
  | loopEnd taken => exact exact_step known taken (fun _ same => nomatch same)
  | dequeue i => exact absurd rfl (kept i)

/-- A call of `enqueue` chooses a worker whose queue, just before the push, is no
longer than any queue was when the scan began. Without a dequeue it is the first
worker with a shortest queue, and so queues that start empty and are never drained
stay within one of each other. -/
theorem enqueue_balances {Socket : Type u} {count : Nat} (positive : 0 < count) :
    (∀ (start pool : ThreadPool Socket count) (socket : Socket)
      (history : List (ThreadPool Socket count × CallEvent count)),
      start.placing = .scanning { socket } → Run CallStep start history pool →
      (∃ scan, pool.placing = .scanning scan) ∨
      ∃ target, pool.placing = .pushing socket target ∧
        (∀ j, (pool.mWorkers target).queueSize ≤ (start.mWorkers j).queueSize) ∧
        ((∀ taken ∈ history, ∀ i, taken.2 ≠ .dequeue i) →
          (∀ j, (pool.mWorkers target).queueSize ≤ (pool.mWorkers j).queueSize) ∧
          ∀ j < target, (pool.mWorkers target).queueSize < (pool.mWorkers j).queueSize)) ∧
    ∀ (start pool : ThreadPool Socket count)
      (history : List (ThreadPool Socket count × PoolEvent Socket count)),
      start.placing = .idle → (∀ i, (start.mWorkers i).mQueue = []) →
      Run PoolStep start history pool → (∀ taken ∈ history, ∀ i, taken.2 ≠ .worker i .perform) →
      ∀ i j, (pool.mWorkers i).queueSize ≤ (pool.mWorkers j).queueSize + 1 := by
  constructor
  · intro start pool socket history begins run
    have initial : Bounded start.size socket start := by
      refine ⟨fun _ => Nat.le_refl _, ?_⟩
      rw [begins]
      exact scanBound_start
    have bounded := run.invariant (fun _ _ _ bounded taken => bounded_step positive bounded taken) initial
    have placing := bounded.placing
    cases reached : pool.placing with
    | idle =>
      rw [reached] at placing
      exact placing.elim
    | sending target =>
      rw [reached] at placing
      exact placing.elim
    | scanning scan => exact .inl ⟨scan, rfl⟩
    | pushing chosen target =>
      rw [reached] at placing
      obtain ⟨rfl, bound⟩ := placing
      refine .inr ⟨target, rfl, bound, fun resting => ?_⟩
      have known : Exact start := by
        unfold Exact
        rw [begins]
        exact scanExact_start chosen
      have keeps : ∀ (pool : ThreadPool Socket count) (event : CallEvent count) next,
          Exact pool → (∀ i, event ≠ .dequeue i) → CallStep pool event next → Exact next :=
        fun _ _ _ known kept taken => callStep_exact known taken kept
      have exact := run.invariant_where keeps known resting
      unfold Exact at exact
      rw [reached] at exact
      exact ⟨exact.minimal, exact.lowest⟩
  · intro start pool history idle empty run resting
    have known : Exact start := by
      unfold Exact
      rw [idle]
      trivial
    have even : Even start := by
      intro i j
      simp [ThreadPool.size, Worker.queueSize, empty]
    have keeps : ∀ (pool : ThreadPool Socket count) (event : PoolEvent Socket count) next,
        Exact pool ∧ Even pool → (∀ i, event ≠ .worker i .perform) → PoolStep pool event next →
        Exact next ∧ Even next :=
      fun _ _ _ both kept taken => ⟨exact_step both.1 taken kept, even_step both.1 both.2 taken kept⟩
    exact (run.invariant_where keeps ⟨known, even⟩ resting).2

/-- Two workers with two sockets each, one of them served during the scan; and a
first socket placed in an empty pool. -/
theorem enqueue_balances_draining :
    (∃ start pool : ThreadPool Nat 2, start.placing = .scanning { socket := 9 } ∧
      pool.placing = .pushing 9 1 ∧
      (∀ j, (pool.mWorkers 1).queueSize ≤ (start.mWorkers j).queueSize) ∧
      ∀ i j, (start.mWorkers i).queueSize ≤ (start.mWorkers j).queueSize) ∧
    ∃ pool : ThreadPool Nat 2, (pool.mWorkers 0).mQueue = [7] ∧
      ∀ i j, (pool.mWorkers i).queueSize ≤ (pool.mWorkers j).queueSize + 1 := by
  have balances := @enqueue_balances Nat 2 (Nat.succ_pos 1)
  constructor
  · let start : ThreadPool Nat 2 :=
      { mWorkers := fun i => { mQueue := [i, i] }, placing := .scanning { socket := 9 } }
    have sampled := Run.start.next (.queueSize (.queueSize rfl (by decide)) : CallStep start _ _)
    have served := sampled.next (.dequeue 1)
    have seen := served.next (.queueSize (.queueSize rfl (by decide)))
    have ended := seen.next (.loopEnd (.loopEnd rfl (by decide)))
    rcases balances.1 start _ 9 _ rfl ended with ⟨scan, scanning⟩ | ⟨target, pushing, bound, -⟩
    · cases scanning
    · cases pushing
      exact ⟨start, _, rfl, rfl, bound, fun i j => Nat.le_refl _⟩
  · have scanned := (Run.start.next (.enqueue rfl (List.not_mem_nil : 7 ∉ _) :
      PoolStep (.initial Nat 2) _ _)).next (.queueSize rfl (Nat.succ_pos 1))
    have pushed := scanned.next (.push rfl .push)
    exact ⟨_, rfl, balances.2 _ _ _ rfl (fun _ => rfl) pushed (by simp)⟩

end MailruHttp.Sys
