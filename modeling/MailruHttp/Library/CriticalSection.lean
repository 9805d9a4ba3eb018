import Mathlib.Logic.Function.Basic
import MailruHttp.Library.Run

/-! Threads that access shared state under one lock, one access at a time, and
the same threads where a whole section is one step. -/

namespace MailruHttp.Library

universe u v w x y

/-- What a thread does under the lock: single reads and writes of the shared state,
each with what comes after it, and the result of the section. -/
inductive Section (Shared : Type u) (Result : Type v) where
  | done (result : Result)
  | read (next : Shared → Section Shared Result)
  | write (update : Shared → Shared) (next : Section Shared Result)

/-- A section run to its end by itself. -/
def Section.finish {Shared : Type u} {Result : Type v} :
    Section Shared Result → Shared → Shared × Result
  | .done result, shared => (shared, result)
  | .read next, shared => (next shared).finish shared
  | .write update next, shared => next.finish (update shared)

/-- The threads' code: the section that a thread enters at a place outside of the
lock, with the place behind it as its result, and the steps that are made outside. -/
structure Program (Thread : Type u) (Outside : Type v) (Shared : Type w) (Free : Type x)
    (Label : Type y) where
  enters : Thread → Outside → Option (Section Shared Outside)
  apart : Thread → Free → Outside → Label → Free → Outside → Prop

inductive Place (Outside : Type v) (Shared : Type w) where
  | outside (place : Outside)
  | inside (rest : Section Shared Outside)

variable {Thread : Type u} {Outside : Type v} {Shared : Type w} {Free : Type x} {Label : Type y}

/-- The lock, the state it protects, the state it does not, and the threads. -/
structure Locked (Thread : Type u) (Outside : Type v) (Shared : Type w) (Free : Type x) where
  owner : Option Thread
  shared : Shared
  free : Free
  threads : Thread → Place Outside Shared

inductive LockedEvent (Thread : Type u) (Label : Type y) where
  | lock (thread : Thread)
  | access (thread : Thread)
  | unlock (thread : Thread)
  | apart (thread : Thread) (label : Label)

/-- One thread makes one access. Only taking the lock looks at its owner. -/
inductive LockedStep [DecidableEq Thread] (program : Program Thread Outside Shared Free Label) :
    Locked Thread Outside Shared Free → LockedEvent Thread Label →
      Locked Thread Outside Shared Free → Prop where
  | lock {state thread place body} (unowned : state.owner = none)
      (here : state.threads thread = .outside place)
      (enters : program.enters thread place = some body) :
      LockedStep program state (.lock thread) { state with
        owner := some thread
        threads := Function.update state.threads thread (.inside body) }
  | read {state thread next} (here : state.threads thread = .inside (.read next)) :
      LockedStep program state (.access thread) { state with
        threads := Function.update state.threads thread (.inside (next state.shared)) }
  | write {state thread update next} (here : state.threads thread = .inside (.write update next)) :
      LockedStep program state (.access thread) { state with
        shared := update state.shared
        threads := Function.update state.threads thread (.inside next) }
  | unlock {state thread place} (here : state.threads thread = .inside (.done place)) :
      LockedStep program state (.unlock thread) { state with
        owner := none
        threads := Function.update state.threads thread (.outside place) }
  | apart {state thread place label free after} (here : state.threads thread = .outside place)
      (taken : program.apart thread state.free place label free after) :
      LockedStep program state (.apart thread label) { state with
        free
        threads := Function.update state.threads thread (.outside after) }

/-- The same threads, all of them outside between two steps. -/
@[ext] structure Atomic (Thread : Type u) (Outside : Type v) (Shared : Type w) (Free : Type x) where
  shared : Shared
  free : Free
  threads : Thread → Outside

inductive AtomicEvent (Thread : Type u) (Label : Type y) where
  | whole (thread : Thread)
  | apart (thread : Thread) (label : Label)

inductive AtomicStep [DecidableEq Thread] (program : Program Thread Outside Shared Free Label) :
    Atomic Thread Outside Shared Free → AtomicEvent Thread Label →
      Atomic Thread Outside Shared Free → Prop where
  | whole {state thread body} (enters : program.enters thread (state.threads thread) = some body) :
      AtomicStep program state (.whole thread) { state with
        shared := (body.finish state.shared).1
        threads := Function.update state.threads thread (body.finish state.shared).2 }
  | apart {state thread label free after}
      (taken : program.apart thread state.free (state.threads thread) label free after) :
      AtomicStep program state (.apart thread label) { state with
        free
        threads := Function.update state.threads thread after }

/-- The shared state and the place of a thread once it has left the lock. -/
def Place.settle (shared : Shared) : Place Outside Shared → Shared × Outside
  | .outside place => (shared, place)
  | .inside rest => rest.finish shared

namespace Locked

/-- A section that has begun counts as a whole. -/
def atomic (state : Locked Thread Outside Shared Free) : Atomic Thread Outside Shared Free where
  shared := match state.owner with
    | none => state.shared
    | some thread => ((state.threads thread).settle state.shared).1
  free := state.free
  threads thread := ((state.threads thread).settle state.shared).2

/-- The owner of the lock is the only thread inside. -/
def Exclusive (state : Locked Thread Outside Shared Free) : Prop :=
  ∀ thread rest, state.threads thread = .inside rest → state.owner = some thread

/-- While the lock is free, nothing is half done. -/
theorem atomic_of_free {state : Locked Thread Outside Shared Free} (exclusive : state.Exclusive)
    (unowned : state.owner = none) :
    state.atomic.shared = state.shared ∧
      ∀ thread, state.threads thread = .outside (state.atomic.threads thread) := by
  refine ⟨by simp [atomic, unowned], ?_⟩
  intro thread
  cases place : state.threads thread with
  | outside => simp [atomic, place, Place.settle]
  | inside rest =>
    rw [exclusive thread rest place] at unowned
    contradiction

end Locked

section

variable [DecidableEq Thread] {program : Program Thread Outside Shared Free Label}
  {state after : Locked Thread Outside Shared Free} {event : LockedEvent Thread Label}

theorem exclusive_step (exclusive : state.Exclusive) (taken : LockedStep program state event after) :
    after.Exclusive := by
  -- a thread that stays as it was is still the owner, if it is inside
  have kept {thread other : Thread} {place : Place Outside Shared}
      {rest : Section Shared Outside} (different : other ≠ thread)
      (inside : Function.update state.threads thread place other = .inside rest) :
      state.owner = some other := by
    rw [Function.update_of_ne different] at inside
    exact exclusive other rest inside
  intro other rest inside
  cases taken with
  | lock unowned here enters =>
    rename_i thread _ _
    by_cases same : other = thread
    · rw [same]
    · have owner := kept same inside
      rw [unowned] at owner
      contradiction
  | read here =>
    rename_i thread _
    by_cases same : other = thread
    · rw [same]
      exact exclusive thread _ here
    · exact kept same inside
  | write here =>
    rename_i thread _ _
    by_cases same : other = thread
    · rw [same]
      exact exclusive thread _ here
    · exact kept same inside
  | unlock here =>
    rename_i thread place
    by_cases same : other = thread
    · simp [same] at inside
    · have owner := kept same inside
      rw [exclusive thread _ here] at owner
      exact absurd (Option.some.inj owner).symm same
  | apart here taken =>
    rename_i thread _ _ _ _
    by_cases same : other = thread
    · simp [same] at inside
    · exact kept same inside

/-- What the owner does inside is not seen before it is outside again. -/
theorem atomic_inside {thread : Thread} {place : Place Outside Shared} {shared : Shared}
    {owner : Option Thread} (exclusive : state.Exclusive) (owned : state.owner = some thread)
    (same : place.settle shared = (state.threads thread).settle state.shared)
    (ended : owner = some thread ∨ owner = none ∧ (place.settle shared).1 = shared) :
    ({ state with owner, shared, threads := Function.update state.threads thread place } :
      Locked Thread Outside Shared Free).atomic = state.atomic := by
  ext other
  · rcases ended with rfl | ⟨rfl, ended⟩
    · simp [Locked.atomic, owned, same]
    · rw [same] at ended
      simp [Locked.atomic, owned, ended]
  · rfl
  · by_cases equal : other = thread
    · subst equal
      simp [Locked.atomic, same]
    · cases place : state.threads other with
      | outside => simp [Locked.atomic, equal, place, Place.settle]
      | inside rest =>
        rw [exclusive other rest place] at owned
        exact absurd (Option.some.inj owned) equal

/-- What a thread does outside is seen at once. -/
theorem atomic_threads (thread : Thread) (place : Place Outside Shared) (owner : Option Thread)
    (free : Free) :
    (Locked.atomic ⟨owner, state.shared, free, Function.update state.threads thread place⟩).threads =
      Function.update state.atomic.threads thread (place.settle state.shared).2 := by
  funext other
  by_cases equal : other = thread
  · subst equal
    simp [Locked.atomic]
  · simp [Locked.atomic, equal]

/-- Every step is a step of the atomic program, or none of its. A section takes
effect where its lock is taken. -/
theorem atomic_step (exclusive : state.Exclusive) (taken : LockedStep program state event after) :
    after.atomic = state.atomic ∨ ∃ label, AtomicStep program state.atomic label after.atomic := by
  cases taken with
  | lock unowned here enters =>
    rename_i thread place body
    have shared : state.atomic.shared = state.shared := by simp [Locked.atomic, unowned]
    have position : state.atomic.threads thread = place := by
      simp [Locked.atomic, here, Place.settle]
    have step : AtomicStep program state.atomic (.whole thread) _ :=
      .whole (by rw [position]; exact enters)
    refine .inr ⟨.whole thread, ?_⟩
    convert step using 1
    apply Atomic.ext
    · rw [shared]
      simp [Locked.atomic, Place.settle]
    · rfl
    · rw [shared]
      exact atomic_threads thread (.inside body) (some thread) state.free
  | read here =>
    exact .inl (atomic_inside exclusive (exclusive _ _ here) (by rw [here]; rfl)
      (.inl (exclusive _ _ here)))
  | write here =>
    exact .inl (atomic_inside exclusive (exclusive _ _ here) (by rw [here]; rfl)
      (.inl (exclusive _ _ here)))
  | unlock here =>
    exact .inl (atomic_inside exclusive (exclusive _ _ here) (by rw [here]; rfl)
      (.inr ⟨rfl, rfl⟩))
  | apart here taken =>
    rename_i thread place label free next
    have position : state.atomic.threads thread = place := by
      simp [Locked.atomic, here, Place.settle]
    have step : AtomicStep program state.atomic (.apart thread label) _ :=
      .apart (by rw [position]; exact taken)
    refine .inr ⟨.apart thread label, ?_⟩
    convert step using 1
    apply Atomic.ext
    · cases owner : state.owner with
      | none => simp [Locked.atomic, owner]
      | some other =>
        by_cases equal : other = thread
        · subst equal
          simp [Locked.atomic, owner, here, Place.settle]
        · simp [Locked.atomic, owner, equal]
    · rfl
    · exact atomic_threads thread (.outside next) state.owner free

/-- All threads outside, the lock free. -/
def Atomic.locked (state : Atomic Thread Outside Shared Free) :
    Locked Thread Outside Shared Free where
  owner := none
  shared := state.shared
  free := state.free
  threads thread := .outside (state.threads thread)

/-- Whatever the order of the accesses, the lock keeps the threads apart, and the
atomic program gets to the same state. -/
theorem locked_reachable {start : Atomic Thread Outside Shared Free}
    (reached : Reachable (LockedStep program) start.locked state) :
    state.Exclusive ∧ Reachable (AtomicStep program) start state.atomic := by
  obtain ⟨history, run⟩ := reached
  induction run with
  | start =>
    refine ⟨fun _ _ inside => ?_, .start⟩
    simp [Atomic.locked] at inside
  | next earlier taken ih =>
    obtain ⟨exclusive, reached⟩ := ih
    refine ⟨exclusive_step exclusive taken, ?_⟩
    rcases atomic_step exclusive taken with same | ⟨label, step⟩
    · rw [same]
      exact reached
    · exact reached.next step

/-- While a thread owns the lock, it is inside. -/
theorem owner_inside {start : Atomic Thread Outside Shared Free}
    (reached : Reachable (LockedStep program) start.locked state) {thread : Thread}
    (owned : state.owner = some thread) : ∃ rest, state.threads thread = .inside rest := by
  obtain ⟨history, run⟩ := reached
  induction run with
  | start => cases owned
  | next earlier taken ih =>
    obtain ⟨exclusive, -⟩ := locked_reachable ⟨_, earlier⟩
    cases taken with
    | lock unowned here enters =>
      cases owned
      exact ⟨_, Function.update_self ..⟩
    | read here =>
      cases (exclusive _ _ here).symm.trans owned
      exact ⟨_, Function.update_self ..⟩
    | write here =>
      cases (exclusive _ _ here).symm.trans owned
      exact ⟨_, Function.update_self ..⟩
    | unlock here => cases owned
    | apart here taken =>
      obtain ⟨rest, inside⟩ := ih owned
      refine ⟨rest, (Function.update_of_ne ?_ ..).trans inside⟩
      rintro rfl
      rw [here] at inside
      cases inside

/-- What holds of the shared state and of a section that is entered, and is kept by
each access, holds whenever a thread is inside, of what it has left to do. -/
theorem owned_step (kept : Thread → Shared → Section Shared Outside → Prop)
    (entered : ∀ thread place body, state.owner = none → program.enters thread place = some body →
      kept thread state.shared body)
    (read : ∀ thread shared next, kept thread shared (.read next) → kept thread shared (next shared))
    (write : ∀ thread shared update next, kept thread shared (.write update next) →
      kept thread (update shared) next)
    (exclusive : state.Exclusive)
    (holds : ∀ thread rest, state.threads thread = .inside rest → kept thread state.shared rest)
    (taken : LockedStep program state event after) :
    ∀ thread rest, after.threads thread = .inside rest → kept thread after.shared rest := by
  -- a thread inside that did not make the step still owns the lock
  have others {thread other : Thread} {place : Place Outside Shared} {shared : Shared}
      {rest : Section Shared Outside} (here : ∀ rest, place = .inside rest → kept thread shared rest)
      (still : state.owner = some other → other ≠ thread → shared = state.shared)
      (inside : Function.update state.threads thread place other = .inside rest) :
      kept other shared rest := by
    by_cases same : other = thread
    · subst same
      rw [Function.update_self] at inside
      exact here rest inside
    · rw [Function.update_of_ne same] at inside
      rw [still (exclusive other rest inside) same]
      exact holds other rest inside
  intro other rest inside
  cases taken with
  | lock unowned here enters =>
    refine others (fun rest same => ?_) (fun _ _ => rfl) inside
    cases same
    exact entered _ _ _ unowned enters
  | read here =>
    refine others (fun rest same => ?_) (fun _ _ => rfl) inside
    cases same
    exact read _ _ _ (holds _ _ here)
  | write here =>
    refine others (fun rest same => ?_) (fun owned different => ?_) inside
    · cases same
      exact write _ _ _ _ (holds _ _ here)
    · exact absurd (Option.some.inj ((exclusive _ _ here).symm.trans owned)).symm different
  | unlock here =>
    refine others (fun rest same => ?_) (fun _ _ => rfl) inside
    contradiction
  | apart here taken =>
    refine others (fun rest same => ?_) (fun _ _ => rfl) inside
    contradiction

end

end MailruHttp.Library
