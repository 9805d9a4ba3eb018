import Mathlib.Data.List.Basic
import MailruHttp.Library.CriticalSection

/-! The log of `sys/log.cpp`, written by any number of threads. Its file has no
buffer, so that one `vfprintf` comes to it in several pieces. -/

namespace MailruHttp.Sys

open Library

universe u

variable {Thread : Type u}

/-- The file, and the messages written to it by now with their writers. -/
structure LogFile (Thread : Type u) where
  text : List UInt8 := []
  messages : List (Thread × List UInt8) := []

/-- A thread outside of the lock, in a call of `Log::write` or in none. -/
inductive Writing where
  | idle
  | write (pieces : List (List UInt8))

/-- What `Log::write` does under the lock. `vfprintf` has formatted the message into
these pieces; with the last one it is written, and `fflush` finds nothing to do. -/
def writeSection (thread : Thread) (message : List UInt8) :
    List (List UInt8) → Section (LogFile Thread) Writing
  | [] => .write (fun file => { file with messages := file.messages ++ [(thread, message)] })
      (.done .idle)
  | piece :: pieces => .write (fun file => { file with text := file.text ++ piece })
      (writeSection thread message pieces)

theorem finish_write (thread : Thread) (message : List UInt8) (pieces : List (List UInt8))
    (file : LogFile Thread) :
    (writeSection thread message pieces).finish file =
      (⟨file.text ++ pieces.flatten, file.messages ++ [(thread, message)]⟩, .idle) := by
  induction pieces generalizing file with
  | nil => simp [writeSection, Section.finish]
  | cons piece pieces ih =>
    rw [writeSection, Section.finish, ih]
    simp

/-- The messages in the file, one after the other. -/
def LogFile.row (messages : List (Thread × List UInt8)) : List UInt8 :=
  (messages.map (·.2)).flatten

/-- A thread inside has written a part of its message behind the messages before it and
has the other pieces left, or it has written all of it. -/
inductive Midway (thread : Thread) : LogFile Thread → Section (LogFile Thread) Writing → Prop where
  | writing {file message pieces} (part : List UInt8) (whole : message = part ++ pieces.flatten)
      (text : file.text = LogFile.row file.messages ++ part) :
      Midway thread file (writeSection thread message pieces)
  | written {file before message} (last : file.messages = before ++ [(thread, message)])
      (text : file.text = LogFile.row file.messages) : Midway thread file (.done .idle)

theorem midway_write {thread : Thread} {file : LogFile Thread}
    {update : LogFile Thread → LogFile Thread} {next : Section (LogFile Thread) Writing}
    (midway : Midway thread file (.write update next)) : Midway thread (update file) next := by
  generalize same : Section.write update next = rest at midway
  cases midway with
  | @writing message pieces part whole text =>
    cases pieces with
    | nil =>
      cases same
      refine .written rfl ?_
      simpa [LogFile.row, whole] using text
    | cons piece pieces =>
      cases same
      refine .writing (part ++ piece) (by simpa using whole) ?_
      simp [text]
  | written => cases same

/-- The owner's message is the last of the row it leaves, and the file has a part of it. -/
theorem Midway.part {thread : Thread} {file : LogFile Thread}
    {rest : Section (LogFile Thread) Writing} (midway : Midway thread file rest) :
    ∃ before message part, (rest.finish file).1.messages = before ++ [(thread, message)] ∧
      part <+: message ∧ file.text = LogFile.row before ++ part := by
  cases midway with
  | @writing message pieces part whole text =>
    rw [finish_write]
    exact ⟨_, _, part, rfl, ⟨_, whole.symm⟩, text⟩
  | @written before message last text =>
    refine ⟨before, message, message, last, List.prefix_rfl, ?_⟩
    rw [text, last]
    simp [LogFile.row]

section

variable [DecidableEq Thread]

/-- The steps outside: a call of `Log::write`, whose message is kept, and its return
where no file is open. -/
inductive LogApart (mFile : Bool) : Thread → (Thread → List (List UInt8)) → Writing → Unit →
    (Thread → List (List UInt8)) → Writing → Prop where
  | call {thread calls} (pieces : List (List UInt8)) :
      LogApart mFile thread calls .idle ()
        (Function.update calls thread (calls thread ++ [pieces.flatten])) (.write pieces)
  | skip {thread calls pieces} (closed : mFile = false) :
      LogApart mFile thread calls (.write pieces) () calls .idle

/-- The code of `Log::write`; `mFile` is whether the file is open. -/
def logProgram (Thread : Type u) [DecidableEq Thread] (mFile : Bool) :
    Program Thread Writing (LogFile Thread) (Thread → List (List UInt8)) Unit where
  enters
    | thread, .write pieces => if mFile then some (writeSection thread pieces.flatten pieces) else none
    | _, .idle => none
  apart := LogApart mFile

/-- Before the first call. -/
def emptyLog (Thread : Type u) :
    Atomic Thread Writing (LogFile Thread) (Thread → List (List UInt8)) where
  shared := {}
  free _ := []
  threads _ := .idle

/-- The message that a thread is about to write. -/
def Writing.pending : Writing → List (List UInt8)
  | .idle => []
  | .write pieces => [pieces.flatten]

/-- The messages of one thread, in their order in the file. -/
def LogFile.by (file : LogFile Thread) (thread : Thread) : List (List UInt8) :=
  (file.messages.filter (·.1 = thread)).map (·.2)

/-- The file consists of whole messages, and each thread's are those of its calls. -/
structure Logged (state : Atomic Thread Writing (LogFile Thread) (Thread → List (List UInt8))) :
    Prop where
  whole : state.shared.text = LogFile.row state.shared.messages
  calls : ∀ thread, state.shared.by thread ++ (state.threads thread).pending = state.free thread

theorem logged_step {state after : Atomic Thread Writing (LogFile Thread) (Thread → List (List UInt8))}
    {label : AtomicEvent Thread Unit} (logged : Logged state)
    (step : AtomicStep (logProgram Thread true) state label after) : Logged after := by
  cases step with
  | whole enters =>
    rename_i thread body
    cases before : state.threads thread with
    | idle => simp [logProgram, before] at enters
    | write pieces =>
      rw [before] at enters
      cases enters
      rw [finish_write]
      refine ⟨?_, ?_⟩
      · simp [LogFile.row, logged.whole]
      · intro other
        have calls := logged.calls other
        by_cases same : other = thread
        · subst same
          rw [before] at calls
          simpa [LogFile.by, Writing.pending] using calls
        · simpa [LogFile.by, Writing.pending, same, Ne.symm same] using calls
  | apart taken =>
    rename_i thread label free place
    generalize before : state.threads thread = spot at taken
    cases taken with
    | call pieces =>
      refine ⟨logged.whole, ?_⟩
      intro other
      have calls := logged.calls other
      by_cases same : other = thread
      · subst same
        rw [before] at calls
        simpa [Writing.pending] using calls
      · simpa [same] using calls
    | skip closed => contradiction

variable {state : Locked Thread Writing (LogFile Thread) (Thread → List (List UInt8))}

theorem logged_reachable
    (reached : Reachable (LockedStep (logProgram Thread true)) (emptyLog Thread).locked state) :
    Logged state.atomic := by
  obtain ⟨-, atomic⟩ := locked_reachable reached
  refine atomic.invariant (fun _ _ _ logged step => logged_step logged step) ⟨rfl, ?_⟩
  exact fun _ => rfl

theorem midway_reachable
    (reached : Reachable (LockedStep (logProgram Thread true)) (emptyLog Thread).locked state) :
    ∀ thread rest, state.threads thread = .inside rest → Midway thread state.shared rest := by
  obtain ⟨history, run⟩ := reached
  induction run with
  | start =>
    intro thread rest inside
    simp [emptyLog, Atomic.locked] at inside
  | @next history state event after earlier taken ih =>
    have before : Reachable (LockedStep (logProgram Thread true)) (emptyLog Thread).locked state :=
      ⟨history, earlier⟩
    obtain ⟨exclusive, -⟩ := locked_reachable before
    -- the lock is taken on a file of whole messages
    have entered (thread : Thread) (place : Writing) (body : Section (LogFile Thread) Writing)
        (unowned : state.owner = none)
        (enters : (logProgram Thread true).enters thread place = some body) :
        Midway thread state.shared body := by
      have whole := (logged_reachable before).whole
      rw [(Locked.atomic_of_free exclusive unowned).1] at whole
      cases place with
      | idle => simp [logProgram] at enters
      | write pieces =>
        cases enters
        exact .writing [] rfl (by rw [whole, List.append_nil])
    have read (thread : Thread) (file : LogFile Thread)
        (next : LogFile Thread → Section (LogFile Thread) Writing)
        (midway : Midway thread file (.read next)) : Midway thread file (next file) := by
      generalize same : Section.read next = rest at midway
      cases midway with
      | @writing _ pieces => cases pieces <;> cases same
      | written => cases same
    exact owned_step Midway entered read (fun _ _ _ _ midway => midway_write midway) exclusive ih taken

/-- With the lock, the messages of different threads are never mixed: the file is a
row of whole messages, and while a thread has the lock a part of its own message
after those. Each call's message is there once, in the order of the calls of its thread. -/
theorem log_whole
    (reached : Reachable (LockedStep (logProgram Thread true)) (emptyLog Thread).locked state) :
    ∃ messages : List (Thread × List UInt8),
      (state.owner = none → state.shared.text = (messages.map (·.2)).flatten) ∧
      (∀ thread, state.owner = some thread → ∃ before message part,
        messages = before ++ [(thread, message)] ∧ part <+: message ∧
          state.shared.text = (before.map (·.2)).flatten ++ part) ∧
      ∀ thread, (messages.filter (·.1 = thread)).map (·.2) <+: state.free thread ∧
        (state.threads thread = .outside .idle →
          (messages.filter (·.1 = thread)).map (·.2) = state.free thread) := by
  obtain ⟨exclusive, -⟩ := locked_reachable reached
  have logged := logged_reachable reached
  refine ⟨state.atomic.shared.messages, ?_, ?_, ?_⟩
  · intro unowned
    rw [← (Locked.atomic_of_free exclusive unowned).1]
    exact logged.whole
  · intro thread owned
    obtain ⟨rest, inside⟩ := owner_inside reached owned
    have part := (midway_reachable reached thread rest inside).part
    simpa [Locked.atomic, owned, inside, Place.settle, LogFile.row] using part
  · intro thread
    have calls := logged.calls thread
    refine ⟨⟨_, calls⟩, ?_⟩
    intro idle
    have outside : state.atomic.threads thread = .idle := by
      simp [Locked.atomic, idle, Place.settle]
    rw [outside, Writing.pending, List.append_nil] at calls
    exact calls

/-- One thread is between two pieces of its message while another one calls. -/
theorem log_whole_midway :
    ∃ state : Locked Bool Writing (LogFile Bool) (Bool → List (List UInt8)),
      state.owner = some false ∧ state.shared.text = [1, 2] ∧
        ∃ (before : List (Bool × List UInt8)) (message part : List UInt8), part <+: message ∧
          state.shared.text = (before.map (·.2)).flatten ++ part := by
  have start : Reachable (LockedStep (logProgram Bool true)) (emptyLog Bool).locked
      (emptyLog Bool).locked := .start
  have called := start.next (.apart rfl (.call [[1, 2], [3]] : LogApart true false _ _ _ _ _))
  have locked := called.next
    (.lock rfl rfl rfl : LockedStep (logProgram Bool true) _ (.lock false) _)
  have written := locked.next
    (.write rfl : LockedStep (logProgram Bool true) _ (.access false) _)
  have other := written.next (.apart rfl (.call [[4]] : LogApart true true _ _ _ _ _))
  obtain ⟨messages, -, owned, -⟩ := log_whole other
  obtain ⟨before, message, part, -, begins, text⟩ := owned false rfl
  exact ⟨_, rfl, rfl, before, message, part, begins, text⟩

end

end MailruHttp.Sys
