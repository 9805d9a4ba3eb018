import MailruHttp.Server.Arrival
import MailruHttp.Sys.Composition

/-! One client's view of the whole server. Whatever the other clients and threads
do in between, it is the life of one handle, served by one worker. -/

namespace MailruHttp.Sys

open Library Cmd Server

universe u

variable {Socket : Type u} {count : Nat} [DecidableEq Socket]

/-- What an event is to a client: `perform` accepts the one at the front of the queue. -/
def WholeServer.seen (client : Socket) (whole : WholeServer Socket count) :
    WholeEvent Socket count → Option Event
  | .callback other event => if other = client then some event else none
  | .perform i => if (whole.pool.mWorkers i).mQueue.head? = some client then some .accept else none
  | _ => none

/-- The part of a history that is about one client. -/
def historyOf (client : Socket)
    (history : List (WholeServer Socket count × WholeEvent Socket count)) : List (Handle × Event) :=
  history.filterMap fun taken =>
    (taken.1.seen client taken.2).map fun event => (taken.1.handles client, event)

section Step

variable {opts : Options} {started : Nat → Bool} {whole next : WholeServer Socket count}
  {event : WholeEvent Socket count}

/-- A step is one of the client's handle, or leaves the handle alone. -/
theorem wholeStep_client (joined : Joined whole) (taken : WholeStep opts started whole event next)
    (client : Socket) :
    (whole.seen client event = none ∧ next.handles client = whole.handles client) ∨
      ∃ other, whole.seen client event = some other ∧
        HandleStep opts (whole.handles client) other (next.handles client) := by
  cases taken with
  | @callback event handle _ other alive libuv free taken =>
    by_cases same : other = client
    · subst same
      refine .inr ⟨event, if_pos rfl, ?_⟩
      simp only [Function.update_self]
      exact taken
    · exact .inl ⟨if_neg same, Function.update_of_ne (Ne.symm same) ..⟩
  | place => exact .inl ⟨rfl, rfl⟩
  | clear => exact .inl ⟨rfl, rfl⟩
  | @perform pool other rest _ i alive running taken front =>
    have head : (whole.pool.mWorkers i).mQueue.head? = some other := by rw [front]; rfl
    by_cases same : other = client
    · subst same
      refine .inr ⟨.accept, if_pos head, ?_⟩
      simp only [Function.update_self]
      exact .accept (joined.front front)
    · have missed : (whole.pool.mWorkers i).mQueue.head? ≠ some client := by simp [head, same]
      exact .inl ⟨if_neg missed, Function.update_of_ne (Ne.symm same) ..⟩

/-- A worker's client stays with the worker. -/
theorem loop_step (joined : Joined whole) (taken : WholeStep opts started whole event next)
    {client : Socket} {i : Fin count} (owned : whole.loop client = some i) :
    next.loop client = some i := by
  cases taken with
  | callback => exact owned
  | place => exact owned
  | clear => exact owned
  | perform alive running taken front =>
    change Function.update whole.loop _ _ client = some i
    rw [Function.update_apply]
    split
    · rename_i same
      rw [same, joined.unowned _ (.inr (joined.front front))] at owned
      cases owned
    · exact owned

/-- A read happens in the thread of a worker that accepted the client. -/
theorem read_thread (joined : Joined whole) {client : Socket} {call : ReadCall}
    (taken : WholeStep opts started whole (.callback client (.read call)) next) :
    ∃ i, whole.loop client = some i ∧ started i = true := by
  have reads {state : ClientState} (reading : whole.stage client = .reading state)
      (free : whole.Free started (whole.loop client)) :
      ∃ i, whole.loop client = some i ∧ started i = true := by
    cases loop : whole.loop client with
    | none => exact absurd loop (joined.owned client state reading)
    | some i =>
      rw [loop] at free
      exact ⟨i, rfl, free.1⟩
  cases taken with
  | callback alive libuv free taken =>
    cases taken with
    | read reading => exact reads reading free
    | last reading => exact reads reading free
    | crash reading => exact reads reading free

end Step

section Run

variable {opts : Options} {started : Nat → Bool} {whole : WholeServer Socket count}
  {history : List (WholeServer Socket count × WholeEvent Socket count)}

/-- What a client sees of a run is a run of its handle. -/
theorem client_run (run : Run (WholeStep opts started) (.initial Socket count) history whole)
    (client : Socket) :
    Run (HandleStep opts) {} (historyOf client history) (whole.handles client) :=
  run.project (fun whole => whole.handles client) (fun whole => whole.seen client)
    fun _ _ _ earlier taken => wholeStep_client (joined_reachable earlier) taken client

theorem read_threads (run : Run (WholeStep opts started) (.initial Socket count) history whole)
    {client : Socket} {before : WholeServer Socket count} {call : ReadCall}
    (member : (before, .callback client (.read call)) ∈ history) :
    ∃ i, before.loop client = some i ∧ whole.loop client = some i ∧ started i = true := by
  induction run with
  | start => exact absurd member List.not_mem_nil
  | next earlier taken ih =>
    have joined := joined_reachable ⟨_, earlier⟩
    rcases List.mem_append.mp member with past | last
    · obtain ⟨i, owned, still, running⟩ := ih past
      exact ⟨i, owned, loop_step joined taken still, running⟩
    · cases List.mem_singleton.mp last
      obtain ⟨i, owned, running⟩ := read_thread joined taken
      exact ⟨i, owned, loop_step joined taken owned, running⟩

end Run

theorem mem_history_of_readCalls {client : Socket} {call : ReadCall}
    {history : List (WholeServer Socket count × WholeEvent Socket count)}
    (member : call ∈ readCalls (historyOf client history)) :
    ∃ before, (before, .callback client (.read call)) ∈ history := by
  obtain ⟨entry, inside, same⟩ := List.mem_filterMap.mp member
  obtain ⟨⟨before, event⟩, past, found⟩ := List.mem_filterMap.mp inside
  obtain ⟨label, seen, rfl⟩ := Option.map_eq_some_iff.mp found
  refine ⟨before, ?_⟩
  cases event with
  | callback other event =>
    simp only [WholeServer.seen, Option.ite_none_right_eq_some, Option.some.injEq] at seen
    obtain ⟨rfl, rfl⟩ := seen
    cases event with
    | read other =>
      cases same
      exact past
    | _ => cases same
  | place => cases seen
  | clear => cases seen
  | perform i =>
    simp only [WholeServer.seen, Option.ite_none_right_eq_some, Option.some.injEq] at seen
    rw [← seen.2] at same
    cases same

theorem historyOf_snoc (client : Socket)
    (history : List (WholeServer Socket count × WholeEvent Socket count))
    (whole : WholeServer Socket count) (event : Event) :
    historyOf client (history ++ [(whole, .callback client event)]) =
      historyOf client history ++ [(whole.handles client, event)] := by
  simp [historyOf, WholeServer.seen]

/-- A client that asks the one worker of a pool for the index page and is closed. -/
theorem closed_run :
    ∃ history whole, Run (WholeStep {} fun _ => true) (.initial Nat 1) history whole ∧
      whole.stage 7 = .closed ∧
      readCalls (historyOf 7 history) = [indexCall 4096, .eof greeting 0] := by
  obtain ⟨history, whole, run, serving, reading, events⟩ := accepted_run {} 7
  have index : HandleStep {} (whole.handles 7) (.read (indexCall 4096)) _ := .read reading rfl
  obtain ⟨read, first, serving, same⟩ :=
    serving.next (joined_reachable ⟨_, run⟩) (by nofun) index (by nofun)
  have run := run.next first
  have joined := joined_reachable ⟨_, run⟩
  let state : ClientState := { request := bytes "GET /\r\n", responded := true }
  have reading : (read.handles 7).stage = .reading state := congrArg Handle.stage same
  have final : (onRead {} state (.eof greeting 0)).result = .ok none := rfl
  have last : HandleStep {} (read.handles 7) (.read (.eof greeting 0)) _ := .last reading final
  have closing := tracked_last {} (joined.tracked 7) reading final
  obtain ⟨ended, second, serving, same⟩ :=
    serving.next joined (by nofun) last (by rw [closing]; nofun)
  have run := run.next second
  rw [← same] at closing
  have deleted : HandleStep {} (ended.handles 7) .closed _ := .closed closing
  obtain ⟨closed, third, -, same⟩ := serving.next (joined_reachable ⟨_, run⟩) (by nofun) deleted
    (by rw [stage_after_closed]; nofun)
  refine ⟨_, _, run.next third, (congrArg Handle.stage same).trans (stage_after_closed ..), ?_⟩
  have none : readCalls (historyOf 7 history) = [] := by
    apply List.eq_nil_iff_forall_not_mem.mpr
    intro call member
    obtain ⟨before, inside⟩ := mem_history_of_readCalls member
    have event : .callback 7 (.read call) ∈ history.map Prod.snd := List.mem_map.mpr ⟨_, inside, rfl⟩
    rw [events] at event
    simp at event
  rw [historyOf_snoc, historyOf_snoc, historyOf_snoc, readCalls_snoc, readCalls_snoc, readCalls_snoc,
    none]
  rfl

theorem healthy_greeting (path : List UInt8) : Healthy greeting path := by
  have only {file : File} (opens : greeting.fopen path = some file) :
      File.ofBytes (bytes "hi") (by decide) = file := by
    simp only [greeting, Host.single, Option.ite_none_right_eq_some, Option.some.injEq] at opens
    exact opens.2
  refine ⟨fun file opens => ?_, fun file opens => ?_⟩
  · rw [← only opens]
    exact ⟨by decide, ⟨by decide, rfl⟩, ⟨by decide, rfl⟩, rfl⟩
  · rw [← only opens]
    decide

theorem healthy_index (directory : List UInt8) :
    HealthyLookup directory [indexCall 4096, .eof greeting 0] := by
  intro earlier call later uri split _ _
  have member : call ∈ [indexCall 4096, .eof greeting 0] := by
    rw [split]
    exact List.mem_append_right _ List.mem_cons_self
  have same : call.host = greeting := by
    rcases List.mem_cons.mp member with rfl | last
    · rfl
    · rw [List.mem_singleton.mp last]
      rfl
  rw [same]
  exact healthy_greeting _

/-- However its reads are interleaved with the other clients and with the pool, a
connection goes as it would on its own: what the server did with a client is its
`enqueue`, then what the same reads do to a fresh connection that nothing else
touches, and after the close callback the deletion of its handle; its stage is
the one in which those reads leave it. All of them ran in the thread of the one
worker that the client belongs to. -/
theorem connection_isolated {Socket : Type u} {count : Nat} [DecidableEq Socket] {opts : Options}
    {started : Nat → Bool} {whole : WholeServer Socket count}
    {history : List (WholeServer Socket count × WholeEvent Socket count)}
    (run : Run (WholeStep opts started) (.initial Socket count) history whole) (client : Socket) :
    Lived opts (whole.stage client) (readCalls (historyOf client history))
      (emitted opts (historyOf client history)) ∧
    ∀ before call, (before, .callback client (.read call)) ∈ history →
      ∃ i, before.loop client = some i ∧ whole.loop client = some i ∧ started i = true ∧
        client ∈ (whole.pool.mWorkers i).accepted := by
  refine ⟨lived_run (client_run run client), fun before call member => ?_⟩
  obtain ⟨i, owned, still, running⟩ := read_threads run member
  have accepted := ((joined_reachable ⟨_, run⟩).owner client i).mp still
  exact ⟨i, owned, still, running, accepted⟩

/-- A client that asks for the index page. -/
theorem connection_isolated_index :
    ∃ whole history, Run (WholeStep {} fun _ => true) (.initial Nat 1) history whole ∧
      readCalls (historyOf 7 history) = [indexCall 4096, .eof greeting 0] ∧
      Lived {} .closed (readCalls (historyOf 7 history)) (emitted {} (historyOf 7 history)) := by
  obtain ⟨history, whole, run, closed, reads⟩ := closed_run
  have lived := (connection_isolated run 7).1
  rw [closed] at lived
  exact ⟨whole, history, run, reads, lived⟩

/-- Over every run of the server, what belongs to a client is released in order and
at most once, its response with the one `uv_write`; and a client that is closed had
its state and its handle deleted and one answer written, or it was never accepted
and its handle is all there was. -/
theorem client_released_once {Socket : Type u} {count : Nat} [DecidableEq Socket] {opts : Options}
    {started : Nat → Bool} {whole : WholeServer Socket count}
    {history : List (WholeServer Socket count × WholeEvent Socket count)}
    (run : Run (WholeStep opts started) (.initial Socket count) history whole) (client : Socket) :
    let effects := emitted opts (historyOf client history)
    (milestones effects <+: [.enqueue, .deleteState, .uvClose true, .deleteHandle] ∨
      milestones effects = [.uvClose false, .deleteHandle]) ∧
    deletedResponses effects = (written effects).length ∧ (written effects).length ≤ 1 ∧
    (whole.stage client = .closed →
      milestones effects = [.enqueue, .deleteState, .uvClose true, .deleteHandle] ∧
          (written effects).length = 1 ∨
        milestones effects = [.uvClose false, .deleteHandle] ∧ written effects = []) :=
  (lived_run (client_run run client)).released

theorem client_released_once_index :
    ∃ whole history, Run (WholeStep {} fun _ => true) (.initial Nat 1) history whole ∧
      whole.stage 7 = .closed ∧ deletedResponses (emitted {} (historyOf 7 history)) =
        (written (emitted {} (historyOf 7 history))).length := by
  obtain ⟨history, whole, run, closed, -⟩ := closed_run
  exact ⟨whole, history, run, closed, (client_released_once run 7).2.1⟩

/-- Every client of a run of the server that was read from and is closing or closed
was given one buffer to be sent, and it holds the message that its own calls ask for
and nothing else. Only the file that its own request looks up has to be healthy. -/
theorem whole_server_replies {Socket : Type u} {count : Nat} [DecidableEq Socket] {opts : Options}
    {started : Nat → Bool} {whole : WholeServer Socket count}
    {history : List (WholeServer Socket count × WholeEvent Socket count)}
    (run : Run (WholeStep opts started) (.initial Socket count) history whole) {client : Socket}
    (ended : whole.stage client = .closed ∨ ∃ callback, whole.stage client = .closing callback)
    (read : readCalls (historyOf client history) ≠ [])
    (healthy : HealthyLookup opts.directory (readCalls (historyOf client history))) :
    ∃ calls final buf message, readCalls (historyOf client history) = calls ++ [final] ∧
      final.nread < 0 ∧ written (emitted opts (historyOf client history)) = [buf] ∧
      buf.len = buf.base.length ∧ decode (offered buf) = some message ∧
      ∀ other, Replies opts.directory calls other ↔ other = message := by
  obtain ⟨calls, final, buf, message, split, negative, writes, carries, replies⟩ :=
    (lived_run (client_run run client)).replies ended read healthy
  exact ⟨calls, final, buf, message, split, negative, writes, carries.length, carries.decodes, replies⟩

/-- The client that asks for the index page gets it. -/
theorem whole_server_replies_index :
    ∃ whole history, Run (WholeStep {} fun _ => true) (.initial Nat 1) history whole ∧
      ∃ buf, written (emitted {} (historyOf 7 history)) = [buf] ∧
        decode (offered buf) = some (reply 200 (bytes "OK") (bytes "hi")) := by
  obtain ⟨history, whole, run, closed, reads⟩ := closed_run
  have healthy := healthy_index (Options.directory {})
  rw [← reads] at healthy
  obtain ⟨calls, final, buf, message, split, -, writes, -, decoded, replies⟩ :=
    whole_server_replies run (.inl closed) (by rw [reads]; simp) healthy
  have split : [indexCall 4096] ++ [.eof greeting 0] = calls ++ [final] := reads.symm.trans split
  obtain ⟨rfl, -⟩ := List.append_inj' split rfl
  have asks : LooksUp (deliveredBy ([] ++ [indexCall 4096])) (bytes "/") :=
    .short ⟨[], by decide, by decide, rfl⟩
  have alone : [indexCall 4096] = [] ++ indexCall 4096 :: [] := rfl
  have served := (replies _).mp (.served alone unfinished_nil asks)
  rw [← served] at decoded
  exact ⟨whole, history, run, buf, writes, decoded⟩

/-- At every moment of a run of the server, what `uv_write` has sent at once to a peer
reads as a whole message exactly when it is all of the one buffer for it, and then it
is the message that the peer's own bytes ask for; nothing more arrives after that. A
file that can be read whole never makes a callback throw. -/
theorem peer_reads_own_reply {Socket : Type u} {count : Nat} [DecidableEq Socket] {opts : Options}
    {started : Nat → Bool} {whole : WholeServer Socket count}
    {history : List (WholeServer Socket count × WholeEvent Socket count)}
    (run : Run (WholeStep opts started) (.initial Socket count) history whole) {client : Socket}
    (healthy : HealthyLookup opts.directory (readCalls (historyOf client history))) :
    let effects := emitted opts (historyOf client history)
    whole.stage client ≠ .crashed ∧
    (∀ message, complete (sentAtOnce effects) = some message ↔
      ∃ buf, written effects = [buf] ∧ sentAtOnce effects = offered buf ∧
        Replies opts.directory (readCalls (historyOf client history)) message) ∧
    ∀ text, Arrives (whole.handles client) effects text →
      sentAtOnce effects = (written effects).flatMap offered → text = sentAtOnce effects := by
  have own := client_run run client
  have lived := lived_run own
  obtain ⟨sound, bounded⟩ := ledger_run own
  exact ⟨(lived.offers healthy).1, lived.sends healthy,
    fun text => lived.arrives healthy sound bounded⟩

theorem peer_reads_own_reply_index :
    ∃ whole history, Run (WholeStep {} fun _ => true) (.initial Nat 1) history whole ∧
      readCalls (historyOf 7 history) = [indexCall 4096, .eof greeting 0] ∧
      ∀ message, complete (sentAtOnce (emitted {} (historyOf 7 history))) = some message →
        Replies (Options.directory {}) [indexCall 4096, .eof greeting 0] message := by
  obtain ⟨history, whole, run, -, reads⟩ := closed_run
  have healthy := healthy_index (Options.directory {})
  rw [← reads] at healthy
  obtain ⟨-, whole_message, -⟩ := peer_reads_own_reply run healthy
  refine ⟨whole, history, run, reads, fun message sent => ?_⟩
  obtain ⟨-, -, -, replies⟩ := (whole_message message).mp sent
  rw [← reads]
  exact replies

end MailruHttp.Sys
