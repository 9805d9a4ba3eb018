import MailruHttp.Server.BadRequests

/-! The one path a connection opens. It is settled by the bytes received, also on
runs that end in a fault. -/

namespace MailruHttp.Server

open Library Cmd

/-- The bytes of a connection, up to the call that ends it. -/
def received (calls : List ReadCall) : List UInt8 :=
  deliveredBy (calls.takeWhile fun call => 0 ≤ call.nread)

theorem received_cons {call : ReadCall} (data : 0 ≤ call.nread) (calls : List ReadCall) :
    received (call :: calls) = call.delivered ++ received calls := by
  simp [received, deliveredBy, data]

theorem opened_bind_of_rest {first : Act α} {rest : α → Act β}
    (none : ∀ value, first.result = .ok value → opened (rest value).effects = []) :
    opened (first >>= rest).effects = opened first.effects := by
  cases result : first.result with
  | error fault => rw [Outcome.bind_of_error result]
  | ok value => rw [Outcome.bind_of_ok result, opened_append, none value result, List.append_nil]

theorem onReads_closed (opts : Options) (calls : List ReadCall) :
    onReads opts none calls = pure none := by cases calls <;> rfl

/-- After the answer no call opens anything or takes the answer back. -/
theorem onRead_responded (opts : Options) {state : ClientState} (responded : state.responded = true)
    (call : ReadCall) :
    opened (onRead opts state call).effects = [] ∧
      ∀ next, (onRead opts state call).result = .ok (some next) → next.responded = true := by
  rcases Int.lt_trichotomy call.nread 0 with negative | zero | positive
  · rw [onRead_end opts state negative, checkIfCanRespond_responded opts call responded]
    exact ⟨rfl, fun next returned => by cases returned⟩
  · rw [onRead_empty opts state zero]
    exact ⟨rfl, fun next returned => by cases returned; exact responded⟩
  · have still : (state.receive call).responded = true := responded
    rw [onRead_data opts state positive, checkIfCanRespond_responded opts call still]
    exact ⟨rfl, fun next returned => by cases returned; exact still⟩

theorem opened_responded (opts : Options) {state : ClientState} (responded : state.responded = true)
    (calls : List ReadCall) : opened (onReads opts (some state) calls).effects = [] := by
  induction calls generalizing state with
  | nil => rfl
  | cons call calls ih =>
    obtain ⟨none, kept⟩ := onRead_responded opts responded call
    rw [onReads, opened_bind_of_rest, none]
    intro next returned
    cases next with
    | none =>
      rw [onReads_closed]
      rfl
    | some next => exact ih (kept next returned)

/-- The answering call opens the path of its request, and leaves a connection
that counts as answered. -/
theorem AnswersAt.opens (answers : AnswersAt state call rps) (complete : rps.complete = true)
    (opts : Options) :
    opened (onRead opts state call).effects = [requestPath opts rps] ∧
      ∀ next, (onRead opts state call).result = .ok (some next) → next.responded = true := by
  obtain ⟨rest, same, noPath, _⟩ := answers.effects opts
  refine ⟨?_, ?_⟩
  · rw [same, opened_append, noPath, opened_answer_complete opts call _ complete, List.append_nil]
  · intro next returned
    rcases Int.lt_or_le 0 call.nread with positive | nonpos
    · have fresh : (state.receive call).responded = false := answers.fresh
      rw [onRead_data opts state positive,
        checkIfCanRespond_answers opts call fresh answers.parsed (.inr complete)] at returned
      obtain ⟨after, checked, finished⟩ := Outcome.result_bind_ok_iff.mp returned
      obtain ⟨_, _, _, marked, _⟩ := answer_returned checked
      cases finished
      rw [marked]
    · rcases answers.due with negative | ⟨positive, _⟩
      · rw [onRead_end opts state negative] at returned
        obtain ⟨_, _, impossible⟩ := Outcome.result_bind_ok_iff.mp returned
        cases impossible
      · omega

/-- From a state that still waits, a run opens the path of the request the bytes
make up, if they make up one or rule it out. -/
theorem opened_waiting (opts : Options) {state : ClientState} (fresh : state.responded = false)
    (parsed : parseRequest state = some rps) (waits : rps.complete = false) (calls : List ReadCall) :
    ∃ result, parseRequest { request := state.request ++ received calls } = some result ∧
      opened (onReads opts (some state) calls).effects =
        if result.complete then [requestPath opts result] else [] := by
  induction calls generalizing state rps with
  | nil =>
    refine ⟨rps, ?_, by simp [onReads, waits, opened]⟩
    rw [← parsed, show received [] = [] from rfl, List.append_nil]
    rfl
  | cons call calls ih =>
    rcases Int.lt_trichotomy call.nread 0 with negative | zero | positive
    · have last : received (call :: calls) = [] := by
        have ends : ¬ 0 ≤ call.nread := by omega
        simp [received, ends, deliveredBy]
      refine ⟨rps, ?_, ?_⟩
      · rw [last, List.append_nil, ← parsed]
        rfl
      · have same := receive_of_nonpos state (Int.le_of_lt negative)
        rw [onReads, onRead_end opts state negative,
          checkIfCanRespond_answers opts call fresh parsed (.inl rfl), waits]
        rw [opened_bind_of_rest, opened_bind_of_rest, (answer_incomplete opts call state waits).1]
        · rfl
        · intro _ _
          rfl
        · intro next returned
          obtain ⟨_, _, closed⟩ := Outcome.result_bind_ok_iff.mp returned
          cases closed
          rw [onReads_closed]
          rfl
    · rw [received_cons (Int.le_of_eq zero.symm), delivered_of_nonpos (Int.le_of_eq zero),
        List.nil_append, onReads, onRead_empty opts state zero, Outcome.pure_bind]
      exact ih fresh parsed waits
    · rw [received_cons (Int.le_of_lt positive), ← List.append_assoc]
      have freshNext : (state.receive call).responded = false := fresh
      obtain ⟨next, parsedNext, _⟩ := parseRequest_parsed (state.receive call)
      cases complete : next.complete with
      | false =>
        have kept := ih freshNext parsedNext complete
        rw [onReads, onRead_data opts state positive,
          checkIfCanRespond_waits opts call parsedNext complete]
        exact kept
      | true =>
        have answers : AnswersAt state call next := ⟨fresh, parsedNext, .inr ⟨positive, complete⟩⟩
        obtain ⟨path, marked⟩ := answers.opens complete opts
        refine ⟨next, parseRequest_append parsedNext complete (received calls), ?_⟩
        rw [onReads, opened_bind_of_rest, path, complete]
        · rfl
        · intro after returned
          cases after with
          | none =>
            rw [onReads_closed]
            rfl
          | some after => exact opened_responded opts (marked after returned) calls

/-- What a connection opens is the path of its parse, once that is complete. -/
theorem opened_onReads (opts : Options) (calls : List ReadCall) :
    ∃ rps, parseRequest { request := received calls } = some rps ∧
      opened (onReads opts (some onAccept) calls).effects =
        if rps.complete then [requestPath opts rps] else [] :=
  opened_waiting opts rfl (show parseRequest onAccept = some incomplete from rfl) rfl calls

end MailruHttp.Server
