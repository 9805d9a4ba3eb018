import MailruHttp.Server.Answering

/-! Which bytes a connection refuses. The responder looks at completeness only,
while the parser reports a rejected request as complete and invalid. -/

namespace MailruHttp.Server

open Library Cmd

def Effect.code? : Effect → Option Int
  | .piping code _ _ => some code
  | _ => none

/-- The codes of the responses sent, as the log line reports them. -/
def codes (effects : List Effect) : List Int := effects.filterMap Effect.code?

@[simp] theorem codes_append (first second : List Effect) :
    codes (first ++ second) = codes first ++ codes second := List.filterMap_append

/-- The call is the one at which `check_if_can_respond` answers the connection,
on the given parse of the bytes so far. -/
structure AnswersAt (state : ClientState) (call : ReadCall) (rps : RequestParsingState) : Prop where
  fresh : state.responded = false
  parsed : parseRequest (state.receive call) = some rps
  due : call.nread < 0 ∨ 0 < call.nread ∧ rps.complete = true

/-- Without a valid and complete request the call answers 400 and opens no file;
other codes and `fopen` need one. -/
def RefusesBadRequests (rps : RequestParsingState) (effects : List Effect) : Prop :=
  (rps.valid = false ∨ rps.complete = false → codes effects = [400] ∧ opened effects = []) ∧
  (200 ∈ codes effects ∨ 404 ∈ codes effects ∨ opened effects ≠ [] →
    rps.valid = true ∧ rps.complete = true)

theorem receive_of_nonpos (state : ClientState) {call : ReadCall} (nonpos : call.nread ≤ 0) :
    state.receive call = state := by
  simp [ClientState.receive, delivered_of_nonpos nonpos]

/-- At the answering call, files are opened and codes sent by the answer alone. -/
theorem AnswersAt.effects (answers : AnswersAt state call rps) (opts : Options) :
    ∃ rest, (onRead opts state call).effects =
        (answer opts call (state.receive call) rps).effects ++ rest ∧
      opened rest = [] ∧ codes rest = [] := by
  obtain ⟨fresh, parsed, due⟩ := answers
  have checked (require : Bool) (required : require = true ∨ rps.complete = true) :
      checkIfCanRespond opts call (state.receive call) require =
        answer opts call (state.receive call) rps := by
    have still : (state.receive call).responded = false := fresh
    exact checkIfCanRespond_answers opts call still parsed required
  rcases due with negative | ⟨positive, complete⟩
  · have same := receive_of_nonpos state (Int.le_of_lt negative)
    have forced := checked true (.inl rfl)
    rw [same] at forced ⊢
    rw [onRead_end opts state negative, forced]
    cases result : (answer opts call state rps).result with
    | error fault => exact ⟨[], by rw [Outcome.bind_of_error result]; simp, rfl, rfl⟩
    | ok value =>
      exact ⟨[.deleteState, .uvClose true], by rw [Outcome.bind_of_ok result]; rfl, rfl, rfl⟩
  · rw [onRead_data opts state positive, checked false (.inr complete)]
    cases result : (answer opts call (state.receive call) rps).result with
    | error fault => exact ⟨[], by rw [Outcome.bind_of_error result]; simp, rfl, rfl⟩
    | ok value => exact ⟨[.freeBuffer], by rw [Outcome.bind_of_ok result]; rfl, rfl, rfl⟩

/-- An answer to a complete request opens exactly the path of that request. -/
theorem opened_answer_complete (opts : Options) (call : ReadCall) (state : ClientState)
    (complete : rps.complete = true) :
    opened (answer opts call state rps).effects = [requestPath opts rps] := by
  have path : opened (stateToResponse opts call.host rps).effects = [requestPath opts rps] := by
    rw [effects_stateToResponse opts call.host complete]
    rfl
  cases success : (stateToResponse opts call.host rps).result with
  | error fault => rw [answer_of_error state success, path]
  | ok value =>
    rw [answer_of_ok state success, opened_append, path]
    rfl

theorem answer_incomplete (opts : Options) (call : ReadCall) (state : ClientState)
    (waits : rps.complete = false) :
    opened (answer opts call state rps).effects = [] ∧
      codes (answer opts call state rps).effects = [400] := by
  rw [answer, stateToResponse_incomplete opts call.host waits]
  exact ⟨rfl, rfl⟩

theorem AnswersAt.refuses_iff (answers : AnswersAt state call rps) (opts : Options) :
    RefusesBadRequests rps (onRead opts state call).effects ↔
      CanComplete (state.receive call).request := by
  obtain ⟨rest, same, noPath, noCode⟩ := answers.effects opts
  have paths : opened (onRead opts state call).effects =
      opened (answer opts call (state.receive call) rps).effects := by simp [same, noPath]
  have sent : codes (onRead opts state call).effects =
      codes (answer opts call (state.receive call) rps).effects := by simp [same, noCode]
  obtain ⟨other, success, parsed⟩ := parseRequest_parsed (state.receive call)
  cases Option.some.inj (answers.parsed.symm.trans success)
  rw [RefusesBadRequests, paths, sent]
  cases parsed with
  | short found =>
    exact ⟨fun _ => canComplete_of_request (.inl found), fun _ => ⟨by simp [accepted], fun _ => ⟨rfl, rfl⟩⟩⟩
  | long none found =>
    exact ⟨fun _ => canComplete_of_request (.inr found), fun _ => ⟨by simp [accepted], fun _ => ⟨rfl, rfl⟩⟩⟩
  | waiting none possible =>
    have waits : incomplete.complete = false := rfl
    obtain ⟨noFile, code⟩ := answer_incomplete opts call (state.receive call) waits
    rw [noFile, code]
    exact ⟨fun _ => possible, fun _ => ⟨fun _ => ⟨rfl, rfl⟩, by simp⟩⟩
  | dead impossible =>
    have complete : rejected.complete = true := rfl
    rw [opened_answer_complete opts call (state.receive call) complete]
    constructor
    · intro refuses
      simpa using (refuses.1 (.inl rfl)).2
    · intro possible
      exact absurd possible impossible

/-- On every run, the answer refuses bad requests exactly when the bytes so far
can still become, or begin with, a request. Bytes the parser rejects for good
are answered from the file system instead. -/
theorem refuses_bad_requests_iff (opts : Options) (calls : List ReadCall) (call : ReadCall)
    (state : ClientState) (rps : RequestParsingState)
    (returned : (onReads opts (some onAccept) calls).result = .ok (some state))
    (answers : AnswersAt state call rps) :
    RefusesBadRequests rps (onRead opts state call).effects ↔
      CanComplete (deliveredBy (calls ++ [call])) := by
  have request : (state.receive call).request = deliveredBy (calls ++ [call]) := by
    have standing : Standing opts calls state _ := (standing_onAccept opts).reads returned
    rw [deliveredBy_snoc, ← standing.request]
    rfl
  rw [answers.refuses_iff opts, request]

theorem answersAt_index :
    AnswersAt onAccept (.data greeting 0 (bytes "GET /\r\n") (by decide)) (accepted (bytes "/")) where
  fresh := rfl
  parsed := rfl
  due := .inr ⟨by decide, rfl⟩

/-- The request for the index page meets the condition. -/
theorem refuses_bad_requests_iff_index :
    RefusesBadRequests (accepted (bytes "/"))
      (onRead {} onAccept (.data greeting 0 (bytes "GET /\r\n") (by decide))).effects := by
  have decided := refuses_bad_requests_iff {} [] _ onAccept _ rfl answersAt_index
  apply decided.mpr
  exact ⟨[], bytes "/", .inl ⟨[], by decide, by decide, rfl⟩⟩

/-- A request with another method is rejected by both automata, and the server
still opens the directory and answers 404. -/
theorem post_not_refused :
    AnswersAt onAccept (.data greeting 0 (bytes "POST / HTTP/1.0\r\n") (by decide)) rejected ∧
    opened (onRead {} onAccept
      (.data greeting 0 (bytes "POST / HTTP/1.0\r\n") (by decide))).effects = [bytes "."] ∧
    ¬ RefusesBadRequests rejected (onRead {} onAccept
      (.data greeting 0 (bytes "POST / HTTP/1.0\r\n") (by decide))).effects := by
  have path : opened (onRead {} onAccept
      (.data greeting 0 (bytes "POST / HTTP/1.0\r\n") (by decide))).effects = [bytes "."] := rfl
  refine ⟨⟨rfl, rfl, .inr ⟨by decide, rfl⟩⟩, path, ?_⟩
  intro refuses
  have none := (refuses.1 (.inl rfl)).2
  rw [path] at none
  cases none

end MailruHttp.Server
