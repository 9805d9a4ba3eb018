import MailruHttp.Server.CallbackSpec

/-! What one call of `on_read` can do: five cases, with the effects of each in full. -/

namespace MailruHttp.Server

open Library Cmd

/-- The bytes so far are not complete, as they are in every state without answer. -/
def Waits (state : ClientState) : Prop :=
  ∃ rps, parseRequest state = some rps ∧ rps.complete = false

theorem waits_onAccept : Waits onAccept := ⟨incomplete, rfl, rfl⟩

/-- The cases of a call from a state that was answered or waits. -/
inductive ReadCase (opts : Options) (state : ClientState) (call : ReadCall) : Prop where
  /-- Nothing to answer, or answered before. -/
  | silent (effects : (onRead opts state call).effects = [] ∨
        (onRead opts state call).effects = [.freeBuffer])
      (returned : (onRead opts state call).result = .ok (some next))
      (same : next.responded = state.responded) (waits : next.responded = false → Waits next)
      (data : 0 ≤ call.nread)
  /-- The bytes of the call complete the request or rule it out. -/
  | answered (effects : (onRead opts state call).effects =
        [.fopen path, .piping code baseUri uri, .uvWrite buf call.write, .deleteResponse, .freeBuffer])
      (returned : (onRead opts state call).result = .ok (some next))
      (marked : next.responded = true) (fresh : state.responded = false) (data : 0 ≤ call.nread)
  | faulted (effects : (onRead opts state call).effects = [.fopen path])
      (failed : (onRead opts state call).result = .error fault) (data : 0 ≤ call.nread)
  | ended (effects : (onRead opts state call).effects = [.deleteState, .uvClose true])
      (returned : (onRead opts state call).result = .ok none)
      (responded : state.responded = true) (negative : call.nread < 0)
  /-- The stream ends before the request does. -/
  | refused (effects : (onRead opts state call).effects =
        [.piping code baseUri uri, .uvWrite respond400.outBuf call.write, .deleteResponse,
          .deleteState, .uvClose true])
      (returned : (onRead opts state call).result = .ok none)
      (fresh : state.responded = false) (negative : call.nread < 0)

theorem read_case_data (opts : Options) {state : ClientState} {call : ReadCall}
    (positive : 0 < call.nread) : ReadCase opts state call := by
  have data := onRead_data opts state positive
  cases responded : state.responded with
  | true =>
    have still : (state.receive call).responded = true := responded
    rw [checkIfCanRespond_responded opts call still] at data
    have returned : (onRead opts state call).result = .ok (some (state.receive call)) := by
      rw [data]
      rfl
    apply ReadCase.silent (.inr (by rw [data]; rfl)) returned rfl _ (Int.le_of_lt positive)
    intro fresh
    rw [still] at fresh
    cases fresh
  | false =>
    have fresh : (state.receive call).responded = false := responded
    obtain ⟨rps, parsed, _⟩ := parseRequest_parsed (state.receive call)
    cases complete : rps.complete with
    | false =>
      rw [checkIfCanRespond_waits opts call parsed complete] at data
      have returned : (onRead opts state call).result = .ok (some (state.receive call)) := by
        rw [data]
        rfl
      exact .silent (.inr (by rw [data]; rfl)) returned rfl (fun _ => ⟨rps, parsed, complete⟩)
        (Int.le_of_lt positive)
    | true =>
      rw [checkIfCanRespond_answers opts call fresh parsed (.inr complete)] at data
      have path := effects_stateToResponse opts call.host complete
      cases success : (stateToResponse opts call.host rps).result with
      | error fault =>
        rw [answer_of_error _ success, path] at data
        exact .faulted (by rw [data]; rfl) (by rw [data]; rfl) (Int.le_of_lt positive)
      | ok value =>
        rw [answer_of_ok _ success, path] at data
        exact .answered (by rw [data]; rfl) (by rw [data]; rfl) rfl responded (Int.le_of_lt positive)

theorem read_case_end (opts : Options) {state : ClientState} {call : ReadCall}
    (waits : state.responded = false → Waits state) (negative : call.nread < 0) :
    ReadCase opts state call := by
  have last := onRead_end opts state negative
  cases responded : state.responded with
  | true =>
    rw [checkIfCanRespond_responded opts call responded] at last
    exact .ended (by rw [last]; rfl) (by rw [last]; rfl) responded negative
  | false =>
    obtain ⟨rps, parsed, incomplete⟩ := waits responded
    rw [checkIfCanRespond_answers opts call responded parsed (.inl rfl), answer,
      stateToResponse_incomplete opts call.host incomplete] at last
    exact .refused (by rw [last]; rfl) (by rw [last]; rfl) responded negative

/-- Every call from such a state is one of the cases. -/
theorem read_case (opts : Options) (state : ClientState) (call : ReadCall)
    (waits : state.responded = false → Waits state) : ReadCase opts state call := by
  rcases Int.lt_trichotomy call.nread 0 with negative | zero | positive
  · exact read_case_end opts waits negative
  · have nothing := onRead_empty opts state zero
    exact .silent (.inl (by rw [nothing]; rfl)) (by rw [nothing]; rfl) rfl waits
      (Int.le_of_eq zero.symm)
  · exact read_case_data opts positive

end MailruHttp.Server
