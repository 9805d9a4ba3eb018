import MailruHttp.Server.Answering

/-! The guarantees of a connection: one answer, decided by the bytes and not by
their arrival, and refusal of what is not a request. -/

namespace MailruHttp.Server

open Library Cmd

/-- With a fixed host the whole run writes the response to all its bytes. -/
theorem written_at_end {opts : Options} {host : Host} {calls : List ReadCall} {final : ReadCall}
    (returns : HostReturns opts host) (data : ∀ call ∈ calls, 0 ≤ call.nread)
    (fixed : ∀ call ∈ calls, call.host = host) (negative : final.nread < 0)
    (parsed : parseRequest { request := deliveredBy calls } = some rps)
    (success : (stateToResponse opts host rps).result = .ok (response, after)) :
    written (onReads opts (some onAccept) (calls ++ [final])).effects = [response.outBuf] := by
  obtain ⟨state, returned, standing⟩ :=
    standing_after opts data (fun call member => by rw [fixed call member]; exact returns)
  obtain ⟨_, last⟩ := standing.last negative
  rw [onReads_snoc opts returned final, written_append, last]
  generalize written (onReads opts (some onAccept) calls).effects = writes at standing
  cases standing with
  | waiting parsedHere waits =>
    cases Option.some.inj (parsedHere.symm.trans parsed)
    rw [stateToResponse_incomplete opts host waits] at success
    cases success
    rfl
  | answered parsedHere complete member successHere =>
    cases Option.some.inj (parsedHere.symm.trans parsed)
    rw [fixed _ member] at successHere
    cases Except.ok.inj (successHere.symm.trans success)
    rfl

/-- The answer of a connection depends on its bytes alone: two ways to cut them
into reads write the same response. Once the parser reports a front of the bytes
complete, what follows never changes its report. -/
theorem answer_independent_of_reads (opts : Options) (host : Host)
    (returns : HostReturns opts host) :
    (∀ first firstEnd second secondEnd,
      (∀ call ∈ first ++ second, 0 ≤ call.nread ∧ call.host = host) →
      firstEnd.nread < 0 → secondEnd.nread < 0 → deliveredBy first = deliveredBy second →
      ∃ rps response after,
        parseRequest { request := deliveredBy first } = some rps ∧
        (stateToResponse opts host rps).result = .ok (response, after) ∧
        written (onReads opts (some onAccept) (first ++ [firstEnd])).effects = [response.outBuf] ∧
        written (onReads opts (some onAccept) (second ++ [secondEnd])).effects =
          [response.outBuf]) ∧
    ∀ front result, parseRequest { request := front } = some result → result.complete = true →
      (∀ shorter, shorter <+: front → shorter ≠ front →
        ∃ earlier, parseRequest { request := shorter } = some earlier ∧ earlier.complete = false) →
      ∀ more, parseRequest { request := front ++ more } = some result := by
  constructor
  · intro first firstEnd second secondEnd data firstLast secondLast same
    obtain ⟨rps, parsed, _⟩ := parseRequest_parsed { request := deliveredBy first }
    obtain ⟨⟨response, after⟩, success⟩ := returns rps
    have firstData (call : ReadCall) (member : call ∈ first) :=
      data call (List.mem_append_left _ member)
    have secondData (call : ReadCall) (member : call ∈ second) :=
      data call (List.mem_append_right _ member)
    refine ⟨rps, response, after, parsed, success, ?_, ?_⟩
    · exact written_at_end returns (fun call member => (firstData call member).1)
        (fun call member => (firstData call member).2) firstLast parsed success
    · rw [same] at parsed
      exact written_at_end returns (fun call member => (secondData call member).1)
        (fun call member => (secondData call member).2) secondLast parsed success
  · intro front result parsed complete _ more
    exact parseRequest_append parsed complete more

/-- The index page in one read, and in three of which one is empty. -/
theorem answer_independent_of_reads_index :
    ∃ response : Response,
      written (onReads {} (some onAccept)
        [.data greeting 0 (bytes "GET /\r\n") (by decide), .eof greeting 0]).effects =
          [response.outBuf] ∧
      written (onReads {} (some onAccept)
        [.data greeting 0 (bytes "GET") (by decide), .data greeting 0 [] (by decide),
          .data greeting 0 (bytes " /\r\n") (by decide), .eof greeting 0]).effects =
          [response.outBuf] := by
  obtain ⟨_, response, _, _, _, first, second⟩ :=
    (answer_independent_of_reads {} greeting greeting_returns).1
      [.data greeting 0 (bytes "GET /\r\n") (by decide)] (.eof greeting 0)
      [.data greeting 0 (bytes "GET") (by decide), .data greeting 0 [] (by decide),
        .data greeting 0 (bytes " /\r\n") (by decide)] (.eof greeting 0)
      (by simp [ReadCall.data]) (by decide) (by decide) (by decide)
  exact ⟨response, first, second⟩

/-- Every connection is answered exactly once: at most one write at any time,
the flag and the write agree with the parser from the first byte on, and the
last call leaves exactly one write, of the 400 response if nothing was complete. -/
theorem answered_exactly_once (opts : Options) (calls : List ReadCall) (final : ReadCall)
    (data : ∀ call ∈ calls, 0 ≤ call.nread) (negative : final.nread < 0)
    (returns : ∀ call ∈ calls, HostReturns opts call.host) :
    (∀ earlier, earlier <+: calls ++ [final] →
      (written (onReads opts (some onAccept) earlier).effects).length ≤ 1) ∧
    (∀ earlier, earlier <+: calls → ∃ state rps,
      (onReads opts (some onAccept) earlier).result = .ok (some state) ∧
      state.request = deliveredBy earlier ∧ parseRequest state = some rps ∧
      (deliveredBy earlier ≠ [] →
        (state.responded = true ↔ rps.complete = true) ∧
        (state.responded = true ↔
          written (onReads opts (some onAccept) earlier).effects ≠ [])) ∧
      (deliveredBy earlier = [] → state.responded = false)) ∧
    (onReads opts (some onAccept) (calls ++ [final])).result = .ok none ∧
    ∃ buf, written (onReads opts (some onAccept) (calls ++ [final])).effects = [buf] ∧
      ((∀ earlier, earlier <+: calls → ∃ rps,
          parseRequest { request := deliveredBy earlier } = some rps ∧ rps.complete = false) →
        buf = respond400.outBuf) := by
  have before (earlier : List ReadCall) (leading : earlier <+: calls) :=
    standing_after opts (fun call member => data call (leading.subset member))
      (fun call member => returns call (leading.subset member))
  obtain ⟨state, returned, standing⟩ := before calls (List.prefix_refl calls)
  obtain ⟨closed, last⟩ := standing.last negative
  have whole := onReads_snoc opts returned final
  have once : ∃ buf, written (onReads opts (some onAccept) (calls ++ [final])).effects = [buf] ∧
      ((∀ earlier, earlier <+: calls → ∃ rps,
          parseRequest { request := deliveredBy earlier } = some rps ∧ rps.complete = false) →
        buf = respond400.outBuf) := by
    rw [whole, written_append, last]
    generalize written (onReads opts (some onAccept) calls).effects = writes at standing
    cases standing with
    | waiting => exact ⟨respond400.outBuf, rfl, fun _ => rfl⟩
    | answered parsed complete =>
      refine ⟨_, rfl, fun none => ?_⟩
      obtain ⟨rps, parsedHere, waits⟩ := none calls (List.prefix_refl calls)
      cases Option.some.inj (parsed.symm.trans parsedHere)
      rw [complete] at waits
      cases waits
  refine ⟨?_, ?_, by rw [whole, closed], once⟩
  · intro earlier leading
    rcases List.prefix_concat_iff.mp leading with same | leading
    · obtain ⟨buf, writes, _⟩ := once
      rw [same, writes]
      exact Nat.le_refl 1
    · obtain ⟨_, _, standing⟩ := before earlier leading
      generalize written (onReads opts (some onAccept) earlier).effects = writes at standing
      cases standing with
      | waiting => exact Nat.zero_le 1
      | answered => exact Nat.le_refl 1
  · intro earlier leading
    obtain ⟨state, returned, standing⟩ := before earlier leading
    generalize written (onReads opts (some onAccept) earlier).effects = writes at standing
    cases standing with
    | waiting parsed waits =>
      exact ⟨_, _, returned, rfl, parsed, fun _ => by simp [waits], fun _ => rfl⟩
    | answered parsed complete =>
      refine ⟨_, _, returned, rfl, parsed, fun _ => by simp [complete], fun empty => ?_⟩
      rw [empty] at parsed
      cases Option.some.inj ((show parseRequest {} = some incomplete from rfl).symm.trans parsed)
      cases complete

/-- A request cut off before its line break is answered once, with 400. -/
theorem answered_exactly_once_cut :
    written (onReads {} (some onAccept)
      [.data greeting 0 (bytes "GET ") (by decide), .data greeting 0 (bytes "/") (by decide),
        .eof greeting 0]).effects = [respond400.outBuf] := by
  let calls : List ReadCall :=
    [.data greeting 0 (bytes "GET ") (by decide), .data greeting 0 (bytes "/") (by decide)]
  obtain ⟨_, states, _, buf, once, unanswered⟩ :=
    answered_exactly_once {} calls (.eof greeting 0) (by simp [calls, ReadCall.data]) (by decide)
      (by simp only [calls, List.mem_cons, List.not_mem_nil, or_false, forall_eq_or_imp, forall_eq]
          exact ⟨greeting_returns, greeting_returns⟩)
  have refused : buf = respond400.outBuf := by
    apply unanswered
    intro earlier leading
    simp only [calls, List.prefix_cons_iff, List.prefix_nil] at leading
    obtain rfl | ⟨_, rfl, rfl | ⟨_, rfl, rfl⟩⟩ := leading
    · exact ⟨incomplete, rfl, rfl⟩
    · exact ⟨incomplete, rfl, rfl⟩
    · exact ⟨incomplete, rfl, rfl⟩
  rw [← refused]
  exact once

end MailruHttp.Server
