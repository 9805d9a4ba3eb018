import MailruHttp.Server.CallbackSpec

/-! What a connection's reads lead to: one answer, decided by the bytes alone. -/

namespace MailruHttp.Server

open Library Cmd

/-- The bytes a sequence of calls delivers. -/
def deliveredBy (calls : List ReadCall) : List UInt8 := calls.flatMap ReadCall.delivered

/-- `stateToResponse` returns for every parse, as it does when there is room for
every file that opens. -/
def HostReturns (opts : Options) (host : Host) : Prop :=
  ∀ rps, ∃ value, (stateToResponse opts host rps).result = .ok value

theorem hostReturns_of_holds (opts : Options) {host : Host}
    (holds : ∀ path file, host.fopen path = some file → host.HoldsFile file) :
    HostReturns opts host := by
  intro rps
  cases complete : rps.complete with
  | false => exact ⟨_, by rw [stateToResponse_incomplete opts host complete]; rfl⟩
  | true =>
    cases found : host.fopen (requestPath opts rps) with
    | none => exact ⟨_, by rw [stateToResponse_missing complete found]⟩
    | some file => exact ⟨_, by rw [stateToResponse_opens complete found (holds _ file found)]⟩

theorem hostReturns_single (opts : Options) {path : List UInt8} {file : File}
    (holds : (Host.single path file).HoldsFile file) : HostReturns opts (Host.single path file) := by
  apply hostReturns_of_holds
  intro other found opens
  simp only [Host.single, Option.ite_none_right_eq_some, Option.some.injEq] at opens
  rw [← opens.2]
  exact holds

/-- A disk with an index page, for runs on fixed requests. -/
def greeting : Host := Host.single (bytes "./index.html") (File.ofBytes (bytes "hi") (by decide))

theorem greeting_returns : HostReturns {} greeting :=
  hostReturns_single {} ⟨⟨by decide, rfl⟩, ⟨by decide, rfl⟩⟩

/-- Where a connection stands after the calls seen so far: it waits for a
complete request, or it has written the one response to it. -/
inductive Standing (opts : Options) (seen : List ReadCall) : ClientState → List UvBuf → Prop where
  | waiting (parsed : parseRequest { request := deliveredBy seen } = some rps)
      (waits : rps.complete = false) :
      Standing opts seen { request := deliveredBy seen, responded := false } []
  | answered (parsed : parseRequest { request := deliveredBy seen } = some rps)
      (complete : rps.complete = true) (member : call ∈ seen)
      (success : (stateToResponse opts call.host rps).result = .ok (response, after)) :
      Standing opts seen { request := deliveredBy seen, responded := true } [response.outBuf]

theorem deliveredBy_snoc (seen : List ReadCall) (call : ReadCall) :
    deliveredBy (seen ++ [call]) = deliveredBy seen ++ call.delivered := by
  simp [deliveredBy]

theorem delivered_of_nonpos {call : ReadCall} (nonpos : call.nread ≤ 0) : call.delivered = [] := by
  have zero : call.nread.toNat = 0 := by omega
  simp [ReadCall.delivered, zero]

theorem written_stateToResponse (opts : Options) (host : Host) (rps : RequestParsingState) :
    written (stateToResponse opts host rps).effects = [] := by
  apply List.filterMap_eq_nil_iff.mpr
  intro effect member
  obtain ⟨path, rfl⟩ := fopen_of_mem_stateToResponse member
  rfl

theorem Standing.request (standing : Standing opts seen state writes) :
    state.request = deliveredBy seen := by
  cases standing <;> rfl

/-- A call without data changes nothing. -/
theorem Standing.empty (standing : Standing opts seen state writes) {call : ReadCall}
    (nonpos : call.nread ≤ 0) : Standing opts (seen ++ [call]) state writes := by
  have same : deliveredBy (seen ++ [call]) = deliveredBy seen := by
    rw [deliveredBy_snoc, delivered_of_nonpos nonpos, List.append_nil]
  cases standing with
  | waiting parsed waits =>
    rw [← same] at parsed ⊢
    exact .waiting parsed waits
  | answered parsed complete member success =>
    rw [← same] at parsed ⊢
    exact .answered parsed complete (List.mem_append_left _ member) success

theorem receive_deliveredBy (seen : List ReadCall) (call : ReadCall) (responded : Bool) :
    ClientState.receive { request := deliveredBy seen, responded } call =
      { request := deliveredBy (seen ++ [call]), responded } := by
  rw [deliveredBy_snoc]
  rfl

/-- A returning answer writes the buffer of its response and nothing else. -/
theorem answer_returned {opts : Options} {call : ReadCall} {state next : ClientState}
    {rps : RequestParsingState} (returned : (answer opts call state rps).result = .ok next) :
    ∃ response after, (stateToResponse opts call.host rps).result = .ok (response, after) ∧
      next = { state with responded := true } ∧
      written (answer opts call state rps).effects = [response.outBuf] := by
  cases success : (stateToResponse opts call.host rps).result with
  | error fault =>
    rw [answer_of_error state success] at returned
    cases returned
  | ok value =>
    rw [answer_of_ok state success] at returned ⊢
    refine ⟨value.1, value.2, rfl, (Except.ok.inj returned).symm, ?_⟩
    rw [written_append, written_stateToResponse]
    rfl

/-- A call with data keeps the standing whenever it returns. -/
theorem Standing.data (standing : Standing opts seen state writes) (positive : 0 < call.nread)
    (returned : (onRead opts state call).result = .ok next) :
    ∃ after, next = some after ∧
      Standing opts (seen ++ [call]) after (writes ++ written (onRead opts state call).effects) := by
  rw [onRead_data opts state positive] at returned ⊢
  obtain ⟨after, checked, finished⟩ := Outcome.result_bind_ok_iff.mp returned
  cases finished
  refine ⟨after, rfl, ?_⟩
  rw [Outcome.bind_of_ok checked, written_append,
    show written (Outcome.emit .freeBuffer >>= fun _ => (pure (some after) : Act _)).effects = [] from rfl,
    List.append_nil]
  obtain ⟨rps, parsedNow, _⟩ := parseRequest_parsed { request := deliveredBy (seen ++ [call]) }
  cases standing with
  | waiting parsed waits =>
    rw [receive_deliveredBy] at checked ⊢
    cases complete : rps.complete with
    | false =>
      rw [checkIfCanRespond_waits opts call parsedNow complete] at checked ⊢
      cases checked
      exact .waiting parsedNow complete
    | true =>
      rw [checkIfCanRespond_answers opts call rfl parsedNow (.inr complete)] at checked ⊢
      obtain ⟨response, replaced, success, same, writes⟩ := answer_returned checked
      rw [writes, same]
      exact .answered parsedNow complete (List.mem_append_right _ (by simp)) success
  | answered parsed complete member success =>
    rw [receive_deliveredBy, checkIfCanRespond_responded opts call (by rfl)] at checked ⊢
    cases checked
    have same := parseRequest_append parsed complete call.delivered
    simp only [← deliveredBy_snoc] at same
    exact .answered same complete (List.mem_append_left _ member) success

/-- One call keeps the standing, whenever it returns without closing. -/
theorem Standing.read (standing : Standing opts seen state writes)
    (returned : (onRead opts state call).result = .ok (some next)) :
    Standing opts (seen ++ [call]) next (writes ++ written (onRead opts state call).effects) := by
  rcases Int.lt_trichotomy call.nread 0 with negative | zero | positive
  · rw [onRead_end opts state negative] at returned
    obtain ⟨_, _, impossible⟩ := Outcome.result_bind_ok_iff.mp returned
    cases impossible
  · rw [onRead_empty opts state zero] at returned ⊢
    cases returned
    simpa [written] using standing.empty (Int.le_of_eq zero)
  · obtain ⟨after, same, kept⟩ := standing.data positive returned
    cases same
    exact kept

theorem answer_returns (opts : Options) (call : ReadCall) (state : ClientState)
    (rps : RequestParsingState) (returns : HostReturns opts call.host) :
    ∃ next, (answer opts call state rps).result = .ok next := by
  obtain ⟨value, success⟩ := returns rps
  exact ⟨_, by rw [answer_of_ok state success]⟩

theorem checkIfCanRespond_returns (opts : Options) (call : ReadCall) (state : ClientState)
    (require : Bool) (returns : HostReturns opts call.host) :
    ∃ next, (checkIfCanRespond opts call state require).result = .ok next := by
  obtain ⟨rps, parsed, _⟩ := parseRequest_parsed state
  cases responded : state.responded with
  | true => exact ⟨state, by rw [checkIfCanRespond_responded opts call responded]; rfl⟩
  | false =>
    by_cases due : require = true ∨ rps.complete = true
    · rw [checkIfCanRespond_answers opts call responded parsed due]
      exact answer_returns opts call state rps returns
    · simp only [not_or, Bool.not_eq_true] at due
      rw [due.1, checkIfCanRespond_waits opts call parsed due.2]
      exact ⟨state, rfl⟩

theorem onRead_returns (opts : Options) (state : ClientState) {call : ReadCall}
    (data : 0 ≤ call.nread) (returns : HostReturns opts call.host) :
    ∃ next, (onRead opts state call).result = .ok (some next) := by
  rcases Int.le_iff_eq_or_lt.mp data with zero | positive
  · exact ⟨state, by rw [onRead_empty opts state zero.symm]; rfl⟩
  · obtain ⟨next, checked⟩ :=
      checkIfCanRespond_returns opts call (state.receive call) false returns
    refine ⟨next, ?_⟩
    rw [onRead_data opts state positive]
    exact Outcome.result_bind_ok_iff.mpr ⟨next, checked, rfl⟩

/-- A run that has not closed the connection keeps the standing. -/
theorem Standing.reads (standing : Standing opts seen state writes)
    (returned : (onReads opts (some state) calls).result = .ok (some next)) :
    Standing opts (seen ++ calls) next (writes ++ written (onReads opts (some state) calls).effects) := by
  induction calls generalizing seen state writes with
  | nil =>
    cases returned
    simpa [onReads, written] using standing
  | cons call calls ih =>
    rw [onReads] at returned ⊢
    obtain ⟨middle, first, rest⟩ := Outcome.result_bind_ok_iff.mp returned
    cases middle with
    | none => cases calls <;> cases rest
    | some middle =>
      have later := ih (standing.read first) rest
      rw [Outcome.bind_of_ok first]
      simpa [List.append_assoc] using later

theorem onReads_returns (opts : Options) (state : ClientState) {calls : List ReadCall}
    (data : ∀ call ∈ calls, 0 ≤ call.nread)
    (returns : ∀ call ∈ calls, HostReturns opts call.host) :
    ∃ next, (onReads opts (some state) calls).result = .ok (some next) := by
  induction calls generalizing state with
  | nil => exact ⟨state, rfl⟩
  | cons call calls ih =>
    obtain ⟨middle, first⟩ :=
      onRead_returns opts state (data call (by simp)) (returns call (by simp))
    obtain ⟨next, rest⟩ := ih middle (fun other member => data other (by simp [member]))
      (fun other member => returns other (by simp [member]))
    exact ⟨next, Outcome.result_bind_ok_iff.mpr ⟨_, first, rest⟩⟩

theorem standing_onAccept (opts : Options) : Standing opts [] onAccept [] := by
  have parsed : parseRequest { request := deliveredBy [] } = some incomplete := rfl
  exact .waiting parsed rfl

/-- Where the connection stands after any run of calls with data or without. -/
theorem standing_after (opts : Options) {calls : List ReadCall}
    (data : ∀ call ∈ calls, 0 ≤ call.nread)
    (returns : ∀ call ∈ calls, HostReturns opts call.host) :
    ∃ state, (onReads opts (some onAccept) calls).result = .ok (some state) ∧
      Standing opts calls state (written (onReads opts (some onAccept) calls).effects) := by
  obtain ⟨state, returned⟩ := onReads_returns opts onAccept data returns
  exact ⟨state, returned, (standing_onAccept opts).reads returned⟩

/-- The last call closes the connection; without an answer so far, it writes the
400 response, which needs no file. -/
theorem Standing.last (standing : Standing opts seen state writes) {final : ReadCall}
    (negative : final.nread < 0) :
    (onRead opts state final).result = .ok none ∧
      written (onRead opts state final).effects =
        if state.responded then [] else [respond400.outBuf] := by
  rw [onRead_end opts state negative]
  cases standing with
  | waiting parsed waits =>
    rw [checkIfCanRespond_answers opts final rfl parsed (.inl rfl), answer,
      stateToResponse_incomplete opts final.host waits]
    exact ⟨rfl, rfl⟩
  | answered parsed complete member success =>
    rw [checkIfCanRespond_responded opts final (by rfl)]
    exact ⟨rfl, rfl⟩

theorem onReads_snoc (opts : Options) {calls : List ReadCall} {state : ClientState}
    (returned : (onReads opts (some onAccept) calls).result = .ok (some state)) (final : ReadCall) :
    onReads opts (some onAccept) (calls ++ [final]) =
      ⟨(onReads opts (some onAccept) calls).effects ++ (onRead opts state final).effects,
        (onRead opts state final).result⟩ := by
  have single : onReads opts (some state) [final] = onRead opts state final := by
    have same : (fun next => onReads opts next []) = (pure : Option ClientState → Act _) := by
      funext next
      cases next <;> rfl
    rw [onReads, same, Outcome.bind_pure]
  rw [onReads_append, Outcome.bind_of_ok returned, single]

end MailruHttp.Server
