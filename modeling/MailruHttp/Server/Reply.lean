import MailruHttp.Server.FileAnswers
import MailruHttp.Server.Session

/-! What the server is for, stated without its code: which message answers a
connection, from the grammar of requests and the files on the disk. The callbacks
write exactly that message. -/

namespace MailruHttp.Server

open Library Cmd

/-- The contents of the files that can be opened, by path. -/
abbrev Disk := List UInt8 → Option (List UInt8)

def diskOf (host : Host) : Disk := fun path =>
  (host.fopen path).map fun file => file.fread (toSizeT file.ftell)

/-- What opens at a path, if anything does, is read whole, and its response has a
length that an `int` can hold. -/
structure Healthy (host : Host) (path : List UInt8) : Prop where
  delivers : ∀ file, host.fopen path = some file → DeliversAll host file
  small : ∀ file, host.fopen path = some file → file.ftell + 91 < 2 ^ 31

/-- Not yet a request, but the beginning of one. -/
def Unfinished (request : List UInt8) : Prop :=
  (¬ ∃ uri, ShortRequest request uri ∨ LongRequest request uri) ∧ CanComplete request

/-- The URI that is looked up for the bytes of a connection. Bytes that cannot
become a request any more are treated like a request with an empty URI. -/
inductive LooksUp (request : List UInt8) : List UInt8 → Prop where
  | short (found : ShortRequest request uri) : LooksUp request uri
  | long (none : ¬ ∃ other, ShortRequest request other) (found : LongRequest request uri) :
      LooksUp request uri
  | dead (impossible : ¬ CanComplete request) : LooksUp request []

/-- The file a URI names: its part before the question mark, where `/` names the
index page, in the directory without its last separator. -/
def pathOf (directory uri : List UInt8) : List UInt8 :=
  let base := uri.takeWhile (· != byte '?')
  cString (folderOf directory ++ if base = bytes "/" then bytes "/index.html" else base)

def reply (code : Nat) (reason body : List UInt8) : Message :=
  ⟨bytes "HTTP/1.0", code, reason, body.length, body⟩

/-- The answer for a path: the file, or that there is none. -/
def fileReply (disk : Disk) (path : List UInt8) : Message :=
  match disk path with
  | some content => reply 200 (bytes "OK") content
  | none => reply 404 (bytes "Not Found") (bytes "Nothing is found. This is sad")

def badRequest : Message :=
  reply 400 (bytes "Bad Request") (bytes "Your request was so bad, that we could not even parse it")

/-- The answer to a connection that made the given calls and then ended. The read
after which the bytes are no longer unfinished decides which disk is looked at. -/
inductive Replies (directory : List UInt8) : List ReadCall → Message → Prop where
  | served (split : calls = earlier ++ call :: later)
      (before : Unfinished (deliveredBy earlier))
      (asks : LooksUp (deliveredBy (earlier ++ [call])) uri) :
      Replies directory calls (fileReply (diskOf call.host) (pathOf directory uri))
  | refused (waits : Unfinished (deliveredBy calls)) : Replies directory calls badRequest

/-- The file that the deciding read looks up is healthy. No other file matters. -/
def HealthyLookup (directory : List UInt8) (calls : List ReadCall) : Prop :=
  ∀ earlier call later uri, calls = earlier ++ call :: later → Unfinished (deliveredBy earlier) →
    LooksUp (deliveredBy (earlier ++ [call])) uri → Healthy call.host (pathOf directory uri)

theorem HealthyLookup.front {directory : List UInt8} {front rest : List ReadCall}
    (healthy : HealthyLookup directory (front ++ rest)) : HealthyLookup directory front := by
  intro earlier call later uri split
  exact healthy earlier call (later ++ rest) uri (by rw [split, List.append_assoc]; rfl)

section Grammar

variable {request : List UInt8} {result : RequestParsingState}

theorem pathOf_accepted (opts : Options) (uri : List UInt8) :
    requestPath opts (accepted uri) = pathOf opts.directory uri := by
  unfold requestPath pathOf indexed
  simp only [accepted, baseUriOf_eq]
  split
  · rfl
  · rfl

theorem pathOf_rejected (opts : Options) : requestPath opts rejected = pathOf opts.directory [] := rfl

/-- The parser against the grammar, as far as the answer depends on it. -/
theorem parsed_cases (opts : Options) (parsed : Parsed request result) :
    result = incomplete ∧ Unfinished request ∨
      result.complete = true ∧ ∃ uri, LooksUp request uri ∧
        requestPath opts result = pathOf opts.directory uri := by
  cases parsed with
  | @short uri found => exact .inr ⟨rfl, uri, .short found, pathOf_accepted opts uri⟩
  | @long uri none found => exact .inr ⟨rfl, uri, .long none found, pathOf_accepted opts uri⟩
  | waiting none possible => exact .inl ⟨rfl, none, possible⟩
  | dead impossible => exact .inr ⟨rfl, [], .dead impossible, pathOf_rejected opts⟩

theorem unfinished_nil : Unfinished [] := by
  obtain ⟨rps, parsed, grammar⟩ := parseRequest_parsed {}
  have empty : parseRequest {} = some incomplete := rfl
  cases Option.some.inj (empty.symm.trans parsed)
  rcases parsed_cases {} grammar with ⟨-, waits⟩ | ⟨complete, -⟩
  · exact waits
  · cases complete

theorem Unfinished.parsed (waits : Unfinished request) : Parsed request incomplete :=
  .waiting waits.1 waits.2

theorem LooksUp.parsed (asks : LooksUp request uri) (opts : Options) :
    ∃ result, Parsed request result ∧ result.complete = true ∧
      requestPath opts result = pathOf opts.directory uri := by
  cases asks with
  | short found => exact ⟨_, .short found, rfl, pathOf_accepted opts uri⟩
  | long none found => exact ⟨_, .long none found, rfl, pathOf_accepted opts uri⟩
  | dead impossible => exact ⟨_, .dead impossible, rfl, pathOf_rejected opts⟩

/-- Once a URI is looked up, more bytes never make the connection wait again. -/
theorem LooksUp.not_unfinished (asks : LooksUp request uri) (more : List UInt8) :
    ¬ Unfinished (request ++ more) := by
  intro waits
  obtain ⟨result, parsed, complete, -⟩ := asks.parsed {}
  have same := (parsed.append complete more).unique waits.parsed
  rw [same] at complete
  cases complete

theorem LooksUp.path_unique (first : LooksUp request uri) (second : LooksUp request other)
    (opts : Options) : pathOf opts.directory uri = pathOf opts.directory other := by
  obtain ⟨result, parsed, -, path⟩ := first.parsed opts
  obtain ⟨result', parsed', -, path'⟩ := second.parsed opts
  rw [← path, ← path', parsed.unique parsed']

end Grammar

theorem deliveredBy_append (first second : List ReadCall) :
    deliveredBy (first ++ second) = deliveredBy first ++ deliveredBy second := List.flatMap_append

section Deciding

variable {earlier later front rest : List ReadCall} {call : ReadCall} {uri : List UInt8}

/-- After the deciding read no front of the calls is unfinished. -/
theorem LooksUp.passed (asks : LooksUp (deliveredBy (earlier ++ [call])) uri)
    (split : earlier ++ call :: later = front ++ rest) (waits : Unfinished (deliveredBy front)) :
    front.length ≤ earlier.length := by
  by_contra longer
  have inside : earlier ++ [call] <+: front ++ rest := ⟨later, by rw [← split]; simp⟩
  have leads : earlier ++ [call] <+: front := by
    apply List.prefix_of_prefix_length_le inside (List.prefix_append front rest)
    rw [List.length_append, List.length_singleton]
    omega
  obtain ⟨more, rfl⟩ := leads
  rw [deliveredBy_append] at waits
  exact asks.not_unfinished (deliveredBy more) waits

theorem LooksUp.decides (asks : LooksUp (deliveredBy (earlier ++ [call])) uri) :
    ¬ Unfinished (deliveredBy (earlier ++ call :: later)) := by
  intro waits
  have passed := asks.passed (List.append_nil _).symm waits
  rw [List.length_append, List.length_cons] at passed
  omega

end Deciding

/-- The calls of a connection determine its answer. -/
theorem Replies.unique {opts : Options} {calls : List ReadCall} {message other : Message}
    (first : Replies opts.directory calls message) (second : Replies opts.directory calls other) :
    message = other := by
  cases first with
  | served split before asks =>
    cases second with
    | served split' before' asks' =>
      have same := split.symm.trans split'
      have length := Nat.le_antisymm (asks'.passed same.symm before) (asks.passed same before')
      obtain ⟨rfl, rest⟩ := List.append_inj same length
      obtain ⟨rfl, -⟩ := List.cons.inj rest
      rw [asks.path_unique asks' opts]
    | refused waits =>
      subst split
      exact absurd waits asks.decides
  | refused waits =>
    cases second with
    | served split before asks =>
      subst split
      exact absurd waits asks.decides
    | refused => rfl

section Message

/-- The bytes that `uv_write` is given. -/
def offered (buf : UvBuf) : List UInt8 := buf.base.take buf.len

theorem offered_outBuf {response : Response} (small : response.mBody.length < 2 ^ 31) :
    offered response.outBuf = response.mBody := by
  have length := (toSizeT_toInt_eq_iff (by omega)).mpr small
  rw [offered, outBuf_len, outBuf_base, length, List.take_length]

/-- A buffer that holds a message and nothing else. -/
structure Carries (buf : UvBuf) (message : Message) : Prop where
  length : buf.len = buf.base.length
  decodes : decode (offered buf) = some message

theorem carries_outBuf {response : Response} {message : Message}
    (small : response.mBody.length < 2 ^ 31) (decoded : decode response.mBody = some message) :
    Carries response.outBuf message where
  length := by rw [outBuf_len, outBuf_base, (toSizeT_toInt_eq_iff (by omega)).mpr small]
  decodes := by rw [offered_outBuf small, decoded]

theorem carries400 : Carries respond400.outBuf badRequest := by
  have length : respond400.mBody.length = 148 := rfl
  exact carries_outBuf (by omega) (decode_makeResponse _ (by decide))

theorem carries404 : Carries respond404.outBuf
    (reply 404 (bytes "Not Found") (bytes "Nothing is found. This is sad")) := by
  have length : respond404.mBody.length = 119 := rfl
  exact carries_outBuf (by omega) (decode_makeResponse _ (by decide))

theorem carries200 {content : List UInt8} (small : content.length + 91 < 2 ^ 31) :
    Carries (respond200 content).outBuf (reply 200 (bytes "OK") content) := by
  have length : (respond200 content).mBody.length < 2 ^ 31 := by
    rw [length_respond200, length200]
    exact (header200_fits_iff content.length).mpr small
  exact carries_outBuf length (decode_makeResponse content (by decide))

variable {opts : Options} {host : Host} {state : RequestParsingState}

/-- The response to a complete request is the file or its absence. -/
theorem carries_stateToResponse (healthy : Healthy host (requestPath opts state))
    (complete : state.complete = true)
    (success : (stateToResponse opts host state).result = .ok (response, after)) :
    Carries response.outBuf (fileReply (diskOf host) (requestPath opts state)) := by
  cases found : host.fopen (requestPath opts state) with
  | none =>
    rw [stateToResponse_missing complete found] at success
    cases success
    simp only [fileReply, diskOf, found, Option.map_none]
    exact carries404
  | some file =>
    have delivers := healthy.delivers _ found
    have small := healthy.small _ found
    rw [stateToResponse_opens complete found delivers.holdsFile] at success
    cases success
    simp only [fileReply, diskOf, found, Option.map_some, contentOf_full delivers.full]
    have bytes := toSizeT_of_nonneg file.ftell_range delivers.nonneg
    have full := delivers.full
    exact carries200 (by omega)

/-- A healthy file is made into a response. -/
theorem Healthy.returns (healthy : Healthy host (requestPath opts state))
    (complete : state.complete = true) :
    ∃ value, (stateToResponse opts host state).result = .ok value := by
  cases found : host.fopen (requestPath opts state) with
  | none => exact ⟨_, by rw [stateToResponse_missing complete found]⟩
  | some file =>
    exact ⟨_, by rw [stateToResponse_opens complete found (healthy.delivers _ found).holdsFile]⟩

end Message

/-- Where a connection stands whose file is healthy: it waits, or it has been given
the answer to its calls. -/
inductive Replied (opts : Options) (seen : List ReadCall) : ClientState → List UvBuf → Prop where
  | waiting (waits : Unfinished (deliveredBy seen)) :
      Replied opts seen { request := deliveredBy seen, responded := false } []
  | served (split : seen = earlier ++ call :: later) (before : Unfinished (deliveredBy earlier))
      (asks : LooksUp (deliveredBy (earlier ++ [call])) uri)
      (carries : Carries buf (fileReply (diskOf call.host) (pathOf opts.directory uri))) :
      Replied opts seen { request := deliveredBy seen, responded := true } [buf]

section Connection

variable {opts : Options} {seen calls : List ReadCall} {call : ReadCall}
  {state next : ClientState} {writes : List UvBuf}

theorem Replied.empty (replied : Replied opts seen state writes) (nonpos : call.nread ≤ 0) :
    Replied opts (seen ++ [call]) state writes := by
  have same : deliveredBy (seen ++ [call]) = deliveredBy seen := by
    rw [deliveredBy_snoc, delivered_of_nonpos nonpos, List.append_nil]
  cases replied with
  | waiting waits =>
    rw [← same] at waits ⊢
    exact .waiting waits
  | served split before asks carries =>
    rw [← same]
    exact .served (by rw [split, List.append_assoc]; rfl) before asks carries

theorem Replied.data (replied : Replied opts seen state writes)
    (healthy : HealthyLookup opts.directory (seen ++ [call])) (positive : 0 < call.nread) :
    ∃ next, (onRead opts state call).result = .ok (some next) ∧
      Replied opts (seen ++ [call]) next (writes ++ written (onRead opts state call).effects) := by
  rw [onRead_data opts state positive]
  cases replied with
  | waiting waits =>
    rw [receive_deliveredBy]
    obtain ⟨rps, parsed, grammar⟩ := parseRequest_parsed { request := deliveredBy (seen ++ [call]) }
    rcases parsed_cases opts grammar with ⟨same, still⟩ | ⟨complete, uri, asks, path⟩
    · rw [checkIfCanRespond_waits opts call parsed (by rw [same]; rfl)]
      exact ⟨_, rfl, .waiting still⟩
    · have file := healthy seen call [] uri rfl waits asks
      rw [← path] at file
      obtain ⟨value, success⟩ := file.returns complete
      have carries := carries_stateToResponse file complete success
      rw [path] at carries
      rw [checkIfCanRespond_answers opts call rfl parsed (.inr complete), answer_of_ok _ success]
      refine ⟨_, rfl, ?_⟩
      rw [Outcome.bind_of_ok rfl, written_append, written_append, written_stateToResponse]
      exact .served rfl waits asks carries
  | served split before asks carries =>
    rw [receive_deliveredBy, checkIfCanRespond_responded opts call (by rfl)]
    exact ⟨_, rfl, .served (by rw [split, List.append_assoc]; rfl) before asks carries⟩

/-- The last call writes the 400 response if nothing was written before. -/
theorem Replied.last (replied : Replied opts seen state writes) (negative : call.nread < 0) :
    (onRead opts state call).result = .ok none ∧
      ∃ buf message, writes ++ written (onRead opts state call).effects = [buf] ∧
        Carries buf message ∧ Replies opts.directory seen message := by
  rw [onRead_end opts state negative]
  cases replied with
  | waiting waits =>
    have parsed : parseRequest { request := deliveredBy seen } = some incomplete :=
      parseRequest_incomplete waits.1 waits.2
    rw [checkIfCanRespond_answers opts call rfl parsed (.inl rfl), answer,
      stateToResponse_incomplete opts call.host rfl]
    exact ⟨rfl, respond400.outBuf, badRequest, rfl, carries400, .refused waits⟩
  | served split before asks carries =>
    rw [checkIfCanRespond_responded opts call (by rfl)]
    exact ⟨rfl, _, _, rfl, carries, .served split before asks⟩

/-- Every call returns, and all but one with a negative `nread` keep the standing. -/
theorem Replied.read (replied : Replied opts seen state writes)
    (healthy : HealthyLookup opts.directory (seen ++ [call])) :
    (call.nread < 0 ∧ (onRead opts state call).result = .ok none) ∨
      ∃ next, (onRead opts state call).result = .ok (some next) ∧
        Replied opts (seen ++ [call]) next (writes ++ written (onRead opts state call).effects) := by
  rcases Int.lt_trichotomy call.nread 0 with negative | zero | positive
  · exact .inl ⟨negative, (replied.last negative).1⟩
  · rw [onRead_empty opts state zero]
    have kept := replied.empty (Int.le_of_eq zero)
    refine .inr ⟨state, rfl, ?_⟩
    rw [show written (pure (some state) : Act _).effects = [] from rfl, List.append_nil]
    exact kept
  · exact .inr (replied.data healthy positive)

theorem onReads_none (opts : Options) (calls : List ReadCall) :
    onReads opts none calls = pure none := by cases calls <;> rfl

/-- Calls that leave the connection open leave it where they should. -/
theorem Replied.reads (replied : Replied opts seen state writes)
    (healthy : HealthyLookup opts.directory (seen ++ calls)) :
    ∃ result, (onReads opts (some state) calls).result = .ok result ∧
      ∀ next ∈ result, Replied opts (seen ++ calls) next
        (writes ++ written (onReads opts (some state) calls).effects) := by
  induction calls generalizing seen state writes with
  | nil =>
    refine ⟨some state, rfl, fun next same => ?_⟩
    cases same
    simpa [onReads, written] using replied
  | cons call calls ih =>
    rw [List.append_cons] at healthy ⊢
    rw [onReads]
    rcases replied.read healthy.front with ⟨-, ended⟩ | ⟨middle, returned, kept⟩
    · rw [Outcome.bind_of_ok ended, onReads_none]
      refine ⟨none, rfl, ?_⟩
      intro next same
      cases same
    · obtain ⟨result, finished, still⟩ := ih kept healthy
      rw [Outcome.bind_of_ok returned]
      refine ⟨result, finished, fun next same => ?_⟩
      simpa [List.append_assoc] using still next same

theorem replied_onAccept (opts : Options) : Replied opts [] onAccept [] := .waiting unfinished_nil

/-- No call of a connection whose file is healthy makes the server throw. -/
theorem onReads_settles (healthy : HealthyLookup opts.directory calls) :
    ∃ result, (onReads opts (some onAccept) calls).result = .ok result := by
  obtain ⟨result, returned, -⟩ := (replied_onAccept opts).reads healthy
  exact ⟨result, returned⟩

theorem replied_of_returned (healthy : HealthyLookup opts.directory calls)
    (returned : (onReads opts (some onAccept) calls).result = .ok (some state)) :
    Replied opts calls state (written (onReads opts (some onAccept) calls).effects) := by
  obtain ⟨result, same, standing⟩ := (replied_onAccept opts).reads healthy
  rw [returned] at same
  cases same
  exact standing state rfl

theorem negative_of_ended {final : ReadCall}
    (ended : (onRead opts state final).result = .ok none) : final.nread < 0 := by
  rcases Int.lt_trichotomy final.nread 0 with negative | zero | positive
  · exact negative
  · rw [onRead_empty opts state zero] at ended
    cases ended
  · rw [onRead_data opts state positive] at ended
    obtain ⟨_, _, impossible⟩ := Outcome.result_bind_ok_iff.mp ended
    cases impossible

/-- Every connection that has ended was given exactly the message for its calls. -/
theorem connection_replies {final : ReadCall}
    (returned : (onReads opts (some onAccept) calls).result = .ok (some state))
    (ended : (onReads opts (some onAccept) (calls ++ [final])).result = .ok none)
    (healthy : HealthyLookup opts.directory calls) :
    final.nread < 0 ∧ ∃ buf message,
      written (onReads opts (some onAccept) (calls ++ [final])).effects = [buf] ∧
      Carries buf message ∧ Replies opts.directory calls message := by
  have replied := replied_of_returned healthy returned
  rw [onReads_snoc opts returned final] at ended ⊢
  have negative := negative_of_ended ended
  rw [written_append]
  exact ⟨negative, (replied.last negative).2⟩

/-- A client that was read from and is closing or closed has its answer. -/
theorem Lived.replies {stage : Stage} {effects : List Effect}
    (lived : Lived opts stage calls effects)
    (ended : stage = .closed ∨ ∃ callback, stage = .closing callback) (read : calls ≠ [])
    (healthy : HealthyLookup opts.directory calls) :
    ∃ front final buf message, calls = front ++ [final] ∧ final.nread < 0 ∧
      written effects = [buf] ∧ Carries buf message ∧
      ∀ other, Replies opts.directory front other ↔ other = message := by
  have answer {front : List ReadCall} {state : ClientState} {final : ReadCall} {reads : List Effect}
      (healthy : HealthyLookup opts.directory (front ++ [final]))
      (before : (onReads opts (some onAccept) front).result = .ok (some state))
      (alone : onReads opts (some onAccept) (front ++ [final]) = ⟨reads, .ok none⟩) :
      final.nread < 0 ∧ ∃ buf message, written reads = [buf] ∧ Carries buf message ∧
        ∀ other, Replies opts.directory front other ↔ other = message := by
    obtain ⟨negative, buf, message, writes, carries, replies⟩ :=
      connection_replies before (by rw [alone]) healthy.front
    rw [alone] at writes
    refine ⟨negative, buf, message, writes, carries, fun other => ⟨fun second => ?_, ?_⟩⟩
    · exact second.unique replies
    · rintro rfl
      exact replies
  cases lived with
  | waiting => exact absurd rfl read
  | placed => exact absurd rfl read
  | reading => simp at ended
  | closing before alone =>
    obtain ⟨negative, buf, message, writes, carries, replies⟩ := answer healthy before alone
    exact ⟨_, _, buf, message, rfl, negative, writes, carries, replies⟩
  | closed before alone =>
    obtain ⟨negative, buf, message, writes, carries, replies⟩ := answer healthy before alone
    refine ⟨_, _, buf, message, rfl, negative, ?_, carries, replies⟩
    rw [written_append, written_enqueue, writes]
    rfl
  | crashed => simp at ended
  | refused => exact absurd rfl read
  | gone => exact absurd rfl read

end Connection

end MailruHttp.Server
