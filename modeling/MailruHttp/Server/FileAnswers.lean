import MailruHttp.Server.Answering
import MailruHttp.Server.Framing
import MailruHttp.Server.Grammar

/-! What becomes of a file on its way into a 200 response: which answers of stdio
the program gets right, and how many bytes it then offers to the socket. -/

namespace MailruHttp.Server

open Library Cmd

/-- The conversion to `size_t` keeps what a string can hold and nothing else. -/
theorem toSizeT_of_nonneg {n : Int} (range : -(2 ^ 63) ≤ n ∧ n < 2 ^ 63) (nonneg : 0 ≤ n) :
    (toSizeT n : Int) = n := by
  unfold toSizeT
  omega

/-- The buffer has the size that was asked for, however much was delivered. -/
theorem length_contentOf (file : File) : (contentOf file).length = toSizeT file.ftell := by
  have delivered := file.fread_le (toSizeT file.ftell)
  simp only [contentOf, freadInto, List.length_append, List.length_drop, List.length_replicate]
  omega

theorem contentOf_full {file : File}
    (full : (file.fread (toSizeT file.ftell)).length = toSizeT file.ftell) :
    contentOf file = file.fread (toSizeT file.ftell) := by
  simp [contentOf, freadInto, full]

theorem respond200_injective {first second : List UInt8}
    (same : respond200 first = respond200 second) : first = second :=
  (makeResponse_injective (by decide) (by decide) (congrArg Response.mBody same)).2.2

/-- The header of a 200 response grows with the digits of the length alone. -/
theorem length_header200 (length : Nat) :
    (headerText 200 (bytes "OK") length ++ headerEnd).length = 81 + (digits length).length := by
  have status : (statusLine 200 (bytes "OK")).length = 15 := rfl
  have connection : (bytes "Connection: close").length = 17 := rfl
  have type : (bytes "Content-type: text/html").length = 23 := rfl
  have name : (bytes "Content-length: ").length = 16 := rfl
  have line : crlf.word.length = 2 := rfl
  have blank : headerEnd.length = 4 := rfl
  simp only [headerText, fieldLines, lengthLine, Delimiter.join, List.length_append, status,
    connection, type, name, line, blank]
  omega

/-- The length of a 200 response for a file of this size. -/
def length200 (size : Nat) : Nat := 81 + (digits size).length + size

theorem length_respond200 (body : List UInt8) :
    (respond200 body).mBody.length = length200 body.length := by
  have built : (respond200 body).mBody = _ := makeResponse_mBody 200 (bytes "OK") body
  rw [built, List.length_append, length_header200, length200]

/-- Whether there is room for a file depends on its size alone. -/
theorem holdsFile_iff {host : Host} {file : File} :
    host.HoldsFile file ↔
      host.Holds (toSizeT file.ftell) ∧ host.Holds (length200 (toSizeT file.ftell)) := by
  have message : (respond200 (contentOf file)).mBody.length = length200 (toSizeT file.ftell) := by
    rw [length_respond200, length_contentOf]
  constructor
  · rintro ⟨content, response⟩
    rw [message] at response
    exact ⟨content, response⟩
  · rintro ⟨content, response⟩
    rw [← message] at response
    exact ⟨content, response⟩

section Stdio

variable (opts : Options) (host : Host) (state : RequestParsingState)

/-- The response is made without an exception, a string is resized only to sizes
it can have, and the body of a 200 response is what `fread` delivered. -/
structure FaithfulAnswer : Prop where
  returns : ∃ value, (stateToResponse opts host state).result = .ok value
  resizes : ∀ file, host.fopen (requestPath opts state) = some file →
    0 ≤ file.ftell ∧ file.ftell ≤ host.maxSize
  body : ∀ response after, (stateToResponse opts host state).result = .ok (response, after) →
    response.code = 200 → ∃ file, host.fopen (requestPath opts state) = some file ∧
      response = respond200 (file.fread (toSizeT file.ftell))

/-- The file has a size, there is room for its content and for the message with it,
and all its bytes can be read. -/
structure DeliversAll (file : File) : Prop where
  nonneg : 0 ≤ file.ftell
  content : host.Holds (toSizeT file.ftell)
  message : host.Holds (length200 (toSizeT file.ftell))
  full : (file.fread (toSizeT file.ftell)).length = toSizeT file.ftell

variable {opts host state}

theorem DeliversAll.holdsFile {file : File} (delivers : DeliversAll host file) :
    host.HoldsFile file := holdsFile_iff.mpr ⟨delivers.content, delivers.message⟩

theorem FaithfulAnswer.deliversAll (faithful : FaithfulAnswer opts host state)
    (complete : state.complete = true) {file : File}
    (opens : host.fopen (requestPath opts state) = some file) : DeliversAll host file := by
  obtain ⟨nonneg, -⟩ := faithful.resizes file opens
  obtain ⟨value, returned⟩ := faithful.returns
  have room := holds_of_returned complete opens returned
  have made : (stateToResponse opts host state).result =
      .ok (respond200 (contentOf file), indexed state) := by
    rw [stateToResponse_opens complete opens room]
  obtain ⟨same, found, delivered⟩ := faithful.body _ _ made rfl
  rw [opens] at found
  cases found
  have read := respond200_injective delivered
  obtain ⟨content, message⟩ := holdsFile_iff.mp room
  refine ⟨nonneg, content, message, ?_⟩
  rw [← read, length_contentOf]

theorem faithful_of_deliversAll (complete : state.complete = true)
    (delivers : ∀ file, host.fopen (requestPath opts state) = some file → DeliversAll host file) :
    FaithfulAnswer opts host state := by
  cases found : host.fopen (requestPath opts state) with
  | none =>
    have made := stateToResponse_missing complete found
    refine ⟨⟨_, by rw [made]⟩, ?_, ?_⟩
    · intro file opens
      rw [found] at opens
      cases opens
    · intro response after returned success
      rw [made] at returned
      cases returned
      cases success
  | some file =>
    have all := delivers file found
    have made := stateToResponse_opens complete found all.holdsFile
    refine ⟨⟨_, by rw [made]⟩, ?_, ?_⟩
    · intro other opens
      rw [found] at opens
      cases opens
      have size := toSizeT_of_nonneg file.ftell_range all.nonneg
      have short := all.content.short
      exact ⟨all.nonneg, by omega⟩
    · intro response after returned _
      rw [made] at returned
      cases returned
      exact ⟨file, found, by rw [contentOf_full all.full]⟩

end Stdio

/-- The answer to a complete request is faithful to its file exactly when the file
does not open, or there is room for it and for the message and all of it is read. -/
theorem faithful_answer_iff (opts : Options) (host : Host) {state : RequestParsingState}
    (complete : state.complete = true) :
    FaithfulAnswer opts host state ↔
      ∀ file, host.fopen (requestPath opts state) = some file → DeliversAll host file :=
  ⟨fun faithful _ opens => faithful.deliversAll complete opens, faithful_of_deliversAll complete⟩

theorem faithful_answer_iff_index : FaithfulAnswer {} greeting (accepted (bytes "/")) := by
  apply (faithful_answer_iff {} greeting rfl).mpr
  intro file opens
  cases opens
  exact ⟨by decide, ⟨by decide, rfl⟩, ⟨by decide, rfl⟩, rfl⟩

/-- A named pipe opens but has no position, so that `ftell` fails. -/
def File.pipe : File where
  ftell := -1
  ftell_range := by decide
  fread _ := []
  fread_le _ := Nat.zero_le _

/-- Where `index.html` is a named pipe, the request for `/` ends in an exception. -/
theorem pipe_throws :
    ¬ ∀ (opts : Options) (host : Host) (state : RequestParsingState), state.complete = true →
      FaithfulAnswer opts host state := by
  intro faithful
  obtain ⟨value, returned⟩ := (faithful {} (Host.single (bytes "./index.html") File.pipe)
    (accepted (bytes "/")) rfl).returns
  have opens : (Host.single (bytes "./index.html") File.pipe).fopen
      (requestPath {} (accepted (bytes "/"))) = some File.pipe := rfl
  obtain ⟨content, -⟩ := holds_of_returned rfl opens returned
  exact absurd content.short (by decide)

/-- Through `int` and back, a size survives exactly when it fits an `int`. -/
theorem toSizeT_toInt_eq_iff {n : Nat} (small : n < 2 ^ 63 + 2 ^ 62) :
    toSizeT (toInt n) = n ↔ n < 2 ^ 31 := by
  unfold toSizeT toInt
  rw [Int.bmod_eq_emod]
  split <;> omega

theorem outBuf_len (response : Response) :
    response.outBuf.len = toSizeT (toInt response.mBody.length) := by
  simp only [Response.outBuf, Response.length]

theorem outBuf_base (response : Response) : response.outBuf.base = response.mBody := rfl

theorem length_digits_le_iff {n k : Nat} (positive : 0 < k) :
    (digits n).length ≤ k ↔ n < 10 ^ k := by
  rw [digits, List.length_map, Nat.length_toDigits_le_iff (by omega) positive]

theorem length200_le {size k : Nat} (positive : 0 < k) (small : size < 10 ^ k) :
    length200 size ≤ 81 + k + size := by
  have width := (length_digits_le_iff positive).mpr small
  unfold length200
  omega

/-- Header and file fit an `int` together up to a size of ten digits. -/
theorem header200_fits_iff (n : Nat) : 81 + (digits n).length + n < 2 ^ 31 ↔ n + 91 < 2 ^ 31 := by
  have ten : (digits n).length ≤ 10 ↔ n < 10 ^ 10 := length_digits_le_iff (by omega)
  have nine : (digits n).length ≤ 9 ↔ n < 10 ^ 9 := length_digits_le_iff (by omega)
  omega

/-- The buffer of a 200 response is as long as it says exactly for small files. -/
theorem outBuf_respond200 (body : List UInt8) (small : body.length < 2 ^ 63) :
    (respond200 body).outBuf.len =
        (headerText 200 (bytes "OK") body.length ++ headerEnd).length + body.length ↔
      body.length + 91 < 2 ^ 31 := by
  have size := length_respond200 body
  have width : (digits body.length).length ≤ 20 :=
    (length_digits_le_iff (by omega)).mpr (by omega)
  rw [length200] at size
  rw [outBuf_len, length_header200, ← size, toSizeT_toInt_eq_iff (by omega), size,
    header200_fits_iff]

/-- The answer to a complete request writes one buffer, with a header that
announces the size of the file. -/
theorem written_file {opts : Options} {call : ReadCall} {state : ClientState}
    {rps : RequestParsingState} {file : File} {value : Response × RequestParsingState}
    (fresh : state.responded = false) (parsed : parseRequest state = some rps)
    (complete : rps.complete = true) (opens : call.host.fopen (requestPath opts rps) = some file)
    (read : (stateToResponse opts call.host rps).result = .ok value) (require : Bool) :
    written (checkIfCanRespond opts call state require).effects =
      [(respond200 (contentOf file)).outBuf] := by
  have made : (stateToResponse opts call.host rps).result =
      .ok (respond200 (contentOf file), indexed rps) := by
    rw [stateToResponse_opens complete opens (holds_of_returned complete opens read)]
  rw [checkIfCanRespond_answers opts call fresh parsed (.inr complete), answer_of_ok state made,
    written_append, written_stateToResponse]
  rfl

theorem length_contentOf_eq {file : File} {n : Nat} (size : file.ftell = n) :
    (contentOf file).length = n := by
  obtain ⟨-, below⟩ := file.ftell_range
  rw [length_contentOf, size]
  unfold toSizeT
  omega

/-- For a file that is read into a 200 response, the buffer passed to `uv_write`
announces its size, and has the length of the header and the file exactly when
these fit an `int`: up to 2147483556 bytes. -/
theorem whole_file_offered_iff {opts : Options} {call : ReadCall} {state : ClientState}
    {rps : RequestParsingState} {file : File} {n : Nat} {value : Response × RequestParsingState}
    (fresh : state.responded = false) (parsed : parseRequest state = some rps)
    (complete : rps.complete = true) (opens : call.host.fopen (requestPath opts rps) = some file)
    (size : file.ftell = n) (read : (stateToResponse opts call.host rps).result = .ok value)
    (require : Bool) :
    ∃ buf header body message,
      written (checkIfCanRespond opts call state require).effects = [buf] ∧
      cut headerEnd buf.base = some (header, body) ∧
      decode buf.base = some message ∧ message.code = 200 ∧ message.contentLength = n ∧
      (buf.len = (header ++ headerEnd).length + n ↔ n + 91 < 2 ^ 31) := by
  have writes := written_file fresh parsed complete opens read require
  have length := length_contentOf_eq size
  have range := file.ftell_range
  generalize contentOf file = body at writes length
  obtain rfl : n = body.length := length.symm
  refine ⟨_, _, body, _, writes, cut_makeResponse body (by decide), decode_makeResponse body (by decide),
    rfl, rfl, outBuf_respond200 body (by omega)⟩

theorem whole_file_offered_iff_index :
    ∃ buf header body message,
      written (checkIfCanRespond {} (.data greeting 0 (bytes "GET /\r\n") (by decide))
        { request := bytes "GET /\r\n" } false).effects = [buf] ∧
      cut headerEnd buf.base = some (header, body) ∧
      decode buf.base = some message ∧ message.code = 200 ∧ message.contentLength = 2 ∧
      (buf.len = (header ++ headerEnd).length + 2 ↔ 2 + 91 < 2 ^ 31) := by
  obtain ⟨value, returned⟩ := greeting_returns (accepted (bytes "/"))
  exact whole_file_offered_iff rfl (show parseRequest _ = some (accepted (bytes "/")) from rfl) rfl
    rfl rfl returned false

/-- A file of 2 GiB that is all zeros. -/
def File.zeros : File where
  ftell := 2 ^ 31
  ftell_range := by decide
  fread size := List.replicate (min size (2 ^ 31)) 0
  fread_le size := by
    rw [List.length_replicate]
    exact Nat.min_le_left _ _

theorem holds_zeros (path : List UInt8) : (Host.single path File.zeros).HoldsFile File.zeros := by
  have holds {size : Nat} (short : size ≤ 2 ^ 62) : (Host.single path File.zeros).Holds size :=
    ⟨short, rfl⟩
  have message : length200 (2 ^ 31) ≤ 81 + 10 + 2 ^ 31 := length200_le (by omega) (by omega)
  exact holdsFile_iff.mpr ⟨holds (by omega : 2 ^ 31 ≤ 2 ^ 62),
    holds (Nat.le_trans message (by omega))⟩

/-- Of a file of 2 GiB not the whole response is offered. -/
theorem large_file_not_offered :
    ¬ ∀ (opts : Options) (call : ReadCall) (state : ClientState) (rps : RequestParsingState)
      (file : File) (n : Nat) (value : Response × RequestParsingState), state.responded = false →
      parseRequest state = some rps → rps.complete = true →
      call.host.fopen (requestPath opts rps) = some file → file.ftell = n →
      (stateToResponse opts call.host rps).result = .ok value →
      ∃ buf header body, written (checkIfCanRespond opts call state false).effects = [buf] ∧
        cut headerEnd buf.base = some (header, body) ∧
        buf.len = (header ++ headerEnd).length + n := by
  intro offered
  let call : ReadCall :=
    .data (Host.single (bytes "./index.html") File.zeros) 0 (bytes "GET /\r\n") (by decide)
  let state : ClientState := { request := bytes "GET /\r\n" }
  have parsed : parseRequest state = some (accepted (bytes "/")) := rfl
  have opens : call.host.fopen (requestPath {} (accepted (bytes "/"))) = some File.zeros := rfl
  have read : (stateToResponse {} call.host (accepted (bytes "/"))).result =
      .ok (respond200 (contentOf File.zeros), indexed (accepted (bytes "/"))) := by
    rw [stateToResponse_opens rfl opens (holds_zeros _)]
  obtain ⟨buf, header, text, writes, cutAt, whole⟩ :=
    offered {} call state _ File.zeros (2 ^ 31) _ rfl parsed rfl opens rfl read
  have written := written_file rfl parsed rfl opens read false
  have length : (contentOf File.zeros).length = 2 ^ 31 := length_contentOf_eq rfl
  generalize contentOf File.zeros = body at written length
  obtain rfl : (respond200 body).outBuf = buf := List.singleton_inj.mp (written.symm.trans writes)
  have found : cut headerEnd (respond200 body).mBody =
      some (headerText 200 (bytes "OK") body.length, body) := cut_makeResponse body (by decide)
  rw [outBuf_base, found] at cutAt
  obtain ⟨rfl, -⟩ := Prod.mk.inj (Option.some.inj cutAt)
  rw [← length] at whole
  have small := (outBuf_respond200 body (by omega)).mp whole
  omega

end MailruHttp.Server
