import Mathlib.Algebra.GroupWithZero.Nat
import MailruHttp.Server.Reply

/-! What the peer of a connection makes of the bytes it gets. A message announces
its length, so none is taken for whole before all of it is there. -/

namespace MailruHttp.Server

open Library Cmd

/-- The message of a text, if all of the body is there that its header announces. -/
def complete (text : List UInt8) : Option Message :=
  (decode text).filter fun message => message.contentLength == message.body.length

theorem complete_eq_some_iff {text : List UInt8} {message : Message} :
    complete text = some message ↔
      decode text = some message ∧ message.contentLength = message.body.length := by
  simp [complete, Option.filter_eq_some_iff]

/-- Texts with one header say the same up to their bodies. -/
theorem decode_body {text short header body part : List UInt8} {message : Message}
    (found : cut headerEnd text = some (header, body))
    (other : cut headerEnd short = some (header, part)) (decoded : decode text = some message) :
    message.body = body ∧ decode short = some { message with body := part } := by
  unfold decode at decoded ⊢
  simp only [found, other, Option.bind_eq_bind, Option.bind_some, Option.bind_eq_some_iff] at decoded ⊢
  obtain ⟨line, first, ⟨version, code, reason⟩, status, length, announced, made⟩ := decoded
  cases made
  exact ⟨rfl, line, first, _, status, length, announced, rfl⟩

/-- A proper prefix of a whole message is none. -/
theorem complete_take {text : List UInt8} {message : Message} (whole : complete text = some message)
    {k : Nat} (short : k < text.length) : complete (text.take k) = none := by
  obtain ⟨decoded, announced⟩ := complete_eq_some_iff.mp whole
  cases found : cut headerEnd text with
  | none => simp [decode, found] at decoded
  | some parts =>
    obtain ⟨header, body⟩ := parts
    rcases cut_take found k with ⟨-, none⟩ | ⟨j, place, other⟩
    · simp [complete, decode, none]
    · obtain ⟨same, rest⟩ := decode_body found other decoded
      obtain ⟨split, -⟩ := cut_eq_some_iff.mp found
      have length := congrArg List.length split
      simp only [List.length_append] at length
      have shorter : (message.contentLength == (body.take j).length) = false := by
        rw [announced, same, List.length_take, beq_eq_false_iff_ne]
        omega
      simp only [complete, rest, Option.filter_some, shorter, Bool.false_eq_true, ↓reduceIte]

theorem complete_makeResponse (code : Nat) {reason : List UInt8} (noCR : byte '\r' ∉ reason)
    (body : List UInt8) :
    complete (makeResponse code reason body).mBody =
      some ⟨bytes "HTTP/1.0", code, reason, body.length, body⟩ :=
  complete_eq_some_iff.mpr ⟨decode_makeResponse body noCR, rfl⟩

/-- No response begins with another one, so that a reader knows where each ends. -/
theorem makeResponse_prefix_free {code other : Int} (nonneg : 0 ≤ code) (otherNonneg : 0 ≤ other)
    {reason word : List UInt8} (noCR : byte '\r' ∉ reason) (otherNoCR : byte '\r' ∉ word)
    (body text : List UInt8) :
    (makeResponse code reason body).mBody <+: (makeResponse other word text).mBody ↔
      code = other ∧ reason = word ∧ body = text := by
  constructor
  · intro begins
    obtain ⟨code, rfl⟩ := Int.eq_ofNat_of_zero_le nonneg
    obtain ⟨other, rfl⟩ := Int.eq_ofNat_of_zero_le otherNonneg
    have whole := complete_makeResponse code noCR body
    have taken := List.prefix_iff_eq_take.mp begins
    rcases Nat.lt_or_ge (makeResponse code reason body).mBody.length
        (makeResponse other word text).mBody.length with short | all
    · rw [taken, complete_take (complete_makeResponse other otherNoCR text) short] at whole
      cases whole
    · rw [List.take_of_length_le all] at taken
      obtain ⟨rfl, rest⟩ := makeResponse_injective noCR otherNoCR taken
      exact ⟨rfl, rest⟩
  · rintro ⟨rfl, rfl, rfl⟩
    exact List.prefix_refl _

/-- A body that is a response itself. -/
theorem makeResponse_prefix_free_nested :
    ¬ (makeResponse 200 (bytes "OK") []).mBody <+:
      (makeResponse 200 (bytes "OK") (makeResponse 200 (bytes "OK") []).mBody).mBody := by
  intro begins
  have same := (makeResponse_prefix_free (by decide) (by decide) (by decide) (by decide) _ _).mp begins
  exact absurd same.2.2 (by decide)

/-- The bytes that go out during the call itself, while the response still exists. -/
def Effect.sentAtOnce : Effect → List UInt8
  | .uvWrite buf answer => if answer.result = 0 then (offered buf).take answer.accepted else []
  | _ => []

def sentAtOnce (effects : List Effect) : List UInt8 := effects.flatMap Effect.sentAtOnce

/-- What a peer may have got: as many bytes as libuv has sent, beginning with those
sent at once. The others were read after the response was deleted and can be anything. -/
structure Arrives (handle : Handle) (effects : List Effect) (text : List UInt8) : Prop where
  length : text.length = handle.sent
  begins : sentAtOnce effects <+: text

theorem sentAtOnce_nil {effects : List Effect} (silent : written effects = []) :
    sentAtOnce effects = [] := by
  apply List.flatMap_eq_nil_iff.mpr
  intro effect member
  have unwritten := List.filterMap_eq_nil_iff.mp silent effect member
  cases effect with
  | uvWrite buf answer => cases unwritten
  | _ => rfl

theorem sentAtOnce_take {effects : List Effect} {buf : UvBuf} (writes : written effects = [buf]) :
    ∃ k, sentAtOnce effects = (offered buf).take k := by
  induction effects with
  | nil => cases writes
  | cons effect rest ih =>
    cases effect with
    | uvWrite other answer =>
      obtain ⟨rfl, silent⟩ := List.cons.inj (writes : other :: written rest = [buf])
      have alone : sentAtOnce (.uvWrite other answer :: rest) =
          Effect.sentAtOnce (.uvWrite other answer) := by
        rw [sentAtOnce, List.flatMap_cons, ← sentAtOnce, sentAtOnce_nil silent, List.append_nil]
      rw [alone, Effect.sentAtOnce]
      split
      · exact ⟨answer.accepted, rfl⟩
      · exact ⟨0, rfl⟩
    | _ => exact ih writes

section Ledger

/-- The calls of a callback on a sound ledger leave it sound. -/
theorem record_ledger (effects : List Effect) {handle : Handle} (sound : handle.sent ≤ handle.given) :
    (effects.foldl Handle.record handle).sent ≤ (effects.foldl Handle.record handle).given ∧
      (effects.foldl Handle.record handle).given ≤
        handle.given + ((written effects).map UvBuf.len).sum := by
  induction effects generalizing handle with
  | nil => exact ⟨sound, Nat.le_add_right ..⟩
  | cons effect rest ih =>
    rw [List.foldl_cons]
    cases effect with
    | uvWrite buf answer =>
      have writes : written (.uvWrite buf answer :: rest) = buf :: written rest := rfl
      rw [writes, List.map_cons, List.sum_cons, Handle.record]
      split
      · have kept : handle.sent + min answer.accepted buf.len ≤ handle.given + buf.len := by omega
        obtain ⟨less, bounded⟩ := @ih
          { handle with
            given := handle.given + buf.len
            sent := handle.sent + min answer.accepted buf.len } kept
        exact ⟨less, by simpa only [Nat.add_assoc] using bounded⟩
      · obtain ⟨less, bounded⟩ := ih sound
        exact ⟨less, by omega⟩
    | _ => exact ih sound

theorem after_ledger (opts : Options) {handle : Handle} {event : Event}
    (sound : (handle.enter event).sent ≤ handle.given) :
    (handle.after opts event).sent ≤ (handle.after opts event).given ∧
      (handle.after opts event).given ≤
        handle.given + ((written (effectsOf opts handle event)).map UvBuf.len).sum := by
  have same : (handle.enter event).given = handle.given := by cases event <;> rfl
  have recorded := record_ledger (effectsOf opts handle event) (sound.trans_eq same.symm)
  rwa [same] at recorded

/-- No more is sent than was given to `uv_write`. -/
theorem ledger_run {opts : Options} {history : List (Handle × Event)} {handle : Handle}
    (run : Run (HandleStep opts) {} history handle) :
    handle.sent ≤ handle.given ∧
      handle.given ≤ ((written (emitted opts history)).map UvBuf.len).sum := by
  induction run with
  | start => exact ⟨Nat.le_refl 0, Nat.le_refl 0⟩
  | @next history handle event after earlier taken ih =>
    obtain ⟨sound, bounded⟩ := ih
    rw [emitted_snoc, written_append, List.map_append, List.sum_append]
    have quiet (entered : (handle.enter event).sent ≤ handle.given) := after_ledger opts entered
    cases taken with
    | accept placed => exact ⟨sound, Nat.le_add_right_of_le bounded⟩
    | progress reading queued =>
      obtain ⟨less, given⟩ := quiet queued
      exact ⟨less, by omega⟩
    | _ =>
      obtain ⟨less, given⟩ := quiet sound
      exact ⟨less, Nat.le_trans given (Nat.add_le_add_right bounded _)⟩

end Ledger

/-- The call that ends a connection decides nothing. -/
theorem Replies.snoc {directory : List UInt8} {calls : List ReadCall} {message : Message}
    (replies : Replies directory calls message) {final : ReadCall} (nonpos : final.nread ≤ 0) :
    Replies directory (calls ++ [final]) message := by
  cases replies with
  | served split before asks => exact .served (by rw [split, List.append_assoc]; rfl) before asks
  | refused waits =>
    have same : deliveredBy (calls ++ [final]) = deliveredBy calls := by
      rw [deliveredBy_snoc, delivered_of_nonpos nonpos, List.append_nil]
    rw [← same] at waits
    exact .refused waits

theorem Replies.contentLength {directory : List UInt8} {calls : List ReadCall} {message : Message}
    (replies : Replies directory calls message) : message.contentLength = message.body.length := by
  cases replies with
  | served =>
    unfold fileReply
    split <;> rfl
  | refused => rfl

/-- Whatever stage a client has come to, nothing was offered to its peer, or the one
message that its calls ask for. -/
theorem Lived.offers {opts : Options} {stage : Stage} {calls : List ReadCall}
    {effects : List Effect} (lived : Lived opts stage calls effects)
    (healthy : HealthyLookup opts.directory calls) :
    stage ≠ .crashed ∧ (written effects = [] ∨
      ∃ buf message, written effects = [buf] ∧ Carries buf message ∧
        ∀ other, Replies opts.directory calls other ↔ other = message) := by
  have asked {message : Message} (replies : Replies opts.directory calls message) (other : Message) :
      Replies opts.directory calls other ↔ other = message := by
    constructor
    · exact fun second => second.unique replies
    · rintro rfl
      exact replies
  have ended (ended : stage = .closed ∨ ∃ callback, stage = .closing callback) (read : calls ≠ []) :
      ∃ buf message, written effects = [buf] ∧ Carries buf message ∧
        ∀ other, Replies opts.directory calls other ↔ other = message := by
    obtain ⟨front, final, buf, message, rfl, negative, writes, carries, replies⟩ :=
      lived.replies ended read healthy
    have replied := ((replies message).mpr rfl).snoc (Int.le_of_lt negative)
    exact ⟨buf, message, writes, carries, asked replied⟩
  cases lived with
  | waiting => exact ⟨nofun, .inl rfl⟩
  | placed => exact ⟨nofun, .inl rfl⟩
  | refused => exact ⟨nofun, .inl rfl⟩
  | gone => exact ⟨nofun, .inl rfl⟩
  | closing => exact ⟨nofun, .inr (ended (.inr ⟨_, rfl⟩) (by simp))⟩
  | closed => exact ⟨nofun, .inr (ended (.inl rfl) (by simp))⟩
  | reading alone =>
    refine ⟨nofun, ?_⟩
    have replied := replied_of_returned healthy (by rw [alone])
    rw [alone] at replied
    generalize writes : written _ = offers at replied
    cases replied with
    | waiting => exact .inl writes
    | served split before asks carries =>
      exact .inr ⟨_, _, writes, carries, asked (.served split before asks)⟩
  | crashed alone =>
    obtain ⟨result, returned⟩ := onReads_settles healthy
    rw [alone] at returned
    cases returned

section Sent

variable {opts : Options} {stage : Stage} {calls : List ReadCall} {effects : List Effect}

/-- What was sent at once is a whole message when it is all of the answer, and then
it is the one that the calls ask for. -/
theorem Lived.sends (lived : Lived opts stage calls effects)
    (healthy : HealthyLookup opts.directory calls) (message : Message) :
    complete (sentAtOnce effects) = some message ↔
      ∃ buf, written effects = [buf] ∧ sentAtOnce effects = offered buf ∧
        Replies opts.directory calls message := by
  obtain ⟨-, silent | ⟨buf, answer, writes, carries, asked⟩⟩ := lived.offers healthy
  · rw [sentAtOnce_nil silent, silent]
    exact ⟨nofun, nofun⟩
  · have announced := ((asked answer).mpr rfl).contentLength
    have whole := complete_eq_some_iff.mpr ⟨carries.decodes, announced⟩
    obtain ⟨k, taken⟩ := sentAtOnce_take writes
    rw [taken, writes]
    constructor
    · intro got
      rcases Nat.lt_or_ge k (offered buf).length with short | all
      · rw [complete_take whole short] at got
        cases got
      · rw [List.take_of_length_le all] at got ⊢
        exact ⟨buf, rfl, rfl, (asked message).mpr (Option.some.inj (got.symm.trans whole))⟩
    · rintro ⟨other, same, all, replies⟩
      cases same
      rw [all, (asked message).mp replies]
      exact whole

/-- After an answer that was sent at once nothing more arrives. -/
theorem Lived.arrives {handle : Handle} (lived : Lived opts handle.stage calls effects)
    (healthy : HealthyLookup opts.directory calls) (sound : handle.sent ≤ handle.given)
    (bounded : handle.given ≤ ((written effects).map UvBuf.len).sum) {text : List UInt8}
    (arrives : Arrives handle effects text)
    (all : sentAtOnce effects = (written effects).flatMap offered) : text = sentAtOnce effects := by
  have lengths : ((written effects).map UvBuf.len).sum = (sentAtOnce effects).length := by
    rw [all]
    obtain ⟨-, silent | ⟨buf, answer, writes, carries, -⟩⟩ := lived.offers healthy
    · rw [silent]
      rfl
    · rw [writes, List.flatMap_singleton, offered, carries.length, List.take_length]
      exact carries.length
  have length := arrives.length
  exact (arrives.begins.eq_of_length_le (by omega)).symm

end Sent

end MailruHttp.Server
