import MailruHttp.Library.Delimited
import MailruHttp.Server.Response

/-! A reference decoder for the messages of `makeResponse`: it finds the end of
the header, reads the first line and the announced length, and undoes the build. -/

namespace MailruHttp.Server

open Library

def crlf : Delimiter UInt8 := ⟨byte '\r', [byte '\n'], by decide⟩

def space : Delimiter UInt8 := ⟨byte ' ', [], by decide⟩

/-- The first empty line. -/
def headerEnd : List UInt8 := crlf.word ++ crlf.word

def isDigit (c : UInt8) : Bool := byte '0' ≤ c && c ≤ byte '9'

/-- A decimal number, which is digits and nothing else. -/
def readDecimal (digits : List UInt8) : Option Nat :=
  if digits ≠ [] ∧ digits.all isDigit then
    some (digits.foldl (fun n c => 10 * n + (c.toNat - (byte '0').toNat)) 0)
  else none

/-- What a message says: the three parts of its first line, the length it
announces, and the bytes after its header. -/
structure Message where
  version : List UInt8
  code : Nat
  reason : List UInt8
  contentLength : Nat
  body : List UInt8
  deriving DecidableEq, Repr

/-- The first line, divided at its first two spaces. -/
def readStatus (line : List UInt8) : Option (List UInt8 × Nat × List UInt8) := do
  let (version, rest) ← cut space.word line
  let (code, reason) ← cut space.word rest
  return (version, ← readDecimal code, reason)

/-- The number on the one line of the header that announces the length. -/
def readLength (lines : List (List UInt8)) : Option Nat :=
  let name := bytes "Content-length: "
  match lines.filter name.isPrefixOf with
  | [line] => readDecimal (line.drop name.length)
  | _ => none

def decode (message : List UInt8) : Option Message := do
  let (header, body) ← cut headerEnd message
  let lines := crlf.split header
  let (version, code, reason) ← readStatus (← lines.head?)
  return ⟨version, code, reason, ← readLength lines, body⟩

/-- The digits the output stream prints for a number that is not negative. -/
def digits (n : Nat) : List UInt8 := (Nat.toDigits 10 n).map byte

theorem decimal_eq_digits {n : Int} (nonneg : 0 ≤ n) : decimal n = digits n.toNat := by
  have same : n.natAbs = n.toNat := by omega
  have sign : ¬ n < 0 := by omega
  rw [decimal, if_neg sign, List.nil_append, same, digits]

/-- A digit is a small character, so that it is not changed as a byte. -/
theorem digit_byte {c : Char} (digit : c.isDigit = true) :
    isDigit (byte c) = true ∧ (byte c).toNat = c.toNat := by
  simp only [Char.isDigit, Bool.and_eq_true, decide_eq_true_eq, ge_iff_le] at digit
  have lower : 48 ≤ c.toNat := UInt32.le_iff_toNat_le.mp digit.1
  have upper : c.toNat ≤ 57 := UInt32.le_iff_toNat_le.mp digit.2
  have kept : (byte c).toNat = c.toNat := by
    unfold byte
    rw [UInt8.toNat_ofNat']
    omega
  refine ⟨?_, kept⟩
  unfold isDigit
  simp only [Bool.and_eq_true, decide_eq_true_eq, UInt8.le_iff_toNat_le, kept]
  exact ⟨lower, upper⟩

theorem mem_digits {n : Nat} {c : UInt8} (member : c ∈ digits n) : isDigit c = true := by
  obtain ⟨char, inside, same⟩ := List.mem_map.mp member
  have digit := Nat.isDigit_of_mem_toDigits (by decide) (by decide) inside
  rw [← same]
  exact (digit_byte digit).1

theorem digits_ne_nil (n : Nat) : digits n ≠ [] := by
  unfold digits
  simp [Nat.toDigits_ne_nil]

/-- The value of printed digits. -/
theorem foldl_digits (n : Nat) :
    (digits n).foldl (fun n c => 10 * n + (c.toNat - (byte '0').toNat)) 0 = n := by
  have value (chars : List Char) (valid : ∀ c ∈ chars, c.isDigit = true) (start : Nat) :
      (chars.map byte).foldl (fun n c => 10 * n + (c.toNat - (byte '0').toNat)) start =
        Nat.ofDigitChars 10 chars start := by
    induction chars generalizing start with
    | nil => simp
    | cons c chars ih =>
      have kept := (digit_byte (valid c (by simp))).2
      rw [List.map_cons, List.foldl_cons, ih (fun c member => valid c (by simp [member])), kept,
        Nat.ofDigitChars_cons]
      rfl
  have valid : ∀ c ∈ Nat.toDigits 10 n, c.isDigit = true :=
    fun c member => Nat.isDigit_of_mem_toDigits (by decide) (by decide) member
  rw [digits, value _ valid, Nat.ofDigitChars_ten_toDigits]

/-- Reading back a printed number. -/
theorem readDecimal_digits (n : Nat) : readDecimal (digits n) = some n := by
  have all : (digits n).all isDigit = true := List.all_eq_true.mpr fun c member => mem_digits member
  rw [readDecimal, if_pos ⟨digits_ne_nil n, all⟩, foldl_digits]

theorem not_mem_digits {n : Nat} {c : UInt8} (other : isDigit c = false) : c ∉ digits n := by
  intro member
  rw [mem_digits member] at other
  cases other

section MakeResponse

variable (code : Nat) (reason body : List UInt8)

def statusLine : List UInt8 :=
  bytes "HTTP/1.0" ++ space.word ++ (digits code ++ space.word ++ reason)

def lengthLine (length : Nat) : List UInt8 := bytes "Content-length: " ++ digits length

/-- The lines after the first one. -/
def fieldLines (length : Nat) : List (List UInt8) :=
  [bytes "Connection: close", bytes "Content-type: text/html", lengthLine length]

def headerText (length : Nat) : List UInt8 :=
  crlf.join (statusLine code reason) (fieldLines length)

/-- The message is its header lines, an empty line and the body. -/
theorem makeResponse_mBody :
    (makeResponse code reason body).mBody =
      headerText code reason body.length ++ headerEnd ++ body := by
  have status : bytes "HTTP/1.0 " = bytes "HTTP/1.0" ++ space.word := by decide
  have connection : bytes "Connection: close\r\n" = bytes "Connection: close" ++ crlf.word := by decide
  have type : bytes "Content-type: text/html\r\n" = bytes "Content-type: text/html" ++ crlf.word := by
    decide
  have blank : bytes "\r\n\r\n" = headerEnd := by decide
  have line : bytes "\r\n" = crlf.word := by decide
  have gap : bytes " " = space.word := by decide
  simp only [makeResponse, decimal_eq_digits (Int.natCast_nonneg _), Int.toNat_natCast, status,
    connection, type, blank, line, gap, headerText, fieldLines, lengthLine, statusLine,
    Delimiter.join, List.append_assoc]

variable {code reason}

theorem statusLine_free (noCR : byte '\r' ∉ reason) : crlf.head ∉ statusLine code reason := by
  have number : byte '\r' ∉ digits code := not_mem_digits (by decide)
  have version : byte '\r' ∉ bytes "HTTP/1.0" ++ space.word := by decide
  have gap : byte '\r' ∉ space.word := by decide
  unfold statusLine
  simp only [List.mem_append, not_or] at version ⊢
  exact ⟨version, ⟨number, gap⟩, noCR⟩

theorem lengthLine_free (length : Nat) : crlf.head ∉ lengthLine length := by
  have number : byte '\r' ∉ digits length := not_mem_digits (by decide)
  have name : byte '\r' ∉ bytes "Content-length: " := by decide
  unfold lengthLine
  simp only [List.mem_append, not_or]
  exact ⟨name, number⟩

theorem headerText_free (noCR : byte '\r' ∉ reason) (length : Nat) :
    ∀ line ∈ statusLine code reason :: fieldLines length, crlf.head ∉ line := by
  intro line member
  simp only [fieldLines, List.mem_cons, List.not_mem_nil, or_false] at member
  rcases member with rfl | rfl | rfl | rfl
  · exact statusLine_free noCR
  · decide
  · decide
  · exact lengthLine_free length

theorem fieldLines_full (length : Nat) : ∀ line ∈ fieldLines length, line ≠ [] := by
  intro line member
  simp only [fieldLines, List.mem_cons, List.not_mem_nil, or_false] at member
  rcases member with rfl | rfl | rfl
  · decide
  · decide
  · exact fun empty => absurd (List.append_eq_nil_iff.mp empty).1 (by decide)

/-- The first CRLF CRLF of a message is the one the program put there. -/
theorem cut_makeResponse (noCR : byte '\r' ∉ reason) :
    cut headerEnd (makeResponse code reason body).mBody =
      some (headerText code reason body.length, body) := by
  rw [makeResponse_mBody]
  exact Delimiter.cut_paragraph (headerText_free noCR _) (fieldLines_full _) body

theorem readStatus_statusLine :
    readStatus (statusLine code reason) = some (bytes "HTTP/1.0", code, reason) := by
  have version : space.head ∉ bytes "HTTP/1.0" := by decide
  have number : space.head ∉ digits code := not_mem_digits (by decide)
  unfold readStatus statusLine
  simp only [Delimiter.cut_line _ version, Delimiter.cut_line _ number, readDecimal_digits,
    Option.bind_eq_bind, Option.bind_some, Option.pure_def]

/-- Of the four lines only the last announces a length, whatever the reason says. -/
theorem readLength_lines (length : Nat) :
    readLength (statusLine code reason :: fieldLines length) = some length := by
  have status : (bytes "Content-length: ").isPrefixOf (statusLine code reason) = false := rfl
  have connection : (bytes "Content-length: ").isPrefixOf (bytes "Connection: close") = false := rfl
  have type : (bytes "Content-length: ").isPrefixOf (bytes "Content-type: text/html") = false := rfl
  have last : (bytes "Content-length: ").isPrefixOf (lengthLine length) = true :=
    List.isPrefixOf_iff_prefix.mpr (List.prefix_append _ _)
  unfold readLength fieldLines
  simp only [List.filter_cons, status, connection, type, last, List.filter_nil, Bool.false_eq_true,
    ↓reduceIte]
  rw [lengthLine, List.drop_left, readDecimal_digits]

theorem decode_makeResponse (noCR : byte '\r' ∉ reason) :
    decode (makeResponse code reason body).mBody =
      some ⟨bytes "HTTP/1.0", code, reason, body.length, body⟩ := by
  unfold decode
  simp only [cut_makeResponse body noCR, headerText, Delimiter.split_join (headerText_free noCR _),
    readStatus_statusLine, readLength_lines, Option.bind_eq_bind, Option.bind_some, Option.pure_def,
    List.head?_cons]

end MakeResponse

/-- A message determines what it was made of. -/
theorem makeResponse_injective {code other : Nat} {reason word body text : List UInt8}
    (noCR : byte '\r' ∉ reason) (otherNoCR : byte '\r' ∉ word)
    (same : (makeResponse code reason body).mBody = (makeResponse other word text).mBody) :
    code = other ∧ reason = word ∧ body = text := by
  have read : decode (makeResponse code reason body).mBody = _ := decode_makeResponse body noCR
  rw [same, decode_makeResponse text otherNoCR] at read
  simp only [Option.some.injEq, Message.mk.injEq] at read
  obtain ⟨-, sameCode, sameReason, -, sameBody⟩ := read
  exact ⟨sameCode.symm, sameReason.symm, sameBody.symm⟩

/-- The first CRLF CRLF of a message ends its header; decoding gives back the
code, the reason, the length of the body and the body; no other code, reason and
body make the same message; and the fixed responses are such messages. -/
theorem makeResponse_round_trip {code : Int} (nonneg : 0 ≤ code) {reason : List UInt8}
    (noCR : byte '\r' ∉ reason) (body : List UInt8) :
    (∃ header, (makeResponse code reason body).mBody = header ++ headerEnd ++ body ∧
      ∀ i < header.length, ¬ headerEnd <+: (makeResponse code reason body).mBody.drop i) ∧
    decode (makeResponse code reason body).mBody =
      some ⟨bytes "HTTP/1.0", code.toNat, reason, body.length, body⟩ ∧
    (∀ (other : Int) (word text : List UInt8), 0 ≤ other → byte '\r' ∉ word →
      (makeResponse code reason body).mBody = (makeResponse other word text).mBody →
      code = other ∧ reason = word ∧ body = text) ∧
    decode (respond200 body).mBody = some ⟨bytes "HTTP/1.0", 200, bytes "OK", body.length, body⟩ ∧
    (∃ text, decode respond400.mBody =
      some ⟨bytes "HTTP/1.0", 400, bytes "Bad Request", text.length, text⟩) ∧
    ∃ text, decode respond404.mBody =
      some ⟨bytes "HTTP/1.0", 404, bytes "Not Found", text.length, text⟩ := by
  obtain ⟨code, rfl⟩ := Int.eq_ofNat_of_zero_le nonneg
  refine ⟨⟨_, cut_eq_some_iff.mp (cut_makeResponse body noCR)⟩, decode_makeResponse body noCR, ?_,
    decode_makeResponse body (by decide), ⟨_, decode_makeResponse _ (by decide)⟩,
    ⟨_, decode_makeResponse _ (by decide)⟩⟩
  intro other word text otherNonneg otherNoCR same
  obtain ⟨other, rfl⟩ := Int.eq_ofNat_of_zero_le otherNonneg
  obtain ⟨rfl, rest⟩ := makeResponse_injective noCR otherNoCR same
  exact ⟨rfl, rest⟩

/-- A body that looks like the end of a header with another length. -/
theorem makeResponse_round_trip_header :
    decode (makeResponse 200 (bytes "OK") (bytes "\r\n\r\nContent-length: 9\r\n\r\n")).mBody =
      some ⟨bytes "HTTP/1.0", 200, bytes "OK", 25, bytes "\r\n\r\nContent-length: 9\r\n\r\n"⟩ :=
  (makeResponse_round_trip (by decide) (by decide) _).2.1

end MailruHttp.Server
