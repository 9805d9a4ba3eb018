import Mathlib.Algebra.Group.Int.Defs
import Mathlib.Algebra.Group.Nat.Defs
import Mathlib.Data.List.Basic

/-! Bytes of the program's `char` strings, and the conversions between its
integer types: `int` has 32 bits, `long`, `ssize_t` and `size_t` have 64. -/

namespace MailruHttp

/-- A `char` constant of the source; they are all ASCII. -/
def byte (c : Char) : UInt8 := UInt8.ofNat c.toNat

/-- A string constant of the source. -/
def bytes (s : String) : List UInt8 := s.toList.map byte

/-- The bytes `c_str()` shows the C library: everything before the first NUL. -/
def cString (s : List UInt8) : List UInt8 := s.takeWhile (· != 0)

/-- Conversion to `int`. -/
def toInt (n : Int) : Int := n.bmod (2 ^ 32)

/-- Conversion to `size_t`. -/
def toSizeT (n : Int) : Nat := (n % 2 ^ 64).toNat

theorem toInt_of_fits (n : Int) (lower : -(2 ^ 31) ≤ n) (upper : n < 2 ^ 31) : toInt n = n := by
  unfold toInt
  rw [Int.bmod_eq_of_le] <;> omega

end MailruHttp
