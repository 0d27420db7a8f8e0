import Cse5462.Lib.CrcPolynomial
import Cse5462.Tcpd.Checksum

/-!
# The Checksum as a Division of Polynomials

The loop of `crcFast` divides a byte at a time, by a table. What it returns is
the remainder of a division of polynomials over two elements: the message, its
first byte and the highest bit of each byte first, times `x ^ 16`, divided by
`x ^ 16 + x ^ 15 + x ^ 2 + 1`.

## Main definitions

* `messagePoly`: The polynomial of a message.

## Theorems

* `divisor_polynomial`: What `POLYNOMIAL` stands for.
* `crcFast_division`: The checksum is the remainder.
-/

namespace Cse5462

open Polynomial

/-- The polynomial of a message. -/
noncomputable def messagePoly (message : List UInt8) : (ZMod 2)[X] :=
  Crc.bitsPoly (bitsOfBytes message)

/-- `POLYNOMIAL` holds the coefficients below the leading one. -/
theorem divisor_polynomial : Crc.divisor polynomial = X ^ 16 + X ^ 15 + X ^ 2 + 1 := by
  have hlow : Crc.wordPoly polynomial = X ^ 15 + X ^ 2 + 1 := by
    have hbits : ∀ i < 16, polynomial.getLsbD i = decide (i = 15 ∨ i = 2 ∨ i = 0) := by
      decide
    ext i
    rw [Crc.coeff_wordPoly, coeff_add, coeff_add, coeff_X_pow, coeff_X_pow, coeff_one]
    by_cases hi : i < 16
    · rw [hbits i hi]
      by_cases h : i = 15 ∨ i = 2 ∨ i = 0
      · rcases h with rfl | rfl | rfl <;> decide
      · rw [not_or, not_or] at h
        simp [h]
    · rw [BitVec.getLsbD_of_ge polynomial i (by omega)]
      simp [show i ≠ 15 by omega, show i ≠ 2 by omega, show i ≠ 0 by omega]
  rw [Crc.divisor, hlow, add_assoc, add_assoc, add_assoc]

/-- A bit at a time, with sixteen zeros behind the message. -/
theorem crcFast_remainder (m : List UInt8) :
    crcFast m = Crc.remainder polynomial (bitsOfBytes m ++ List.replicate 16 false) := by
  have hzeros : true ∉ List.replicate 16 false := by
    intro hmem
    cases List.eq_of_mem_replicate hmem
  rw [crcFast_eq, Crc.remainder_append_zeros polynomial _ _ hzeros, List.length_replicate]

/-- The remainder of the message times `x ^ 16`. -/
theorem wordPoly_crcFast (m : List UInt8) :
    Crc.wordPoly (crcFast m) = messagePoly m * X ^ 16 %ₘ (X ^ 16 + X ^ 15 + X ^ 2 + 1) := by
  rw [crcFast_remainder, Crc.wordPoly_remainder polynomial (by decide),
    Crc.bitsPoly_append_zeros, divisor_polynomial]
  rfl

/-- The checksum is the remainder of a division of polynomials, which is that
    of the bits one at a time, and it is linear. -/
theorem crcFast_division (m : List UInt8) :
    Crc.wordPoly (crcFast m) = messagePoly m * X ^ 16 %ₘ (X ^ 16 + X ^ 15 + X ^ 2 + 1)
      ∧ crcFast m = Crc.remainder polynomial (bitsOfBytes m ++ List.replicate 16 false)
      ∧ ∀ n : List UInt8, m.length = n.length →
        crcFast (m.zipWith (· ^^^ ·) n) = crcFast m ^^^ crcFast n :=
  ⟨wordPoly_crcFast m, crcFast_remainder m, fun n h => crcFast_xor m n h⟩

/-- On two bytes, which are linear together with two others. -/
theorem crcFast_division_two :
    Crc.wordPoly (crcFast [1, 2])
        = messagePoly [1, 2] * X ^ 16 %ₘ (X ^ 16 + X ^ 15 + X ^ 2 + 1)
      ∧ crcFast [1 ^^^ 3, 2 ^^^ 4] = crcFast [1, 2] ^^^ crcFast [3, 4] :=
  ⟨(crcFast_division [1, 2]).1, (crcFast_division [1, 2]).2.2 [3, 4] rfl⟩

end Cse5462
