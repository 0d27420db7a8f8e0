import Cse5462.Lib.Crc
import Mathlib.Algebra.Polynomial.Div
import Mathlib.Algebra.Polynomial.Monic

/-!
# Remainders as Polynomials

`Lib.Crc` divides lists of bits by shifting words. This module says that this
is the division of polynomials over the field of two elements: the word that is
left is the remainder of the polynomial of the list.

The polynomial that is divided by has a leading coefficient of one, so quotient
and remainder are unique. It is therefore enough that each step of the division
changes the polynomial by a multiple of it, and that a word of `w` bits has a
degree below `w`.

## Main definitions

* `wordPoly`: The polynomial of a word.
* `bitsPoly`: The polynomial of a list of bits, the highest coefficient first.
* `divisor`: `x ^ w` and the lower coefficients.

## Theorems

* `wordPoly_xor`, `bitsPoly_append`: The two readings are linear.
* `wordPoly_shift`: Multiplication by `x` up to a multiple of the divisor.
* `wordPoly_remainder`: The remainder of a list is that of its polynomial.
-/

namespace Cse5462

namespace Crc

open Polynomial

variable {w : Nat}

/-- The polynomial of a word: bit `i` is the coefficient of `x ^ i`. -/
noncomputable def wordPoly (r : BitVec w) : (ZMod 2)[X] :=
  ∑ i ∈ Finset.range w, if r.getLsbD i then X ^ i else 0

/-- The polynomial of a list of bits, the highest coefficient first. -/
noncomputable def bitsPoly : List Bool → (ZMod 2)[X]
  | [] => 0
  | b :: bits => (if b then X ^ bits.length else 0) + bitsPoly bits

/-- The polynomial that is divided by: `p` is what `x ^ w` is replaced by. -/
noncomputable def divisor (p : BitVec w) : (ZMod 2)[X] := X ^ w + wordPoly p

theorem coeff_wordPoly (r : BitVec w) (i : Nat) :
    (wordPoly r).coeff i = if r.getLsbD i then 1 else 0 := by
  have hterm : ∀ j ∈ Finset.range w, (if r.getLsbD j then (X : (ZMod 2)[X]) ^ j else 0).coeff i
      = if j = i then (if r.getLsbD i then 1 else 0) else 0 := by
    intro j _
    by_cases hj : j = i
    · rw [if_pos hj, hj]
      cases r.getLsbD i <;> simp
    · rw [if_neg hj]
      cases r.getLsbD j
      · simp
      · simp [coeff_X_pow, Ne.symm hj]
  unfold wordPoly
  rw [finsetSum_coeff, Finset.sum_congr rfl hterm, Finset.sum_ite_eq' (Finset.range w) i]
  by_cases hi : i < w
  · rw [if_pos (Finset.mem_range.mpr hi)]
  · rw [if_neg (mt Finset.mem_range.mp hi), BitVec.getLsbD_of_ge r i (by omega)]
    rfl

theorem degree_wordPoly_lt (r : BitVec w) : (wordPoly r).degree < w := by
  rw [degree_lt_iff_coeff_zero]
  intro i hi
  rw [coeff_wordPoly, BitVec.getLsbD_of_ge r i hi]
  rfl

theorem wordPoly_xor (a b : BitVec w) : wordPoly (a ^^^ b) = wordPoly a + wordPoly b := by
  ext i
  rw [coeff_add, coeff_wordPoly, coeff_wordPoly, coeff_wordPoly, BitVec.getLsbD_xor]
  cases a.getLsbD i <;> cases b.getLsbD i <;> decide

@[simp] theorem wordPoly_zero : wordPoly 0#w = 0 := by
  ext i
  rw [coeff_wordPoly, BitVec.getLsbD_zero, coeff_zero]
  rfl

theorem wordPoly_bit (b : Bool) (hw : 0 < w) :
    wordPoly (bit b : BitVec w) = if b then 1 else 0 := by
  ext i
  rw [coeff_wordPoly, getLsbD_bit b i hw]
  cases b <;> simp [coeff_one]

theorem divisor_monic (p : BitVec w) : (divisor p).Monic :=
  monic_X_pow_add (degree_wordPoly_lt p)

theorem degree_divisor (p : BitVec w) : (divisor p).degree = w := by
  unfold divisor
  rw [degree_add_eq_left_of_degree_lt, degree_X_pow]
  rw [degree_X_pow]
  exact degree_wordPoly_lt p

/-- Multiplication by `x`, where the coefficient that is moved out is replaced
    by a multiple of the divisor. -/
theorem wordPoly_shift (p r : BitVec w) (hw : 0 < w) :
    wordPoly (shift p r) = wordPoly r * X + divisor p * (if r.msb then 1 else 0) := by
  -- Without the highest bit, which the move upwards drops.
  have hmove : wordPoly (r <<< 1) = wordPoly r * X + X ^ w * (if r.msb then 1 else 0) := by
    ext i
    rw [coeff_add, coeff_wordPoly, BitVec.getLsbD_shiftLeft, BitVec.msb_eq_getLsbD_last]
    rcases i with _ | i
    · rw [coeff_mul_X_zero]
      cases r.getLsbD (w - 1) <;> simp [coeff_X_pow, hw.ne]
    · rw [coeff_mul_X, coeff_wordPoly]
      rcases Nat.lt_trichotomy (i + 1) w with hi | hi | hi
      · cases r.getLsbD (w - 1) <;> simp [coeff_X_pow, hi, hi.ne]
      · have hlast : w - 1 = i := by omega
        rw [hlast, hi]
        cases r.getLsbD i
        · simp
        · simp only [lt_irrefl, decide_false, Bool.false_and, if_true, mul_one, coeff_X_pow_self,
            Bool.false_eq_true, if_false]
          decide
      · rw [BitVec.getLsbD_of_ge r i (by omega), BitVec.getLsbD_of_ge r (i + 1 - 1) (by omega)]
        cases r.getLsbD (w - 1) <;> simp [coeff_X_pow, hi.ne']
  unfold shift divisor
  cases hmsb : r.msb with
  | false =>
      rw [hmsb] at hmove
      simpa using hmove
  | true =>
      rw [hmsb] at hmove
      rw [if_pos rfl, wordPoly_xor, hmove, if_pos rfl, mul_one, mul_one, add_assoc]

theorem bitsPoly_append (as bs : List Bool) :
    bitsPoly (as ++ bs) = bitsPoly as * X ^ bs.length + bitsPoly bs := by
  induction as with
  | nil => rw [List.nil_append, bitsPoly, zero_mul, zero_add]
  | cons a as ih =>
      rw [List.cons_append, bitsPoly, bitsPoly, ih, List.length_append, pow_add, add_mul, add_assoc]
      cases a <;> simp

theorem bitsPoly_singleton (b : Bool) : bitsPoly [b] = if b then 1 else 0 := by
  rw [bitsPoly, bitsPoly, add_zero, List.length_nil, pow_zero]

/-- Zeros behind are multiplications by `x`. -/
theorem bitsPoly_append_zeros (bits : List Bool) (n : Nat) :
    bitsPoly (bits ++ List.replicate n false) = bitsPoly bits * X ^ n := by
  have hzeros : bitsPoly (List.replicate n false) = 0 := by
    induction n with
    | zero => rfl
    | succ n ih =>
        rw [List.replicate_succ, bitsPoly, ih, if_neg Bool.false_ne_true, add_zero]
  rw [bitsPoly_append, hzeros, List.length_replicate, add_zero]

/-- The word that is left differs from the list by a multiple of the divisor. -/
theorem exists_quotient (p : BitVec w) (hw : 0 < w) (bits : List Bool) :
    ∃ q, wordPoly (remainder p bits) + divisor p * q = bitsPoly bits := by
  induction bits using List.reverseRecOn with
  | nil => exact ⟨0, by rw [remainder_nil, wordPoly_zero, mul_zero, add_zero, bitsPoly]⟩
  | append_singleton bits b ih =>
      rcases ih with ⟨q, hq⟩
      refine ⟨q * X - if (remainder p bits).msb then 1 else 0, ?_⟩
      rw [remainder_concat, wordPoly_xor, wordPoly_shift p _ hw, wordPoly_bit b hw,
        bitsPoly_append, bitsPoly_singleton, ← hq, List.length_singleton, pow_one]
      ring

/-- The remainder of a list of bits is that of its polynomial. -/
theorem wordPoly_remainder (p : BitVec w) (hw : 0 < w) (bits : List Bool) :
    wordPoly (remainder p bits) = bitsPoly bits %ₘ divisor p := by
  rcases exists_quotient p hw bits with ⟨q, hq⟩
  refine ((div_modByMonic_unique q _ (divisor_monic p) ⟨hq, ?_⟩).2).symm
  rw [degree_divisor]
  exact degree_wordPoly_lt _

end Crc

end Cse5462
