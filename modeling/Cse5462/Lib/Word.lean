import Mathlib.Algebra.Order.Ring.Int

/-!
# Machine Integers

The value that a signed 32-bit integer holds after an assignment: an overflow
wraps around.

## Main definitions

* `cInt`: What is stored in an `int`.

## Theorems

* `cInt_eq_self_iff`: What fits is stored as it is.
* `cInt_le_sub`: What is too great comes out smaller.
* `cInt_add_cInt`: A sum need only be wrapped at the end.
-/

namespace Cse5462

/-- What is stored in an `int`. -/
def cInt (n : Int) : Int := n.bmod (2 ^ 32)

theorem cInt_bounds (n : Int) : -2 ^ 31 ≤ cInt n ∧ cInt n < 2 ^ 31 := by
  have hlow := Int.le_bmod (x := n) (m := 2 ^ 32) (by decide)
  have hhigh := Int.bmod_lt (x := n) (m := 2 ^ 32) (by decide)
  unfold cInt
  omega

/-- What fits is stored as it is, and nothing else. -/
theorem cInt_eq_self_iff (n : Int) : cInt n = n ↔ -2 ^ 31 ≤ n ∧ n < 2 ^ 31 := by
  refine ⟨fun h => h ▸ cInt_bounds n, fun h => ?_⟩
  exact Int.bmod_eq_of_le_mul_two (by omega) (by omega)

/-- What is too great comes out smaller, by `2 ^ 32` at least. -/
theorem cInt_le_sub {n : Int} (h : 2 ^ 31 ≤ n) : cInt n ≤ n - 2 ^ 32 := by
  have hlt := (cInt_bounds n).2
  have hdef := Int.bmod_def n (2 ^ 32)
  unfold cInt at *
  omega

/-- A sum need only be wrapped at the end. -/
theorem cInt_add_cInt (m n : Int) : cInt (cInt m + n) = cInt (m + n) := Int.bmod_add_bmod

end Cse5462
