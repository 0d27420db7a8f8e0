import Mathlib.Data.Int.Log
import Mathlib.Data.NNRat.Floor
import Mathlib.Tactic.Positivity
import Mathlib.Tactic.Ring

/-!
# Doubles

Arithmetic with `double`s that are not negative. A double is the rational number
that it stands for, and an operation is the exact one with its result rounded to
53 binary digits, to the nearest number that has so many and to the even one of
two. Exponents are not bounded, so there is neither overflow nor underflow.

A result is a whole number of units in its last place. What is a whole number of
these units already is not changed, and no such number is jumped over:
`le_round` and `round_le` are all that is needed to compare a rounded result
with an exact one.

## Main definitions

* `Binary64.roundEven`: The nearest whole number, the even one of two.
* `Binary64.lastPlace`: The exponent of the unit in the last place.
* `Binary64.round`: What an operation makes of an exact result.

## Theorems

* `round_of_whole`: Up to 53 digits are kept.
* `le_round`, `round_le`: Rounding respects the order.
* `round_le_add`: Half a unit is the greatest error.
* `round_round`: A rounded number is a double.
-/

namespace Cse5462

namespace Binary64

/-- The whole number nearest to `q`, and the even one if two are. -/
def roundEven (q : ℚ≥0) : Nat :=
  let n := ⌊q⌋₊
  if q < n + 1 / 2 then n
  else if n + 1 / 2 < q then n + 1
  else if n % 2 = 0 then n else n + 1

/-- The exponent of the last of the 53 digits of `q`. -/
def lastPlace (q : ℚ≥0) : Int := Int.log 2 q - 52

/-- The double nearest to `q`. -/
def round (q : ℚ≥0) : ℚ≥0 := roundEven (q / 2 ^ lastPlace q) * 2 ^ lastPlace q

variable {q : ℚ≥0} {n : Nat} {e : Int}

theorem floor_le_roundEven (q : ℚ≥0) : ⌊q⌋₊ ≤ roundEven q := by
  unfold roundEven
  dsimp only
  split_ifs <;> omega

theorem roundEven_le_floor_add_one (q : ℚ≥0) : roundEven q ≤ ⌊q⌋₊ + 1 := by
  unfold roundEven
  dsimp only
  split_ifs <;> omega

/-- Half a unit is the greatest error upwards. -/
theorem roundEven_le_add (q : ℚ≥0) : (roundEven q : ℚ≥0) ≤ q + 1 / 2 := by
  have hfloor : (⌊q⌋₊ : ℚ≥0) ≤ q := Nat.floor_le zero_le
  have hup : (⌊q⌋₊ : ℚ≥0) + 1 / 2 ≤ q → ((⌊q⌋₊ + 1 : Nat) : ℚ≥0) ≤ q + 1 / 2 := by
    intro h
    calc ((⌊q⌋₊ + 1 : Nat) : ℚ≥0) = ⌊q⌋₊ + 1 / 2 + 1 / 2 := by
          rw [Nat.cast_add_one, add_assoc, add_halves]
      _ ≤ q + 1 / 2 := add_le_add_left h (1 / 2)
  unfold roundEven
  dsimp only
  -- Two of the cases go down and two go up, which is from half a unit on.
  split_ifs with hlow hhigh heven
  · exact le_add_right hfloor
  · exact hup hhigh.le
  · exact le_add_right hfloor
  · exact hup (not_lt.mp hlow)

/-- A whole number is not changed. -/
theorem roundEven_natCast (n : Nat) : roundEven n = n := by
  unfold roundEven
  dsimp only
  rw [Nat.floor_natCast, if_pos (lt_add_of_pos_right _ (by positivity))]

theorem le_roundEven (h : (n : ℚ≥0) ≤ q) : n ≤ roundEven q :=
  (Nat.le_floor h).trans (floor_le_roundEven q)

theorem roundEven_le (h : q ≤ n) : roundEven q ≤ n := by
  rcases h.lt_or_eq with hlt | rfl
  · exact (roundEven_le_floor_add_one q).trans ((Nat.floor_lt zero_le).mpr hlt)
  · rw [roundEven_natCast]

theorem unit_pos (e : Int) : (0 : ℚ≥0) < 2 ^ e := zpow_pos two_pos e

theorem unit_ne_zero (e : Int) : (2 : ℚ≥0) ^ e ≠ 0 := (unit_pos e).ne'

/-- A number has no more than 53 digits before the point, in its units. -/
theorem lt_digits (q : ℚ≥0) : q < 2 ^ (lastPlace q + 53) := by
  have h := Int.lt_zpow_succ_log_self (b := 2) one_lt_two q
  rwa [Nat.cast_ofNat, show Int.log 2 q + 1 = lastPlace q + 53 by unfold lastPlace; omega] at h

/-- What is below a power of two has units that are smaller by 53 places. -/
theorem lastPlace_le (hq : 0 < q) (h : q < 2 ^ e) : lastPlace q ≤ e - 53 := by
  have hlog := (Int.lt_zpow_iff_log_lt (b := 2) one_lt_two hq).mp (by rwa [Nat.cast_ofNat])
  unfold lastPlace
  omega

/-- A whole number of units that are not smaller than those of `q` is a whole
    number of these. -/
theorem exists_units (n : Nat) (h : lastPlace q ≤ e) :
    ∃ k : Nat, (n : ℚ≥0) * 2 ^ e = k * 2 ^ lastPlace q := by
  refine ⟨n * 2 ^ (e - lastPlace q).toNat, ?_⟩
  rw [Nat.cast_mul, Nat.cast_pow, Nat.cast_ofNat, mul_assoc, ← zpow_natCast,
    ← zpow_add₀ two_ne_zero, Int.toNat_of_nonneg (by omega), sub_add_cancel]

/-- So is a natural number, if there are digits behind the point. -/
theorem exists_units_natCast (n : Nat) (h : lastPlace q ≤ 0) :
    ∃ k : Nat, (n : ℚ≥0) = k * 2 ^ lastPlace q := by
  have hunits := exists_units n h
  rwa [zpow_zero, mul_one] at hunits

theorem round_eq_self (h : q = n * 2 ^ lastPlace q) : round q = q := by
  unfold round
  rw [(div_eq_iff (unit_ne_zero _)).mpr h, roundEven_natCast, ← h]

theorem round_zero : round 0 = 0 :=
  round_eq_self (n := 0) (by rw [Nat.cast_zero, zero_mul])

/-- A number of up to 53 digits is not changed. -/
theorem round_of_whole (hn : n ≤ 2 ^ 53) (e : Int) :
    round (n * 2 ^ e) = n * 2 ^ e := by
  rcases Nat.eq_zero_or_pos n with rfl | hpos
  · rw [Nat.cast_zero, zero_mul, round_zero]
  have hq : 0 < (n : ℚ≥0) * 2 ^ e := mul_pos (Nat.cast_pos.mpr hpos) (unit_pos e)
  -- Below the power of two the unit is at most `2 ^ e`, which makes it a whole number of them.
  rcases hn.lt_or_eq with hlt | rfl
  · have hdigits : (n : ℚ≥0) * 2 ^ e < 2 ^ (53 + e) := by
      rw [zpow_add₀ two_ne_zero]
      exact mul_lt_mul_of_pos_right (by exact_mod_cast hlt) (unit_pos e)
    have hle := lastPlace_le hq hdigits
    rcases exists_units n (show lastPlace ((n : ℚ≥0) * 2 ^ e) ≤ e by omega) with ⟨k, hk⟩
    exact round_eq_self hk
  · -- All digits are ones and one more, so the unit is the next one.
    have hpow : ((2 ^ 53 : Nat) : ℚ≥0) * 2 ^ e = 2 ^ (53 + e) := by
      rw [zpow_add₀ two_ne_zero]
      norm_cast
    have hle := lastPlace_le (q := ((2 ^ 53 : Nat) : ℚ≥0) * 2 ^ e) (e := 54 + e) hq (by
      rw [hpow]
      exact zpow_lt_zpow_right₀ one_lt_two (by omega))
    rcases exists_units (q := ((2 ^ 53 : Nat) : ℚ≥0) * 2 ^ e) (2 ^ 52)
      (show _ ≤ e + 1 by omega) with ⟨k, hk⟩
    refine round_eq_self (n := k) ?_
    rw [← hk, hpow, Nat.cast_pow, Nat.cast_ofNat, ← zpow_natCast, ← zpow_add₀ two_ne_zero]
    congr 1
    push_cast
    ring

/-- A whole number of units of `q` that is not above it is not above what it is
    rounded to. -/
theorem le_round (h : n * 2 ^ lastPlace q ≤ q) : n * 2 ^ lastPlace q ≤ round q := by
  refine mul_le_mul_of_nonneg_right (Nat.cast_le.mpr (le_roundEven ?_)) (unit_pos _).le
  rwa [le_div_iff₀ (unit_pos _)]

/-- And one that is not below it is not below what it is rounded to. -/
theorem round_le (h : q ≤ n * 2 ^ lastPlace q) : round q ≤ n * 2 ^ lastPlace q := by
  refine mul_le_mul_of_nonneg_right (Nat.cast_le.mpr (roundEven_le ?_)) (unit_pos _).le
  rwa [div_le_iff₀ (unit_pos _)]

/-- Half a unit is the greatest error upwards. -/
theorem round_le_add (q : ℚ≥0) : round q ≤ q + 2 ^ (lastPlace q - 1) := by
  have hunit : (q / 2 ^ lastPlace q + 1 / 2) * 2 ^ lastPlace q = q + 2 ^ (lastPlace q - 1) := by
    rw [add_mul, div_mul_cancel₀ _ (unit_ne_zero _), one_div, zpow_sub_one₀ two_ne_zero, mul_comm]
  rw [← hunit]
  exact mul_le_mul_of_nonneg_right (roundEven_le_add _) (unit_pos _).le

/-- The digits of a rounded number. -/
theorem exists_digits (q : ℚ≥0) : ∃ k : Nat, k ≤ 2 ^ 53 ∧ round q = k * 2 ^ lastPlace q := by
  refine ⟨_, roundEven_le ?_, rfl⟩
  rw [div_le_iff₀ (unit_pos _), Nat.cast_pow, Nat.cast_ofNat, ← zpow_natCast,
    ← zpow_add₀ two_ne_zero, add_comm]
  exact (lt_digits q).le

/-- A rounded number is a double. -/
theorem round_round (q : ℚ≥0) : round (round q) = round q := by
  rcases exists_digits q with ⟨k, hk, hround⟩
  rw [hround, round_of_whole hk]

end Binary64

end Cse5462
