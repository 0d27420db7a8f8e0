import Cse5462.Tcpd.Timeval

/-!
# What a Subtraction Promises

The comments of `timeval_subtract` promise a difference with microseconds below a
million and a sign that is that of the difference. It does not keep this
everywhere. If the microseconds are a whole number of seconds apart, the carry
may leave a second too much in them, which makes a difference of zero negative.
If the carry does not fit, the microseconds are out of range. And a call that
stores the difference in its first operand reads its sign from that.

## Main definitions

* `ExactDifference`: What the calls promise.
* `Normalises`: When the carry works.

## Theorems

* `exactDifference_iff`: When the promise is kept.
-/

namespace Cse5462

/-- A difference that is exact and normalised, with its sign, and an operand
    that keeps its value. -/
def ExactDifference (x y : Timeval) (s : Subtraction) : Prop :=
  s.result.value = x.value - y.value ∧ (0 ≤ s.result.tvUsec ∧ s.result.tvUsec ≤ 999999)
    ∧ s.y.value = y.value ∧ (s.negative = true ↔ x.value < y.value)

/-- The carry does not wrap and leaves less than a second. -/
def Normalises (x y : Timeval) : Prop :=
  if x.tvUsec < y.tvUsec then
    (y.tvUsec - x.tvUsec) % 1000000 ≠ 0 ∧ y.tvUsec - x.tvUsec < 2147000000
  else x.tvUsec - y.tvUsec ≠ 1000000 ∧ x.tvUsec - y.tvUsec < 2148000000

theorem normalises_iff (x y : Timeval) :
    Normalises x y ↔ CarryFits x y ∧ microsLeft x.tvUsec y.tvUsec ≠ 1000000 := by
  unfold Normalises CarryFits microsLeft
  by_cases hless : x.tvUsec < y.tvUsec
  · rw [if_pos hless]
    split <;> omega
  · rw [if_neg hless]
    split <;> omega

/-- Where the carry works, a call with three objects keeps the promise. -/
theorem exactDifference_of_normalises {x y : Timeval} (h : Normalises x y) :
    ExactDifference x y (timevalSubtract x y) := by
  rw [normalises_iff] at h
  have hmicros := h.2
  rw [← carry_micros h.1] at hmicros
  have hv := carry_value h.1
  have hu := carry_usec h.1
  unfold timevalSubtract ExactDifference
  simp only [Timeval.value, decide_eq_true_eq] at hv ⊢
  omega

/-- Only where the carry works are the microseconds part of a second. -/
theorem normalises_of_carry {x y : Timeval}
    (h : 0 ≤ x.tvUsec - (carry x y).tvUsec ∧ x.tvUsec - (carry x y).tvUsec ≤ 999999) :
    Normalises x y := by
  have hfits : CarryFits x y := by
    by_contra hwraps
    have hfar := carry_far hwraps
    unfold Far at hfar
    omega
  rw [normalises_iff, ← carry_micros hfits]
  exact ⟨hfits, by omega⟩

/-- When the promise is kept: where the carry works, and for a difference stored
    in the first operand, where the sign of that happens to be right. -/
theorem exactDifference_iff (x y : Timeval) :
    (ExactDifference x y (timevalSubtract x y) ↔ Normalises x y)
      ∧ (ExactDifference x y (timevalSubtractInPlace x y)
        ↔ Normalises x y
          ∧ (2 * ((x.value - y.value) / 1000000) < x.tvSec ↔ x.value < y.value)) := by
  have hthree : ExactDifference x y (timevalSubtract x y) ↔ Normalises x y :=
    ⟨fun h => normalises_of_carry h.2.1, exactDifference_of_normalises⟩
  refine ⟨hthree, ?_⟩
  -- The difference tells how many seconds the second operand has been given.
  have hsec : Normalises x y →
      ((timevalSubtractInPlace x y).negative = true
        ↔ 2 * ((x.value - y.value) / 1000000) < x.tvSec) := by
    intro h
    have hexact := exactDifference_of_normalises h
    unfold ExactDifference timevalSubtract at hexact
    unfold timevalSubtractInPlace
    simp only [decide_eq_true_eq]
    rcases hexact with ⟨hv, hu, -⟩
    rw [← hv]
    simp only [Timeval.value]
    dsimp only at hu
    omega
  constructor
  · intro h
    have hnormal := normalises_of_carry h.2.1
    exact ⟨hnormal, (hsec hnormal).symm.trans h.2.2.2⟩
  · rintro ⟨hnormal, hsign⟩
    have hexact := hthree.mpr hnormal
    exact ⟨hexact.1, hexact.2.1, hexact.2.2.1, (hsec hnormal).trans hsign⟩

/-- Equal times, whose difference is called negative. -/
theorem equal_times_negative : ¬ ExactDifference ⟨1, 0⟩ ⟨0, 1000000⟩
    (timevalSubtract ⟨1, 0⟩ ⟨0, 1000000⟩) := by
  rintro ⟨-, -, -, hsign⟩
  exact absurd (hsign.mp (by decide)) (by decide)

end Cse5462
