import Mathlib.Data.Int.Order.Basic
import Mathlib.Data.List.Range

/-!
# Bounded Scans

The loop `for (i = a; i < b; i++) if (!p(i)) break;`, which every search over a
circular buffer is made of. `scanWhile p n i` is the index at which it comes to
rest when at most `n` indices are left to look at, and `scanWhile_eq_iff`
characterises that index without mentioning the loop: everything passed over
satisfies `p`, and the resting place either exhausts the bound or fails `p`.

## Main definitions

* `scanWhile`: Where a bounded scan comes to rest.

## Theorems

* `le_scanWhile`: A scan never moves back.
* `scanWhile_le`: A scan never moves past its bound.
* `scanWhile_passed`: A scan passes only over indices that satisfy `p`.
* `scanWhile_stop`: A scan that stops early stops at an index that fails `p`.
* `scanWhile_eq_iff`: The resting place characterised.
-/

namespace Cse5462

/-- The index at which a scan from `i` that looks at no more than `n` indices
    comes to rest. -/
def scanWhile (p : Int → Bool) : Nat → Int → Int
  | 0, i => i
  | n + 1, i => if p i then scanWhile p n (i + 1) else i

variable {p : Int → Bool}

theorem le_scanWhile (n : Nat) (i : Int) : i ≤ scanWhile p n i := by
  induction n generalizing i with
  | zero => exact le_refl i
  | succ n ih =>
      rw [scanWhile]
      split
      · have := ih (i + 1)
        omega
      · exact le_refl i

theorem scanWhile_le (n : Nat) (i : Int) : scanWhile p n i ≤ i + n := by
  induction n generalizing i with
  | zero =>
      rw [scanWhile]
      omega
  | succ n ih =>
      rw [scanWhile]
      split
      · have := ih (i + 1)
        omega
      · omega

theorem scanWhile_passed (n : Nat) (i j : Int) (hij : i ≤ j) (hj : j < scanWhile p n i) :
    p j = true := by
  induction n generalizing i with
  | zero =>
      simp only [scanWhile] at hj
      omega
  | succ n ih =>
      rw [scanWhile] at hj
      -- Either `j` is where the scan starts, or it is passed later on.
      by_cases hi : p i = true
      · rw [if_pos hi] at hj
        rcases eq_or_lt_of_le hij with rfl | hlt
        · exact hi
        · exact ih (i + 1) (by omega) hj
      · rw [if_neg hi] at hj
        omega

theorem scanWhile_stop (n : Nat) (i : Int) (h : scanWhile p n i < i + n) :
    p (scanWhile p n i) = false := by
  induction n generalizing i with
  | zero =>
      rw [scanWhile] at h
      omega
  | succ n ih =>
      rw [scanWhile] at h ⊢
      by_cases hi : p i = true
      · rw [if_pos hi] at h ⊢
        exact ih (i + 1) (by omega)
      · rw [if_neg hi]
        exact Bool.eq_false_iff.mpr hi

/-- The resting place of a scan, without the loop. -/
theorem scanWhile_eq_iff (n : Nat) (i j : Int) :
    scanWhile p n i = j ↔
      i ≤ j ∧ j ≤ i + n ∧ (∀ k, i ≤ k → k < j → p k = true) ∧ (j < i + n → p j = false) := by
  constructor
  · rintro rfl
    exact ⟨le_scanWhile n i, scanWhile_le n i, scanWhile_passed n i, scanWhile_stop n i⟩
  · rintro ⟨hij, hjn, hpass, hstop⟩
    have hlo := le_scanWhile (p := p) n i
    have hhi := scanWhile_le (p := p) n i
    rcases lt_trichotomy (scanWhile p n i) j with hlt | heq | hgt
    · -- The scan stopped at an index that it should have passed.
      have hfail := scanWhile_stop (p := p) n i (by omega)
      rw [hpass _ hlo hlt] at hfail
      exact absurd hfail (by decide)
    · exact heq
    · -- The scan passed the index at which it should have stopped.
      have hpassed := scanWhile_passed n i j hij hgt
      rw [hstop (by omega)] at hpassed
      exact absurd hpassed (by decide)

end Cse5462
