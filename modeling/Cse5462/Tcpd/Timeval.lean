import Cse5462.Lib.Word
import Mathlib.Tactic.Ring

/-!
# Time Values

`struct timeval` and the arithmetic on it: `timeval_subtract`, `timeval_add` and
`calculate_rtt`. The fields are 64-bit `long`s, modelled as integers. The seconds
that `timeval_subtract` carries are an `int`, and so is the product in which it
turns them into microseconds: from 2148 seconds on the product wraps.

A time is read as `value`, its number of microseconds, and the same time has
many representations. `timevalSubtract` does not only compute a difference: to
borrow, it rewrites its *second argument* in place, so that a mere comparison
changes the representation of the operand. As long as the carry fits
(`CarryFits`), `timevalSubtract_spec` says what can be relied on anyway: the
operand keeps its value, and the returned sign is right, but for the value zero
it may be either. `timevalSubtract_again` is what the callers that compare the
same two operands several times depend on: the rewritten operand is left alone
by a second call. If the carry does not fit, none of this holds, and the
microseconds of the operands stay far apart however often they are compared
(`carry_far`).

The C function is also called with `result` and `x` the same object. It then
compares `y` with the difference it has just stored, so its return value is of
no use; no such caller looks at it, and `timevalSubtractInPlace` is those calls.

## Main definitions

* `Timeval`: Seconds and microseconds, not necessarily normalised.
* `Timeval.value`: The time in microseconds.
* `Timeval.Valid`: A time with microseconds that are part of a second.
* `carry`: The operand as `timeval_subtract` rewrites it.
* `CarryFits`: The carry does not wrap.
* `timevalSubtract`: The difference, the rewritten operand, and the sign.
* `timevalSubtractInPlace`: The calls that store the difference in `x`.
* `timevalAdd`: The sum, without carry.
* `microsLeft`: The microseconds of a difference.
* `calculateRtt`: A difference of clock readings, cut to 32 bits.

## Theorems

* `carry_value`: The carry keeps the value of the operand.
* `carry_usec`: The microseconds after a carry.
* `carry_far`: A carry that does not fit.
* `timevalSubtract_spec`: Values and sign of a subtraction.
* `timevalSubtract_again`: A repeated comparison gives the same answer.
* `timevalSubtract_negative_iff`: When a difference is called negative.
* `timevalAdd_value`: The value of a sum.
-/

namespace Cse5462

/-- `struct timeval`. -/
@[ext]
structure Timeval where
  tvSec : Int
  tvUsec : Int
  deriving DecidableEq, Repr

/-- The time in microseconds. -/
def Timeval.value (t : Timeval) : Int := t.tvSec * 1000000 + t.tvUsec

/-- A timeout that `select` accepts. -/
def Timeval.Valid (t : Timeval) : Prop := 0 ≤ t.tvSec ∧ 0 ≤ t.tvUsec ∧ t.tvUsec < 1000000

instance (t : Timeval) : Decidable t.Valid := by
  unfold Timeval.Valid
  exact inferInstance

/-- A whole number of microseconds, as `select` stores the time that is left. -/
def Timeval.ofMicros (n : Nat) : Timeval := ⟨n / 1000000, n % 1000000⟩

/-- What a call of `timeval_subtract` leaves behind. -/
structure Subtraction where
  result : Timeval
  y : Timeval
  negative : Bool

/-- The first `if` of `timeval_subtract`: move whole seconds of `y` from its
    microseconds to its seconds until they no longer exceed those of `x`. -/
def borrow (x y : Timeval) : Timeval :=
  if x.tvUsec < y.tvUsec then
    let nsec := cInt ((y.tvUsec - x.tvUsec) / 1000000 + 1)
    { tvSec := y.tvSec + nsec, tvUsec := y.tvUsec - cInt (1000000 * nsec) }
  else y

/-- The second `if` of `timeval_subtract`: move whole seconds of `y` back when
    the microseconds differ by more than one second. -/
def repay (x y : Timeval) : Timeval :=
  if x.tvUsec - y.tvUsec > 1000000 then
    let nsec := cInt ((x.tvUsec - y.tvUsec) / 1000000)
    { tvSec := y.tvSec - nsec, tvUsec := y.tvUsec + cInt (1000000 * nsec) }
  else y

/-- What `timeval_subtract` makes of its operand before it subtracts. -/
def carry (x y : Timeval) : Timeval := repay x (borrow x y)

/-- The carry does not wrap. -/
def CarryFits (x y : Timeval) : Prop :=
  y.tvUsec - x.tvUsec < 2147000000 ∧ x.tvUsec - y.tvUsec < 2148000000

instance (x y : Timeval) : Decidable (CarryFits x y) := by
  unfold CarryFits
  exact inferInstance

/-- `timeval_subtract`, called with three different objects. -/
def timevalSubtract (x y : Timeval) : Subtraction :=
  let y := carry x y
  { result := { tvSec := x.tvSec - y.tvSec, tvUsec := x.tvUsec - y.tvUsec }
    y := y
    negative := decide (x.tvSec < y.tvSec) }

/-- `timeval_subtract` with `result` and `x` the same object: the sign is read
    after the difference has replaced `x`. -/
def timevalSubtractInPlace (x y : Timeval) : Subtraction :=
  let y := carry x y
  let x : Timeval := { tvSec := x.tvSec - y.tvSec, tvUsec := x.tvUsec - y.tvUsec }
  { result := x, y := y, negative := decide (x.tvSec < y.tvSec) }

/-- `timeval_add`: the fields are added as they are. -/
def timevalAdd (x y : Timeval) : Timeval :=
  { tvSec := x.tvSec + y.tvSec, tvUsec := x.tvUsec + y.tvUsec }

/-- `calculate_rtt`: `x - y` in microseconds, stored in a `u32`. -/
def calculateRtt (x y : Timeval) : Nat :=
  let s :=
    -- A second is borrowed for the microseconds.
    if x.tvUsec < y.tvUsec then
      x.tvUsec + 1000000 - y.tvUsec + 1000000 * (x.tvSec - 1 - y.tvSec)
    else
      x.tvUsec - y.tvUsec + 1000000 * (x.tvSec - y.tvSec)
  (s % 2 ^ 32).toNat

/-- Seconds whose microseconds fit into an `int`. -/
theorem cInt_seconds {n : Int} (h0 : 0 ≤ n) (h : n ≤ 2147) :
    cInt n = n ∧ cInt (1000000 * n) = 1000000 * n :=
  ⟨(cInt_eq_self_iff n).mpr (by omega), (cInt_eq_self_iff _).mpr (by omega)⟩

section Carry

variable {x y : Timeval}

/-- A borrow that fits leaves up to a second. -/
theorem borrow_spec (h : CarryFits x y) : (borrow x y).value = y.value ∧
    0 ≤ x.tvUsec - (borrow x y).tvUsec ∧ x.tvUsec - (borrow x y).tvUsec < 2148000000 := by
  unfold CarryFits at h
  unfold borrow
  split
  · rcases cInt_seconds (n := (y.tvUsec - x.tvUsec) / 1000000 + 1) (by omega) (by omega)
      with ⟨hn, hprod⟩
    dsimp only
    rw [hn, hprod]
    unfold Timeval.value
    dsimp only
    omega
  · omega

/-- What is paid back leaves no more than a second. -/
theorem repay_spec (h0 : 0 ≤ x.tvUsec - y.tvUsec) (h : x.tvUsec - y.tvUsec < 2148000000) :
    (repay x y).value = y.value ∧
      0 ≤ x.tvUsec - (repay x y).tvUsec ∧ x.tvUsec - (repay x y).tvUsec ≤ 1000000 := by
  unfold repay
  split
  · rcases cInt_seconds (n := (x.tvUsec - y.tvUsec) / 1000000) (by omega) (by omega)
      with ⟨hn, hprod⟩
    dsimp only
    rw [hn, hprod]
    unfold Timeval.value
    dsimp only
    omega
  · omega

theorem carry_value (h : CarryFits x y) : (carry x y).value = y.value := by
  rcases borrow_spec h with ⟨hvalue, hlow, hhigh⟩
  rw [carry, (repay_spec hlow hhigh).1, hvalue]

/-- After the carry the microseconds differ by at least nothing and at most a
    whole second. The upper end is attained: the second `if` is strict. -/
theorem carry_usec (h : CarryFits x y) :
    0 ≤ x.tvUsec - (carry x y).tvUsec ∧ x.tvUsec - (carry x y).tvUsec ≤ 1000000 := by
  rcases borrow_spec h with ⟨-, hlow, hhigh⟩
  exact (repay_spec hlow hhigh).2

/-- A carry has nothing left to do on an operand that has been carried. -/
theorem carry_of_usec (h : 0 ≤ x.tvUsec - y.tvUsec ∧ x.tvUsec - y.tvUsec ≤ 1000000) :
    carry x y = y := by
  -- Neither of the two tests applies.
  have hb : borrow x y = y := by
    rw [borrow, if_neg (by omega)]
  rw [carry, hb, repay, if_neg (by omega)]

theorem carry_again (h : CarryFits x y) : carry x (carry x y) = carry x y :=
  carry_of_usec (carry_usec h)

/-- What has been carried fits. -/
theorem CarryFits.carry (h : CarryFits x y) : CarryFits x (carry x y) := by
  have := carry_usec h
  unfold CarryFits
  omega

/-- The microseconds of the operands are so far apart that no carry brings them
    together. -/
def Far (x y : Timeval) : Prop :=
  2 ^ 32 - 1000000 ≤ y.tvUsec - x.tvUsec ∨ 2 ^ 32 ≤ x.tvUsec - y.tvUsec

/-- A carry that does not fit takes the operands far apart: the product that
    wraps has the other sign, or is too small. -/
theorem carry_far (h : ¬ CarryFits x y) : Far x (carry x y) := by
  unfold CarryFits at h
  unfold Far carry
  by_cases hless : x.tvUsec < y.tvUsec
  · -- A borrow, after which there is nothing to pay back.
    have hprod := cInt_bounds (1000000 * cInt ((y.tvUsec - x.tvUsec) / 1000000 + 1))
    have hfar : 2 ^ 32 - 1000000 ≤ (borrow x y).tvUsec - x.tvUsec := by
      rw [borrow, if_pos hless]
      dsimp only
      by_cases hint : (y.tvUsec - x.tvUsec) / 1000000 + 1 < 2 ^ 31
      · rw [(cInt_eq_self_iff ((y.tvUsec - x.tvUsec) / 1000000 + 1)).mpr (by omega)]
        have := cInt_le_sub (n := 1000000 * ((y.tvUsec - x.tvUsec) / 1000000 + 1)) (by omega)
        omega
      · omega
    rw [repay, if_neg (by omega)]
    exact Or.inl hfar
  · rw [borrow, if_neg hless, repay, if_pos (by omega)]
    have hprod := cInt_bounds (1000000 * cInt ((x.tvUsec - y.tvUsec) / 1000000))
    dsimp only
    by_cases hint : (x.tvUsec - y.tvUsec) / 1000000 < 2 ^ 31
    · rw [(cInt_eq_self_iff ((x.tvUsec - y.tvUsec) / 1000000)).mpr (by omega)]
      have := cInt_le_sub (n := 1000000 * ((x.tvUsec - y.tvUsec) / 1000000)) (by omega)
      omega
    · omega

/-- Far apart they stay. -/
theorem Far.carry (h : Far x y) : Far x (carry x y) := by
  refine carry_far ?_
  unfold Far at h
  unfold CarryFits
  omega

/-- What is left of an operand that is far apart is not valid, whatever the carry
    of the other one. -/
theorem Far.not_valid (h : Far x y) : ¬ (timevalSubtract y x).result.Valid := by
  unfold Far at h
  unfold timevalSubtract Timeval.Valid Cse5462.carry borrow
  dsimp only
  split
  · -- The operand has fewer microseconds by more than the carry can move.
    have := cInt_bounds (1000000 * cInt ((x.tvUsec - y.tvUsec) / 1000000 + 1))
    rw [repay, if_neg (by dsimp only; omega)]
    dsimp only
    omega
  · rw [repay, if_pos (by omega)]
    have := cInt_bounds (1000000 * cInt ((y.tvUsec - x.tvUsec) / 1000000))
    dsimp only
    omega

/-- A subtraction is exact in value and keeps the value of its operand. The
    sign is right except that a difference of zero may be called negative. -/
theorem timevalSubtract_spec (h : CarryFits x y) :
    (timevalSubtract x y).result.value = x.value - y.value ∧
      (timevalSubtract x y).y.value = y.value ∧
      ((timevalSubtract x y).negative = true → x.value ≤ y.value) ∧
      ((timevalSubtract x y).negative = false → y.value ≤ x.value) := by
  -- The carry bounds the microseconds, so the seconds decide the sign.
  have hv := carry_value h
  have hu := carry_usec h
  simp only [Timeval.value] at hv
  simp only [timevalSubtract, Timeval.value, decide_eq_true_eq, decide_eq_false_iff_not]
  refine ⟨?_, hv, fun h => ?_, fun h => ?_⟩ <;> omega

theorem timevalSubtractInPlace_value (h : CarryFits x y) :
    (timevalSubtractInPlace x y).result.value = x.value - y.value ∧
      (timevalSubtractInPlace x y).y.value = y.value :=
  ⟨(timevalSubtract_spec h).1, (timevalSubtract_spec h).2.1⟩

/-- Comparing the same two operands again gives the same answer and leaves them
    as the first comparison did. -/
theorem timevalSubtract_again (h : CarryFits x y) :
    timevalSubtract x (timevalSubtract x y).y = timevalSubtract x y := by
  simp only [timevalSubtract, carry_again h]

/-- The microseconds of a difference, given those of its operands. A whole
    number of seconds comes out as one second if the second operand has the more
    microseconds, or exactly one second less of them. -/
def microsLeft (u v : Int) : Int :=
  if (u < v ∧ (v - u) % 1000000 = 0) ∨ u - v = 1000000 then 1000000 else (u - v) % 1000000

theorem carry_micros (h : CarryFits x y) :
    x.tvUsec - (carry x y).tvUsec = microsLeft x.tvUsec y.tvUsec := by
  unfold CarryFits at h
  unfold carry borrow microsLeft
  -- After a borrow there is nothing to pay back.
  by_cases hless : x.tvUsec < y.tvUsec
  · rcases cInt_seconds (n := (y.tvUsec - x.tvUsec) / 1000000 + 1) (by omega) (by omega)
      with ⟨hn, hprod⟩
    rw [if_pos hless]
    dsimp only
    rw [hn, hprod, repay, if_neg (by dsimp only; omega)]
    dsimp only
    split <;> omega
  · rw [if_neg hless]
    unfold repay
    by_cases hmore : x.tvUsec - y.tvUsec > 1000000
    · rcases cInt_seconds (n := (x.tvUsec - y.tvUsec) / 1000000) (by omega) (by omega)
        with ⟨hn, hprod⟩
      rw [if_pos hmore]
      dsimp only
      rw [hn, hprod]
      split <;> omega
    · rw [if_neg hmore]
      split <;> omega

/-- A difference is called negative if it is, or if it is zero and its
    microseconds come out as a whole second. -/
theorem timevalSubtract_negative_iff (h : CarryFits x y) :
    (timevalSubtract x y).negative = true ↔ x.value < y.value ∨
      (x.value = y.value ∧ microsLeft x.tvUsec y.tvUsec = 1000000) := by
  have hv := carry_value h
  have hu := carry_usec h
  rw [← carry_micros h]
  simp only [Timeval.value] at hv ⊢
  simp only [timevalSubtract, decide_eq_true_eq]
  omega

end Carry

theorem timevalAdd_value (x y : Timeval) : (timevalAdd x y).value = x.value + y.value := by
  simp only [timevalAdd, Timeval.value]
  ring

theorem ofMicros_value (n : Nat) : (Timeval.ofMicros n).value = n := by
  simp only [Timeval.ofMicros, Timeval.value]
  omega

theorem valid_ofMicros (n : Nat) : (Timeval.ofMicros n).Valid := by
  unfold Timeval.ofMicros Timeval.Valid
  dsimp only
  omega

/-- A valid time is not negative. -/
theorem Timeval.Valid.value_nonneg {t : Timeval} (h : t.Valid) : 0 ≤ t.value := by
  unfold Timeval.Valid at h
  unfold Timeval.value
  omega

/-- A time that is not negative is valid if its microseconds are. -/
theorem valid_iff {t : Timeval} (h : 0 ≤ t.value) :
    t.Valid ↔ 0 ≤ t.tvUsec ∧ t.tvUsec < 1000000 := by
  unfold Timeval.value at h
  unfold Timeval.Valid
  omega

end Cse5462
