import Cse5462.Lib.Binary64
import Cse5462.Tcpd.Timeval

/-!
# Intervals

The interval of a timer, from the timeout to the node of the list. The driver
hands its timeout over as a `double` of seconds, and `add_timenode` splits that
into seconds and microseconds. Both are cut off, not rounded: the `double` next
to 0.002002 comes out as 2001 microseconds.

The microseconds are part of a second all the same. The product with a million
is rounded, but a `double` below a whole second is so far below it that the
product is not rounded up to that.

## Main definitions

* `Timeval.ofSeconds`: What `add_timenode` makes of a `double`.
* `micros`: The microseconds of an interval, none of it cut off.
* `seconds`: The `double` that the driver hands a timeout over as.

## Theorems

* `ofSeconds_nonneg`: No interval is stored as a negative one.
* `valid_ofSeconds`: The microseconds are part of a second.
* `valid_seconds`: So are those of every timeout.
-/

namespace Cse5462

open Binary64

/-- How `add_timenode` splits an interval of `dtime` seconds. The product with the
    whole seconds is a `long`, which the subtraction turns into a `double`. -/
def Timeval.ofSeconds (dtime : ℚ≥0) : Timeval :=
  let whole := ⌊dtime⌋₊
  -- The difference is not negative, so nothing is lost in `ℚ≥0`.
  { tvSec := whole, tvUsec := ⌊round (round (dtime * 1000000) - round (whole * 1000000))⌋₊ }

/-- The microseconds of an interval, up to the next whole one. -/
def micros (interval : ℚ≥0) : Int := ⌈interval * 1000000⌉₊

/-- `(double) rto / 1000000`. -/
def seconds (rto : Nat) : ℚ≥0 := round (rto / 1000000)

theorem ofSeconds_nonneg (dtime : ℚ≥0) : 0 ≤ (Timeval.ofSeconds dtime).value := by
  unfold Timeval.ofSeconds Timeval.value
  dsimp only
  omega

/-- Numbers below `2 ^ 53` have units that are not above one. -/
theorem lastPlace_nonpos {q : ℚ≥0} (h : q < 2 ^ 53) : lastPlace q ≤ 0 := by
  rcases eq_zero_or_pos q with rfl | hpos
  · rw [lastPlace, Int.log_zero_right]
    omega
  · exact lastPlace_le (e := 53) hpos (by exact_mod_cast h)

/-- A `double` below a whole second is below it by a unit in its last place. -/
theorem add_unit_le {d : ℚ≥0} (hd : round d = d) (hlt : d < 2 ^ 53) :
    d + 2 ^ lastPlace d ≤ ⌊d⌋₊ + 1 := by
  rcases exists_digits d with ⟨m, -, hm⟩
  rcases exists_units_natCast (⌊d⌋₊ + 1) (lastPlace_nonpos hlt) with ⟨n, hn⟩
  rw [hd] at hm
  -- Both are whole numbers of units.
  have hmn : (m : ℚ≥0) * 2 ^ lastPlace d < n * 2 ^ lastPlace d := by
    rw [← hm, ← hn, Nat.cast_add_one]
    exact Nat.lt_floor_add_one d
  have hle : m + 1 ≤ n := Nat.cast_lt.mp (lt_of_mul_lt_mul_right hmn zero_le)
  calc d + 2 ^ lastPlace d = (m + 1 : Nat) * 2 ^ lastPlace d := by
        rw [Nat.cast_add_one, add_one_mul, ← hm]
    _ ≤ n * 2 ^ lastPlace d := mul_le_mul_of_nonneg_right (Nat.cast_le.mpr hle) zero_le
    _ = ⌊d⌋₊ + 1 := by rw [← hn, Nat.cast_add_one]

/-- The product with a million stays below the next whole second. -/
theorem round_micros_lt {d : ℚ≥0} (hd : round d = d) (hlt : d < 2 ^ 53) :
    round (d * 1000000) < (⌊d⌋₊ + 1) * 1000000 := by
  have hunit : lastPlace (d * 1000000) - 1 ≤ lastPlace d + 19 := by
    rcases eq_zero_or_pos d with rfl | hpos
    · rw [zero_mul]
      omega
    · have hdigits : d * 1000000 < 2 ^ (lastPlace d + 73) := by
        calc d * 1000000 < 2 ^ (lastPlace d + 53) * 2 ^ (20 : Int) :=
              mul_lt_mul'' (lt_digits d) (by norm_num) zero_le zero_le
          _ = 2 ^ (lastPlace d + 73) := by rw [← zpow_add₀ two_ne_zero, add_assoc]; rfl
      have := lastPlace_le (mul_pos hpos (by norm_num)) hdigits
      omega
  -- Half a unit of the product is less than a million units of the number.
  calc round (d * 1000000) ≤ d * 1000000 + 2 ^ (lastPlace (d * 1000000) - 1) := round_le_add _
    _ ≤ d * 1000000 + 2 ^ (lastPlace d + 19) :=
        add_le_add_right (zpow_le_zpow_right₀ one_le_two hunit) _
    _ < d * 1000000 + 2 ^ lastPlace d * 1000000 := by
        rw [zpow_add₀ two_ne_zero]
        exact add_lt_add_right (mul_lt_mul_of_pos_left (by norm_num) (unit_pos _)) _
    _ = (d + 2 ^ lastPlace d) * 1000000 := (add_mul _ _ _).symm
    _ ≤ (⌊d⌋₊ + 1) * 1000000 := mul_le_mul_of_nonneg_right (add_unit_le hd hlt) zero_le

/-- An interval is stored with microseconds that are part of a second. -/
theorem valid_ofSeconds {d : ℚ≥0} (hd : round d = d) (hlt : d < 2 ^ 32) :
    (Timeval.ofSeconds d).Valid := by
  have hbelow := round_micros_lt hd (hlt.trans (by norm_num))
  have hplace : lastPlace (d * 1000000) ≤ 0 := lastPlace_nonpos
    ((mul_lt_mul_of_pos_right hlt (by norm_num)).trans (by norm_num))
  have hfloor : (⌊d⌋₊ : ℚ≥0) ≤ d := Nat.floor_le zero_le
  have hwhole : round ((⌊d⌋₊ : ℚ≥0) * 1000000) = ⌊d⌋₊ * 1000000 := by
    have hbound : ⌊d⌋₊ * 1000000 ≤ 2 ^ 53 := by
      have : ⌊d⌋₊ < 2 ^ 32 := Nat.cast_lt.mp ((hfloor.trans_lt hlt).trans_eq (by norm_num))
      omega
    have := round_of_whole hbound 0
    rwa [zpow_zero, mul_one, Nat.cast_mul, Nat.cast_ofNat] at this
  -- The difference is a whole number of units, with no more digits than the product has.
  rcases exists_digits (d * 1000000) with ⟨k, hk, hround⟩
  rcases exists_units_natCast (⌊d⌋₊ * 1000000) hplace with ⟨n, hn⟩
  rw [Nat.cast_mul, Nat.cast_ofNat] at hn
  have hdiff : round (d * 1000000) - round ((⌊d⌋₊ : ℚ≥0) * 1000000)
      = (k - n : Nat) * 2 ^ lastPlace (d * 1000000) := by
    rw [hwhole, hround, hn, ← tsub_mul, Nat.cast_tsub]
  have hexact := round_of_whole (show k - n ≤ 2 ^ 53 by omega) (lastPlace (d * 1000000))
  rw [← hdiff] at hexact
  have hmicros : ⌊round (round (d * 1000000) - round ((⌊d⌋₊ : ℚ≥0) * 1000000))⌋₊ < 1000000 := by
    rw [hexact, hwhole, Nat.floor_lt zero_le]
    refine (tsub_lt_iff_right ?_).mpr ?_
    · rw [hn]
      exact le_round (hn ▸ mul_le_mul_of_nonneg_right hfloor zero_le)
    · rw [Nat.cast_ofNat, add_comm]
      rwa [add_one_mul] at hbelow
  unfold Timeval.ofSeconds Timeval.Valid
  dsimp only
  omega

/-- The interval that a timer is started with is stored with valid
    microseconds. -/
theorem valid_seconds {rto : Nat} (h : rto < 2 ^ 32) : (Timeval.ofSeconds (seconds rto)).Valid := by
  refine valid_ofSeconds (round_round _) ?_
  have hle : (rto : ℚ≥0) / 1000000 ≤ 4295 := by
    rw [div_le_iff₀ (by norm_num)]
    exact_mod_cast (by omega : rto ≤ 4295 * 1000000)
  rcases exists_units_natCast 4295 (lastPlace_nonpos (hle.trans_lt (by norm_num))) with ⟨k, hk⟩
  calc seconds rto ≤ k * 2 ^ lastPlace ((rto : ℚ≥0) / 1000000) := round_le (hk ▸ hle)
    _ = 4295 := hk.symm
    _ < 2 ^ 32 := by norm_num

/-- The `double` next to 0.002002 seconds is stored as one microsecond less. -/
example : Timeval.ofSeconds (seconds 2002) = ⟨0, 2001⟩ := by decide +kernel

end Cse5462
