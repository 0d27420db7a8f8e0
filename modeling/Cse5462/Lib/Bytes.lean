import Mathlib.Algebra.Group.Nat.Even
import Mathlib.Data.List.TakeWhile
import Mathlib.Tactic.Ring

/-!
# Records as Bytes

Memory that a program writes and reads at byte offsets, whatever the types of
what it keeps there. A record is a list of bytes. `put` is `memcpy` into it and
`slice` is `memcpy` out of it. What has been put can be read back, and reading
beside it reads what was there before, so a record of several fields is
followed by giving the offsets of its fields.

Numbers go into records in little-endian order. `le` splits a natural number
into a given number of bytes, and `leInt` does the same for an integer in two's
complement.

## Main definitions

* `Bytes.put`, `Bytes.slice`: Bytes copied to and from an offset.
* `Bytes.zeros`, `Bytes.bzero`: Zero bytes, and bytes cleared.
* `Bytes.cString`: The string in a buffer.
* `Bytes.le`, `Bytes.ofLe`: Little-endian numbers.
* `Bytes.leInt`, `Bytes.ofLeInt`: The same for integers.

## Theorems

* `slice_put`: What has been put can be read back.
* `slice_put_before`, `slice_put_behind`: A put leaves the other bytes alone.
* `ofLe_le`, `le_ofLe`: Numbers and their bytes.
* `ofLeInt_leInt`: Integers and their bytes.
-/

namespace Cse5462

namespace Bytes

/-- The bytes `bs` copied to offset `off`. -/
def put (buf : List UInt8) (off : Nat) (bs : List UInt8) : List UInt8 :=
  buf.take off ++ bs ++ buf.drop (off + bs.length)

/-- The `n` bytes from offset `off` on. -/
def slice (buf : List UInt8) (off n : Nat) : List UInt8 := (buf.drop off).take n

/-- `n` zero bytes. -/
def zeros (n : Nat) : List UInt8 := List.replicate n 0

/-- The `n` bytes from offset `off` on cleared, as `bzero` does. -/
def bzero (buf : List UInt8) (off n : Nat) : List UInt8 := put buf off (zeros n)

/-- The string in a buffer: what is before the first zero byte. -/
def cString (buf : List UInt8) : List UInt8 := buf.takeWhile (· ≠ 0)

variable {buf bs : List UInt8} {off o n : Nat}

theorem length_cString_le (buf : List UInt8) : (cString buf).length ≤ buf.length :=
  (List.takeWhile_prefix _).length_le

theorem cString_eq_self (h : 0 ∉ buf) : cString buf = buf := by
  unfold cString
  rw [List.takeWhile_eq_self_iff]
  intro b hb
  simp only [decide_eq_true_eq]
  rintro rfl
  exact h hb

@[simp] theorem length_zeros (n : Nat) : (zeros n).length = n := List.length_replicate

@[simp] theorem length_put (h : off + bs.length ≤ buf.length) :
    (put buf off bs).length = buf.length := by
  unfold put
  rw [List.length_append, List.length_append, List.length_take, List.length_drop]
  omega

theorem length_slice (h : off + n ≤ buf.length) : (slice buf off n).length = n := by
  unfold slice
  rw [List.length_take, List.length_drop]
  omega

@[simp] theorem slice_zeros (h : off + n ≤ o) : slice (zeros o) off n = zeros n := by
  unfold slice zeros
  rw [List.drop_replicate, List.take_replicate, Nat.min_eq_left (by omega)]

@[simp] theorem bzero_zeros (h : off + n ≤ o) : bzero (zeros o) off n = zeros o := by
  unfold bzero put zeros
  rw [List.take_replicate, List.drop_replicate, List.length_replicate,
    List.replicate_append_replicate, List.replicate_append_replicate]
  congr 1
  omega

/-- A put, byte by byte. -/
theorem getElem?_put (h : off + bs.length ≤ buf.length) (i : Nat) :
    (put buf off bs)[i]?
      = if off ≤ i ∧ i < off + bs.length then bs[i - off]? else buf[i]? := by
  have hoff : (buf.take off).length = off := by
    rw [List.length_take]
    omega
  unfold put
  rw [List.append_assoc, List.getElem?_append, List.getElem?_append, List.getElem?_take,
    List.getElem?_drop, hoff]
  by_cases hi : i < off
  · rw [if_pos hi, if_pos hi, if_neg (by omega)]
  · rw [if_neg hi]
    by_cases hin : i - off < bs.length
    · rw [if_pos hin, if_pos (by omega)]
    · rw [if_neg hin, if_neg (by omega)]
      congr 1
      omega

theorem getElem?_slice (i : Nat) :
    (slice buf off n)[i]? = if i < n then buf[off + i]? else none := by
  unfold slice
  rw [List.getElem?_take, List.getElem?_drop]

/-- What has been put can be read back. -/
theorem slice_put (h : off + bs.length ≤ buf.length) (hn : bs.length = n) :
    slice (put buf off bs) off n = bs := by
  subst hn
  ext i : 1
  rw [getElem?_slice, getElem?_put h]
  by_cases hi : i < bs.length
  · rw [if_pos hi, if_pos (by omega), Nat.add_sub_cancel_left]
  · rw [if_neg hi, List.getElem?_eq_none (by omega)]

/-- Reading a part of what has been put. -/
theorem slice_put_inside (h : off + bs.length ≤ buf.length) (ho : off ≤ o)
    (hn : o + n ≤ off + bs.length) : slice (put buf off bs) o n = slice bs (o - off) n := by
  ext i : 1
  rw [getElem?_slice, getElem?_slice, getElem?_put h]
  by_cases hi : i < n
  · rw [if_pos hi, if_pos hi, if_pos (by omega)]
    congr 1
    omega
  · rw [if_neg hi, if_neg hi]

/-- A put does not change what is before it. -/
theorem slice_put_before (h : off + bs.length ≤ buf.length) (ho : o + n ≤ off) :
    slice (put buf off bs) o n = slice buf o n := by
  ext i : 1
  rw [getElem?_slice, getElem?_slice, getElem?_put h]
  by_cases hi : i < n
  · rw [if_pos hi, if_pos hi, if_neg (by omega)]
  · rw [if_neg hi, if_neg hi]

/-- A put does not change what is behind it. -/
theorem slice_put_behind (h : off + bs.length ≤ buf.length) (ho : off + bs.length ≤ o) :
    slice (put buf off bs) o n = slice buf o n := by
  ext i : 1
  rw [getElem?_slice, getElem?_slice, getElem?_put h]
  by_cases hi : i < n
  · rw [if_pos hi, if_pos hi, if_neg (by omega)]
  · rw [if_neg hi, if_neg hi]

/-- Reading a part of a record is reading the record. -/
theorem slice_slice (o n : Nat) (h : o + n ≤ off) (k : Nat) :
    slice (slice buf k off) o n = slice buf (k + o) n := by
  ext i : 1
  rw [getElem?_slice, getElem?_slice, getElem?_slice]
  by_cases hi : i < n
  · rw [if_pos hi, if_pos hi, if_pos (by omega), Nat.add_assoc]
  · rw [if_neg hi, if_neg hi]

/-- Putting a part of a record back changes nothing. -/
theorem put_slice (h : off + n ≤ buf.length) : put buf off (slice buf off n) = buf := by
  have hlen := length_slice h
  ext i : 1
  rw [getElem?_put (by rw [hlen]; exact h), hlen]
  split
  · rename_i hi
    rw [getElem?_slice, if_pos (by omega)]
    congr 1
    omega
  · rfl

/-- Reading around a put reads the record with the put at its place in it. -/
theorem slice_put_around (h : off + bs.length ≤ buf.length) (ho : o ≤ off)
    (hn : off + bs.length ≤ o + n) (hbuf : o + n ≤ buf.length) :
    slice (put buf off bs) o n = put (slice buf o n) (off - o) bs := by
  have hlen := length_slice hbuf
  ext i : 1
  rw [getElem?_slice, getElem?_put h, getElem?_put (by omega), getElem?_slice]
  by_cases hi : i < n
  · rw [if_pos hi, if_pos hi]
    by_cases hin : off ≤ o + i ∧ o + i < off + bs.length
    · rw [if_pos hin, if_pos (by omega)]
      congr 1
      omega
    · rw [if_neg hin, if_neg (by omega)]
  · rw [if_neg hi, if_neg hi, if_neg (by omega)]

/-- The second of two puts at the same place is what stays. -/
theorem put_put {bs' : List UInt8} (h : off + bs.length ≤ buf.length)
    (hlen : bs'.length = bs.length) : put (put buf off bs) off bs' = put buf off bs' := by
  ext i : 1
  rw [getElem?_put (by rw [length_put h]; omega), getElem?_put h, getElem?_put (by omega), hlen]
  by_cases hi : off ≤ i ∧ i < off + bs.length
  · rw [if_pos hi, if_pos hi]
  · rw [if_neg hi, if_neg hi, if_neg hi]

/-- A put into two records that are combined byte by byte. -/
theorem zipWith_put (f : UInt8 → UInt8 → UInt8) (as cs bs ds : List UInt8) (off : Nat)
    (hlen : as.length = cs.length) (hlen' : bs.length = ds.length) :
    (put as off bs).zipWith f (put cs off ds) = put (as.zipWith f cs) off (bs.zipWith f ds) := by
  unfold put
  rw [List.zipWith_append (by simp [hlen, hlen']), List.zipWith_append (by simp [hlen]),
    List.take_zipWith, List.drop_zipWith, List.length_zipWith, hlen', Nat.min_self]

theorem slice_zipWith (f : UInt8 → UInt8 → UInt8) (as bs : List UInt8) (off n : Nat) :
    slice (as.zipWith f bs) off n = (slice as off n).zipWith f (slice bs off n) := by
  unfold slice
  rw [List.drop_zipWith, List.take_zipWith]

/-- The number `n` in `k` bytes, the least significant first. -/
def le : Nat → Nat → List UInt8
  | 0, _ => []
  | k + 1, n => UInt8.ofNat n :: le k (n / 256)

/-- The number that a list of bytes stands for. -/
def ofLe : List UInt8 → Nat
  | [] => 0
  | b :: bs => b.toNat + 256 * ofLe bs

@[simp] theorem length_le (k n : Nat) : (le k n).length = k := by
  induction k generalizing n with
  | zero => rfl
  | succ k ih =>
      unfold le
      rw [List.length_cons, ih]

theorem ofLe_le (k n : Nat) : ofLe (le k n) = n % 256 ^ k := by
  induction k generalizing n with
  | zero =>
      rw [pow_zero, Nat.mod_one]
      rfl
  | succ k ih =>
      unfold le ofLe
      have hbyte : (256 : Nat) = 2 ^ 8 := rfl
      rw [ih, UInt8.toNat_ofNat', ← hbyte, Nat.pow_succ']
      exact Nat.mod_mul.symm

theorem ofLe_lt (bs : List UInt8) : ofLe bs < 256 ^ bs.length := by
  induction bs with
  | nil => exact Nat.one_pos
  | cons b bs ih =>
      have hb := b.toNat_lt
      unfold ofLe
      rw [List.length_cons, Nat.pow_succ']
      omega

theorem le_ofLe (bs : List UInt8) : le bs.length (ofLe bs) = bs := by
  induction bs with
  | nil => rfl
  | cons b bs ih =>
      have hb := b.toNat_lt
      unfold ofLe
      rw [List.length_cons, le]
      have hdiv : (b.toNat + 256 * ofLe bs) / 256 = ofLe bs := by omega
      have hmod : UInt8.ofNat (b.toNat + 256 * ofLe bs) = b := by
        refine UInt8.toNat_inj.mp ?_
        rw [UInt8.toNat_ofNat']
        omega
      rw [hdiv, hmod, ih]

/-- The integer `n` in `k` bytes, in two's complement. -/
def leInt (k : Nat) (n : Int) : List UInt8 := le k (n % (256 ^ k : Nat)).toNat

/-- The integer that a list of bytes stands for. -/
def ofLeInt (bs : List UInt8) : Int := (ofLe bs : Int).bmod (256 ^ bs.length)

@[simp] theorem length_leInt (k : Nat) (n : Int) : (leInt k n).length = k := length_le k _

/-- An integer that fits into its bytes can be read back from them. -/
theorem ofLeInt_leInt (k : Nat) (n : Int) (h : -((256 ^ k : Nat) : Int) ≤ 2 * n)
    (h' : 2 * n < (256 ^ k : Nat)) : ofLeInt (leInt k n) = n := by
  unfold ofLeInt leInt
  rw [ofLe_le, length_le]
  have hpos : 0 < 256 ^ k := Nat.pow_pos (by decide)
  generalize 256 ^ k = m at *
  have hmod := Int.emod_nonneg n (show (m : Int) ≠ 0 by omega)
  have hlt := Int.emod_lt_of_pos n (show (0 : Int) < m by omega)
  rw [Nat.mod_eq_of_lt (by omega), Int.toNat_of_nonneg hmod, Int.emod_bmod]
  exact Int.bmod_eq_of_le_mul_two (by omega) (by omega)

theorem ofLeInt_bounds (bs : List UInt8) : -((256 ^ bs.length : Nat) : Int) ≤ 2 * ofLeInt bs ∧
    2 * ofLeInt bs < (256 ^ bs.length : Nat) := by
  have hpos : 0 < 256 ^ bs.length := Nat.pow_pos (by decide)
  have hlow := Int.le_bmod (x := ofLe bs) hpos
  have hhigh := Int.bmod_lt (x := ofLe bs) hpos
  unfold ofLeInt
  omega

/-- Bytes can be read back from the integer they stand for. -/
theorem leInt_ofLeInt (bs : List UInt8) : leInt bs.length (ofLeInt bs) = bs := by
  have hlt := ofLe_lt bs
  unfold leInt ofLeInt
  rw [Int.bmod_emod, Int.emod_eq_of_lt (by omega) (by omega), Int.toNat_natCast, le_ofLe]

end Bytes

end Cse5462
