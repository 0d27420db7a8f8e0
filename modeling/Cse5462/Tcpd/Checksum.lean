import Cse5462.Lib.Crc
import Mathlib.Data.UInt

/-!
# The Checksum

`crcInit` and `crcFast`: the table of what eight steps of the division do to a
byte, and the loop that uses it to divide a message, a byte at a time.

The checksum of a message is the remainder, by `POLYNOMIAL`, of its bits and
sixteen zeros behind them. The bits of a byte are taken highest first. It is
linear, so the checksum of a message that has been corrupted is that of the
message and that of the corruption.

## Main definitions

* `crcTable`: The table that `crcInit` fills.
* `crcFast`: The checksum of a message.
* `bitsOfBytes`: The bits of a message in the order of the division.

## Theorems

* `crcFast_eq`: The checksum as a remainder.
* `crcFast_xor`: The checksum is linear.
* `crcFast_zeros`: The checksum of zeros is zero.
* `crcFast_two`: That of two bytes among zeros is not.
* `order_polynomial`: The powers of `x` that are not one.
-/

namespace Cse5462

/-- `POLYNOMIAL`. -/
def polynomial : BitVec 16 := 0x8005

/-- `TOPBIT`. -/
def topbit : BitVec 16 := 1 <<< 15

/-- The division of one bit in `crcInit`. -/
def crcBit (remainder : BitVec 16) : BitVec 16 :=
  if remainder &&& topbit ≠ 0 then remainder <<< 1 ^^^ polynomial else remainder <<< 1

/-- The table that `crcInit` fills: the remainder of each possible dividend. -/
def crcTable : Vector (BitVec 16) 256 :=
  Vector.ofFn fun dividend => crcBit^[8] (BitVec.ofNat 16 dividend <<< 8)

/-- One round of the loop of `crcFast`. -/
def crcByte (remainder : BitVec 16) (byte : UInt8) : BitVec 16 :=
  let data : BitVec 8 := (byte.toBitVec.setWidth 16 ^^^ remainder >>> 8).setWidth 8
  crcTable[data.toFin] ^^^ remainder <<< 8

/-- `crcFast`. -/
def crcFast (message : List UInt8) : BitVec 16 := message.foldl crcByte 0

theorem crcBit_eq (r : BitVec 16) : crcBit r = Crc.shift polynomial r := by
  have htop : topbit = BitVec.twoPow 16 15 := by decide
  have hmsb : r &&& topbit ≠ 0 ↔ r.msb = true := by
    rw [htop, BitVec.and_twoPow, BitVec.msb_eq_getLsbD_last]
    cases r.getLsbD (16 - 1) <;> decide
  unfold crcBit Crc.shift
  by_cases h : r.msb = true
  · rw [if_pos (hmsb.mpr h), if_pos h]
  · rw [if_neg (mt hmsb.mp h), if_neg h]

/-- A byte is taken in by eight steps of the division. -/
theorem crcByte_eq (r : BitVec 16) (b : UInt8) :
    crcByte r b = (Crc.shift polynomial)^[8] (r ^^^ b.toBitVec.setWidth 16 <<< 8) := by
  have hstep : crcBit = Crc.shift polynomial := funext crcBit_eq
  -- The high byte goes through the table, the low byte only moves up.
  have hsplit : r ^^^ b.toBitVec.setWidth 16 <<< 8
      = BitVec.ofNat 16 ((b.toBitVec.setWidth 16 ^^^ r >>> 8).setWidth 8).toNat <<< 8
        ^^^ (r.setWidth 8).setWidth 16 := by
    refine BitVec.eq_of_getLsbD_eq ?_
    intro i hi
    rw [BitVec.ofNat_toNat]
    simp only [BitVec.getLsbD_xor, BitVec.getLsbD_shiftLeft, BitVec.getLsbD_setWidth,
      BitVec.getLsbD_ushiftRight]
    by_cases hi8 : i < 8
    · simp [hi8, hi]
    · have hsub : i - 8 < 8 ∧ i - 8 < 16 := by omega
      have hadd : 8 + (i - 8) = i := by omega
      simp [hi8, hi, hsub, hadd, Bool.xor_comm]
  have hlow : (Crc.shift polynomial)^[8] ((r.setWidth 8).setWidth 16) = r <<< 8 := by
    rw [Crc.iterate_shift_small]
    · refine BitVec.eq_of_getLsbD_eq ?_
      intro i hi
      simp only [BitVec.getLsbD_shiftLeft, BitVec.getLsbD_setWidth]
      by_cases hi8 : i < 8
      · simp [hi8]
      · have hsub : i - 8 < 8 ∧ i - 8 < 16 := by omega
        simp [hi8, hi, hsub]
    · rw [BitVec.toNat_setWidth, BitVec.toNat_setWidth]
      omega
  unfold crcByte crcTable
  dsimp only
  rw [hsplit, Crc.iterate_shift_xor, hlow, ← hstep]
  simp

/-- The bits of a message in the order of the division. -/
def bitsOfBytes (message : List UInt8) : List Bool :=
  message.flatMap fun b => Crc.bitsOf b.toBitVec

theorem bitsOfBytes_append (m n : List UInt8) :
    bitsOfBytes (m ++ n) = bitsOfBytes m ++ bitsOfBytes n := List.flatMap_append

theorem length_bitsOfBytes (m : List UInt8) : (bitsOfBytes m).length = 8 * m.length := by
  unfold bitsOfBytes
  induction m with
  | nil => rfl
  | cons b m ih =>
      rw [List.flatMap_cons, List.length_append, ih, Crc.length_bitsOf, List.length_cons]
      omega

/-- The checksum is the remainder of the bits of the message with sixteen zeros
    behind them. -/
theorem crcFast_eq (m : List UInt8) :
    crcFast m = (Crc.shift polynomial)^[16] (Crc.remainder polynomial (bitsOfBytes m)) := by
  unfold crcFast
  induction m using List.reverseRecOn with
  | nil => exact (Crc.iterate_shift_zero polynomial 16).symm
  | append_singleton m b ih =>
      have hbyte : bitsOfBytes [b] = Crc.bitsOf b.toBitVec := by simp [bitsOfBytes]
      have hsmall : (Crc.shift polynomial)^[8] (b.toBitVec.setWidth 16)
          = b.toBitVec.setWidth 16 <<< 8 := by
        refine Crc.iterate_shift_small _ _ _ ?_
        rw [BitVec.toNat_setWidth]
        omega
      rw [List.foldl_append, ih, List.foldl_cons, List.foldl_nil, crcByte_eq, bitsOfBytes_append,
        hbyte, Crc.remainder_append, Crc.length_bitsOf,
        Crc.remainder_bitsOf polynomial b.toBitVec (by decide), ← hsmall,
        Crc.iterate_shift_xor, Crc.iterate_shift_xor, ← Function.iterate_add_apply,
        ← Function.iterate_add_apply, ← Function.iterate_add_apply]

theorem crcByte_xor (r s : BitVec 16) (a b : UInt8) :
    crcByte (r ^^^ s) (a ^^^ b) = crcByte r a ^^^ crcByte s b := by
  rw [crcByte_eq, crcByte_eq, crcByte_eq, ← Crc.iterate_shift_xor, UInt8.toBitVec_xor,
    BitVec.setWidth_xor, BitVec.shiftLeft_xor_distrib]
  congr 1
  ac_rfl

/-- The checksum is linear. -/
theorem crcFast_xor (m n : List UInt8) (h : m.length = n.length) :
    crcFast (m.zipWith (· ^^^ ·) n) = crcFast m ^^^ crcFast n := by
  have hfold : ∀ r s : BitVec 16, (m.zipWith (· ^^^ ·) n).foldl crcByte (r ^^^ s)
      = m.foldl crcByte r ^^^ n.foldl crcByte s := by
    induction m generalizing n with
    | nil =>
        intro r s
        cases n with
        | nil => rfl
        | cons b n => cases h
    | cons a m ih =>
        intro r s
        cases n with
        | nil => cases h
        | cons b n =>
            rw [List.zipWith_cons_cons, List.foldl_cons, crcByte_xor, ih n (by simpa using h)]
            rfl
  exact hfold 0 0

theorem true_notMem_bitsOfBytes_zeros (n : Nat) : true ∉ bitsOfBytes (List.replicate n 0) := by
  intro hmem
  rcases List.mem_flatMap.mp hmem with ⟨b, hb, hbit⟩
  rw [List.eq_of_mem_replicate hb] at hbit
  exact absurd hbit (by decide)

theorem crcFast_zeros (n : Nat) : crcFast (List.replicate n 0) = 0 := by
  rw [crcFast_eq, Crc.remainder_zeros polynomial _ (true_notMem_bitsOfBytes_zeros n)]
  exact Crc.iterate_shift_zero polynomial 16

/-- Two bytes among zeros have a checksum that is not zero, unless they are
    zero themselves. -/
theorem crcFast_two (a c : Nat) (lo hi : UInt8) (h : lo ≠ 0 ∨ hi ≠ 0) :
    crcFast (List.replicate a 0 ++ ([lo, hi] ++ List.replicate c 0)) ≠ 0 := by
  have hzeros : ∀ n, true ∉ bitsOfBytes (List.replicate n 0) := true_notMem_bitsOfBytes_zeros
  have hpair : bitsOfBytes [lo, hi] = Crc.bitsOf lo.toBitVec ++ Crc.bitsOf hi.toBitVec := by
    simp [bitsOfBytes]
  have hbyte : ∀ b : UInt8, b ≠ 0 → true ∈ Crc.bitsOf b.toBitVec := fun b hb =>
    Crc.true_mem_bitsOf fun h0 => hb (UInt8.toBitVec_inj.mp h0)
  rw [crcFast_eq, bitsOfBytes_append, bitsOfBytes_append, hpair]
  refine Crc.iterate_shift_ne_zero polynomial _ (by decide) 16
    (Crc.remainder_burst (by decide) (hzeros a) (by simp) ?_ (hzeros c))
  rcases h with h | h
  · exact List.mem_append_left _ (hbyte lo h)
  · exact List.mem_append_right _ (hbyte hi h)

/-- The order of `x` is greater than the length of a packet in bits. -/
theorem order_polynomial (k : Nat) (hk : 0 < k) (hk' : k ≤ 8335) :
    (Crc.shift polynomial)^[k] 1#16 ≠ 1#16 :=
  Crc.iterate_shift_ne_one polynomial 1#16 8335 (by decide +kernel) k hk hk'

theorem parity_polynomial : Crc.parity polynomial = 1 := by
  decide

end Cse5462
