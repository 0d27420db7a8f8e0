import Cse5462.Lib.Sequences
import Cse5462.Tcpd.Wire

/-!
# Error Detection

Which corruptions of a packet the server notices. The checksum field is in the
middle of what the checksum covers and is cleared before the test, so it is not
the packet as it was sent that is divided, but the packet with sixteen zeros in
place of the field; the field itself comes behind it.

`Intact` is linear. A corruption is therefore overlooked exactly if it would
pass the test on its own, and that is, if the list of its bits, with those of
the field moved to the end, is divisible by the polynomial.

The bits of a packet are numbered in the order in which the checksum takes
them, in each byte the highest first. The field has the bits from 128 up to 144.

## Main definitions

* `Flips`: The bits that a corruption changes.
* `Detectable`: Three kinds of corruptions.
* `divided`: The bits of a corruption in the order of the division.

## Theorems

* `intact_xor_iff`: What is overlooked would pass the test on its own.
* `intact_iff_remainder`: The test as a division.
* `corrupted_packet_rejected`: The server rejects a corrupted packet.
-/

namespace Cse5462

/-- The corruption `e` changes bit `i`. -/
def Flips (e : List UInt8) (i : Nat) : Prop := (bitsOfBytes e)[i]? = some true

/-- The corruption changes an odd number of bits, or two bits, or some bits that
    are within sixteen consecutive ones and on one side of the checksum field or
    in it. -/
inductive Detectable (e : List UInt8) : Prop where
  | odd (h : Odd ((bitsOfBytes e).count true))
  | two (h : (bitsOfBytes e).count true = 2)
  | burst (a b : Nat) (hne : ∃ i, Flips e i) (hin : ∀ i, Flips e i → a ≤ i ∧ i < b)
      (hlen : b ≤ a + 16) (hplace : b ≤ 128 ∨ (128 ≤ a ∧ b ≤ 144) ∨ 144 ≤ a)

/-- The checksum that two bytes stand for. -/
theorem ofNat_ofLe_two (lo hi : UInt8) :
    BitVec.ofNat 16 (Bytes.ofLe [lo, hi])
      = hi.toBitVec.setWidth 16 <<< 8 ^^^ lo.toBitVec.setWidth 16 := by
  have hlo : lo.toNat < 2 ^ 8 := lo.toNat_lt
  have hvalue : Bytes.ofLe [lo, hi] = 2 ^ 8 * hi.toNat + lo.toNat := by
    simp only [Bytes.ofLe]
    omega
  refine BitVec.eq_of_getLsbD_eq ?_
  intro i hi16
  rw [hvalue, BitVec.getLsbD_ofNat, Nat.testBit_two_pow_mul_add _ hlo, BitVec.getLsbD_xor,
    BitVec.getLsbD_shiftLeft, BitVec.getLsbD_setWidth, BitVec.getLsbD_setWidth]
  by_cases hi8 : i < 8
  · simp [hi8, hi16, BitVec.getLsbD, UInt8.toNat_toBitVec]
  · have hsub : i - 8 < 16 := by omega
    rw [BitVec.getLsbD_of_ge lo.toBitVec i (by omega)]
    simp [hi8, hi16, hsub, BitVec.getLsbD, UInt8.toNat_toBitVec]

/-- It is what its bits leave when they are divided, the high byte first. -/
theorem remainder_two_bytes (hi lo : UInt8) :
    Crc.remainder polynomial (bitsOfBytes [hi, lo])
      = hi.toBitVec.setWidth 16 <<< 8 ^^^ lo.toBitVec.setWidth 16 := by
  have hbits : bitsOfBytes [hi, lo] = Crc.bitsOf hi.toBitVec ++ Crc.bitsOf lo.toBitVec := by
    simp [bitsOfBytes]
  rw [hbits, Crc.remainder_append, Crc.remainder_bitsOf _ _ (by decide),
    Crc.remainder_bitsOf _ _ (by decide), Crc.length_bitsOf, Crc.iterate_shift_small]
  have := hi.toNat_lt
  rw [BitVec.toNat_setWidth, UInt8.toNat_toBitVec]
  omega

/-- The field of two messages that are combined. -/
theorem checkOf_xor (m n : List UInt8) (hm : 18 ≤ m.length) (hn : 18 ≤ n.length) :
    checkOf (m.zipWith (· ^^^ ·) n) = checkOf m ^^^ checkOf n := by
  rcases checkOf_cases m hm with ⟨lo, hi, hbytes, -⟩
  rcases checkOf_cases n hn with ⟨lo', hi', hbytes', -⟩
  unfold checkOf
  rw [Bytes.slice_zipWith, hbytes, hbytes']
  simp only [List.zipWith_cons_cons, List.zipWith_nil_left]
  rw [ofNat_ofLe_two, ofNat_ofLe_two, ofNat_ofLe_two, UInt8.toBitVec_xor, UInt8.toBitVec_xor,
    BitVec.setWidth_xor, BitVec.setWidth_xor, BitVec.shiftLeft_xor_distrib]
  ac_rfl

/-- What is overlooked in an intact message would pass the test on its own. -/
theorem intact_xor_iff (m e : List UInt8) (hm : 18 ≤ m.length) (he : e.length = m.length)
    (h : Intact m) : Intact (m.zipWith (· ^^^ ·) e) ↔ Intact e := by
  have hzeros : (Bytes.zeros 2).zipWith (· ^^^ ·) (Bytes.zeros 2) = Bytes.zeros 2 := rfl
  have hclear : Bytes.bzero (m.zipWith (· ^^^ ·) e) 16 2
      = (Bytes.bzero m 16 2).zipWith (· ^^^ ·) (Bytes.bzero e 16 2) := by
    unfold Bytes.bzero
    rw [Bytes.zipWith_put _ _ _ _ _ _ he.symm rfl, hzeros]
  have hlen : (Bytes.bzero m 16 2).length = (Bytes.bzero e 16 2).length := by
    unfold Bytes.bzero
    rw [Bytes.length_put (by simp; omega), Bytes.length_put (by simp; omega), he]
  unfold Intact at h ⊢
  rw [hclear, crcFast_xor _ _ hlen, checkOf_xor m e hm (by omega), h]
  exact BitVec.xor_right_inj (checkOf m)

/-- The bits of a corruption in the order of the division: the checksum field is
    cleared, and its bytes, the high one first, come behind. -/
def divided (pre post : List UInt8) (lo hi : UInt8) : List Bool :=
  bitsOfBytes pre ++ (bitsOfBytes [0, 0] ++ (bitsOfBytes post ++ bitsOfBytes [hi, lo]))

/-- A message passes the test exactly if the list of its bits in the order of
    the division leaves no remainder. -/
theorem intact_iff_remainder (pre post : List UInt8) (lo hi : UInt8) (hpre : pre.length = 16) :
    Intact (pre ++ ([lo, hi] ++ post)) ↔
      Crc.remainder polynomial (divided pre post lo hi) = 0 := by
  have hclear : Bytes.bzero (pre ++ ([lo, hi] ++ post)) 16 2 = pre ++ ([0, 0] ++ post) := by
    unfold Bytes.bzero Bytes.put
    rw [List.take_left' hpre, Bytes.length_zeros, List.drop_append,
      List.drop_of_length_le (by omega), hpre, List.append_assoc]
    rfl
  have hfield : Bytes.slice (pre ++ ([lo, hi] ++ post)) 16 2 = [lo, hi] := by
    unfold Bytes.slice
    rw [List.drop_left' hpre]
    rfl
  have hsplit : divided pre post lo hi
      = bitsOfBytes (pre ++ ([0, 0] ++ post)) ++ bitsOfBytes [hi, lo] := by
    unfold divided
    rw [bitsOfBytes_append, bitsOfBytes_append, List.append_assoc, List.append_assoc]
  unfold Intact checkOf
  rw [hclear, hfield, hsplit, Crc.remainder_append, length_bitsOfBytes, ofNat_ofLe_two,
    ← remainder_two_bytes, crcFast_eq]
  exact BitVec.xor_eq_zero_iff.symm

/-- The ones of a corruption are those of the list that is divided. -/
theorem count_divided (pre post : List UInt8) (lo hi : UInt8) :
    (divided pre post lo hi).count true = (bitsOfBytes (pre ++ ([lo, hi] ++ post))).count true := by
  have hzero : (bitsOfBytes [0, 0]).count true = 0 := by decide
  have hpair : (bitsOfBytes [hi, lo]).count true = (bitsOfBytes [lo, hi]).count true := by
    simp only [bitsOfBytes, List.flatMap_cons, List.flatMap_nil, List.count_append, List.count_nil]
    omega
  unfold divided
  simp only [bitsOfBytes_append, List.count_append, hzero, hpair]
  omega

variable {pre post : List UInt8} {lo hi : UInt8}

/-- The bits that a corruption changes, before the checksum field, in it and
    behind it. -/
theorem flips_iff (hpre : pre.length = 16) (i : Nat) :
    Flips (pre ++ ([lo, hi] ++ post)) i ↔ (bitsOfBytes pre)[i]? = some true ∨
      (128 ≤ i ∧ (bitsOfBytes [lo, hi])[i - 128]? = some true) ∨
      (144 ≤ i ∧ (bitsOfBytes post)[i - 144]? = some true) := by
  have hprebits : (bitsOfBytes pre).length = 128 := by rw [length_bitsOfBytes, hpre]
  have hpair : (bitsOfBytes [lo, hi]).length = 16 := length_bitsOfBytes _
  unfold Flips
  rw [bitsOfBytes_append, bitsOfBytes_append, getElem?_append_iff, getElem?_append_iff, hprebits,
    hpair, Nat.sub_sub]
  have hle : 16 ≤ i - 128 ↔ 144 ≤ i := by omega
  rw [hle, and_or_left]
  refine or_congr_right (or_congr_right ⟨And.right, fun h => ⟨by omega, h⟩⟩)

/-- The ones of the list that is divided, before the field, behind it, and those
    of the field itself at the end. -/
theorem getElem?_divided (hpre : pre.length = 16) (hpost : post.length = 1022) (i : Nat) :
    (divided pre post lo hi)[i]? = some true ↔ (bitsOfBytes pre)[i]? = some true ∨
      (144 ≤ i ∧ (bitsOfBytes post)[i - 144]? = some true) ∨
      (8320 ≤ i ∧ (bitsOfBytes [hi, lo])[i - 8320]? = some true) := by
  have hprebits : (bitsOfBytes pre).length = 128 := by rw [length_bitsOfBytes, hpre]
  have hpostbits : (bitsOfBytes post).length = 8176 := by rw [length_bitsOfBytes, hpost]
  have hzeros : (bitsOfBytes [0, 0]).length = 16 := length_bitsOfBytes _
  have hclear : ∀ j, (bitsOfBytes [0, 0])[j]? ≠ some true := fun j h =>
    true_notMem_bitsOfBytes_zeros 2 (List.mem_of_getElem? h)
  unfold divided
  rw [getElem?_append_iff, getElem?_append_iff, getElem?_append_iff, hprebits, hpostbits, hzeros,
    Nat.sub_sub, Nat.sub_sub, or_iff_right (hclear _)]
  refine or_congr_right ⟨?_, ?_⟩
  · rintro ⟨h, h', hpostbit | ⟨h'', hfieldbit⟩⟩
    · exact Or.inl ⟨by omega, hpostbit⟩
    · exact Or.inr ⟨by omega, hfieldbit⟩
  · rintro (⟨h, hpostbit⟩ | ⟨h, hfieldbit⟩)
    · exact ⟨by omega, by omega, Or.inl hpostbit⟩
    · exact ⟨by omega, by omega, Or.inr ⟨by omega, hfieldbit⟩⟩

theorem lt_of_getElem?_bits {m : List UInt8} {i : Nat} (h : (bitsOfBytes m)[i]? = some true) :
    i < 8 * m.length := by
  rw [← length_bitsOfBytes]
  exact (List.getElem?_eq_some_iff.mp h).1

/-- A one in one order of the two bytes of the field is one in the other. -/
theorem exists_swapped {i : Nat} (h : (bitsOfBytes [hi, lo])[i]? = some true) :
    ∃ j : Nat, (bitsOfBytes [lo, hi])[j]? = some true := by
  refine List.mem_iff_getElem?.mp ?_
  have hmem := List.mem_of_getElem? h
  simp only [bitsOfBytes, List.flatMap_cons, List.flatMap_nil, List.append_nil,
    List.mem_append] at hmem ⊢
  exact hmem.symm

/-- A burst on one side of the field, or in it, is a burst of the list that is
    divided. -/
theorem divided_window (hpre : pre.length = 16) (hpost : post.length = 1022) {a b : Nat}
    (hne : ∃ i, Flips (pre ++ ([lo, hi] ++ post)) i)
    (hin : ∀ i, Flips (pre ++ ([lo, hi] ++ post)) i → a ≤ i ∧ i < b) (hlen : b ≤ a + 16)
    (hplace : b ≤ 128 ∨ (128 ≤ a ∧ b ≤ 144) ∨ 144 ≤ a) :
    ∃ a' b', b' ≤ a' + 16 ∧ (∃ i : Nat, (divided pre post lo hi)[i]? = some true) ∧
      ∀ i : Nat, (divided pre post lo hi)[i]? = some true → a' ≤ i ∧ i < b' := by
  -- Where the ones of the three parts are.
  have hinpre : ∀ i : Nat, (bitsOfBytes pre)[i]? = some true → a ≤ i ∧ i < b ∧ i < 128 :=
    fun i h => by
      have hrange := hin i ((flips_iff hpre i).mpr (Or.inl h))
      have hi' := lt_of_getElem?_bits h
      omega
  have hinfield : ∀ i : Nat, (bitsOfBytes [lo, hi])[i]? = some true →
      a ≤ i + 128 ∧ i + 128 < b ∧ i < 16 := by
    intro i h
    have hrange := hin (i + 128) (by
      rw [flips_iff hpre, Nat.add_sub_cancel]
      exact Or.inr (Or.inl ⟨by omega, h⟩))
    have hi' : i < 16 := lt_of_getElem?_bits h
    omega
  have hinpost : ∀ i : Nat, 144 ≤ i → (bitsOfBytes post)[i - 144]? = some true → a ≤ i ∧ i < b :=
    fun i h144 h => hin i ((flips_iff hpre i).mpr (Or.inr (Or.inr ⟨h144, h⟩)))
  rcases hne with ⟨i, hi'⟩
  rw [flips_iff hpre] at hi'
  by_cases hfield : ∃ j : Nat, (bitsOfBytes [lo, hi])[j]? = some true
  · -- All of it is in the field, which is divided last.
    rcases hfield with ⟨j, hj⟩
    have hj' := hinfield j hj
    rcases exists_swapped hj with ⟨k, hk⟩
    refine ⟨8320, 8336, by omega, ⟨8320 + k, ?_⟩, fun i h => ?_⟩
    · rw [getElem?_divided hpre hpost, Nat.add_sub_cancel_left]
      exact Or.inr (Or.inr ⟨Nat.le_add_right 8320 k, hk⟩)
    · rcases (getElem?_divided hpre hpost i).mp h with h | ⟨h144, h⟩ | ⟨h8320, h⟩
      · have := hinpre i h
        omega
      · have := hinpost i h144 h
        omega
      · have : i - 8320 < 16 := lt_of_getElem?_bits h
        omega
  · -- It is beside the field and stays where it is.
    refine ⟨a, b, hlen, ⟨i, ?_⟩, fun i h => ?_⟩
    · rcases hi' with h | ⟨-, h⟩ | h
      · exact (getElem?_divided hpre hpost i).mpr (Or.inl h)
      · exact absurd ⟨_, h⟩ hfield
      · exact (getElem?_divided hpre hpost i).mpr (Or.inr (Or.inl h))
    · rcases (getElem?_divided hpre hpost i).mp h with h | ⟨h144, h⟩ | ⟨-, h⟩
      · have := hinpre i h
        omega
      · exact hinpost i h144 h
      · exact absurd (exists_swapped h) hfield

/-- A corruption of one of the three kinds does not pass the test on its own. -/
theorem not_intact_of_detectable (hpre : pre.length = 16) (hpost : post.length = 1022)
    (h : Detectable (pre ++ ([lo, hi] ++ post))) : ¬ Intact (pre ++ ([lo, hi] ++ post)) := by
  rw [intact_iff_remainder pre post lo hi hpre]
  have hp : polynomial.getLsbD 0 = true := by decide
  have hcount := count_divided pre post lo hi
  have hlen : (divided pre post lo hi).length = 8336 := by
    unfold divided
    simp only [List.length_append, length_bitsOfBytes, hpre, hpost, List.length_cons,
      List.length_nil]
  cases h with
  | odd h =>
      rw [← hcount] at h
      exact Crc.remainder_odd (by decide) parity_polynomial h
  | two h =>
      rw [← hcount] at h
      exact Crc.remainder_two hp (Nat.le_of_eq hlen) order_polynomial h
  | burst a b hne hin hwidth hplace =>
      rcases divided_window hpre hpost hne hin hwidth hplace with ⟨a', b', hwidth', hne', hin'⟩
      exact Crc.remainder_window hp hwidth' hne' hin'

/-- Bytes that pass the test do not pass it with one of the corruptions. -/
theorem not_intact_corrupted {m e : List UInt8} (hm : m.length = packetBytes)
    (he : e.length = packetBytes) (herr : Detectable e) (hintact : Intact m) :
    ¬ Intact (m.zipWith (· ^^^ ·) e) := by
  rw [intact_xor_iff m e (by rw [hm]; decide) (he.trans hm.symm) hintact]
  -- The corruption around the checksum field.
  rcases checkOf_cases e (by rw [he]; decide) with ⟨lo, hi, hfield, -⟩
  have hsplit : e = e.take 16 ++ ([lo, hi] ++ e.drop 18) := by
    rw [← hfield, Bytes.slice, show e.drop 18 = (e.drop 16).drop 2 by rw [List.drop_drop],
      List.take_append_drop, List.take_append_drop]
  rw [hsplit] at herr ⊢
  refine not_intact_of_detectable ?_ ?_ herr
  · rw [List.length_take, he]
    rfl
  · rw [List.length_drop, he]
    rfl

/-- For every packet that the client sends, with the checksum field of its
    record at zero, and every corruption of one of the three kinds of the bytes
    that the checksum covers, the server rejects what it receives. -/
theorem corrupted_packet_rejected (record : List UInt8) (p : Packet)
    (hlen : record.length = packetSize) (hcheck : checkField record = 0) (e buf : List UInt8)
    (he : e.length = packetBytes) (herr : Detectable e)
    (hbuf : Bytes.slice buf 16 packetBytes
      = (Bytes.slice (writePacket record p) 16 packetBytes).zipWith (· ^^^ ·) e) :
    ¬ Intact (Bytes.slice buf 16 packetBytes) ∧ readPacket buf = none := by
  rcases fillPacket_spec record p hlen with ⟨hfill, hfield, -⟩
  rcases put_check_spec (fillPacket record p) packetBytes (by decide) hfill with
    ⟨hsent, -, hintact, -⟩
  rw [hfield] at hintact
  have hsentlen : (Bytes.slice (writePacket record p) 16 packetBytes).length = packetBytes :=
    Bytes.length_slice (Nat.le_of_eq hsent.symm)
  have hrejected : ¬ Intact (Bytes.slice buf 16 packetBytes) := by
    rw [hbuf]
    exact not_intact_corrupted hsentlen he herr (hintact.mpr hcheck)
  refine ⟨hrejected, ?_⟩
  unfold readPacket
  dsimp only
  rw [if_neg hrejected]

/-- A packet with the lowest bit of its first byte changed. -/
theorem corrupted_packet_rejected_one :
    readPacket (Bytes.zeros 16 ++ (Bytes.slice (writePacket (Bytes.zeros packetSize)
      ⟨0, ⟨0, 0⟩, Block.single 1⟩) 16 packetBytes).zipWith (· ^^^ ·) (1 :: Bytes.zeros 1039))
      = none := by
  have hodd : Odd ((bitsOfBytes (1 :: Bytes.zeros 1039)).count true) := by
    have hone : (bitsOfBytes [1]).count true = 1 := by decide
    have hzeros := List.count_eq_zero.mpr (true_notMem_bitsOfBytes_zeros 1039)
    have hcons : (1 : UInt8) :: Bytes.zeros 1039 = [1] ++ List.replicate 1039 0 := rfl
    rw [hcons, bitsOfBytes_append, List.count_append, hone, hzeros]
    exact odd_one
  refine (corrupted_packet_rejected (Bytes.zeros packetSize) ⟨0, ⟨0, 0⟩, Block.single 1⟩
    (Bytes.length_zeros _) ?_ (1 :: Bytes.zeros 1039) _ ?_ (.odd hodd) ?_).2
  · exact checkField_zeros packetSize (by decide)
  · rw [List.length_cons, Bytes.length_zeros]
    rfl
  · unfold Bytes.slice
    rw [List.drop_left' (Bytes.length_zeros 16), List.take_of_length_le]
    rw [List.length_zipWith, List.length_cons, Bytes.length_zeros]
    exact Nat.min_le_right _ _

end Cse5462
