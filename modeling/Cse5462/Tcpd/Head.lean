import Mathlib.Data.List.Basic

/-!
# Constants and Blocks

The constants of `head.h` that the transport uses, and the 1000-byte block that
everything in it is made of: what ftpc hands over, a slot of `sendbuf` or
`recvbuf`, the body of a packet. The length is a field of the type, so a block
of another size cannot be built.

Both ends of the transport decide whether a slot is in use by looking at its
bytes. `checkEmpty` is that loop, and `Block.isEmpty_iff` says what it decides:
a slot counts as free exactly when it is all zero, which is why a block of
zeros cannot be told from no block at all.

## Main definitions

* `seqOf`: The sequence number of a frame.
* `Block`: The contents of one slot.
* `checkEmpty`: The loop that looks for a non-zero byte.
* `Block.copy`: The slot after a `memcpy` of its first bytes.

## Theorems

* `checkEmpty_iff`: The loop finds no non-zero byte.
* `Block.isEmpty_iff`: An empty slot is the zero slot.
* `Block.copy_full`: Copying a whole block replaces the slot.
-/

namespace Cse5462

/-- `BUFFSIZE`: the size of a block. -/
def buffSize : Nat := 1000

/-- `SEND_RECV_BUF_SIZE`: the number of slots of either buffer, and so the
    number of sequence numbers. -/
def sendRecvBufSize : Int := 64

/-- `WINDOW`: the number of frames that may be outstanding. -/
def window : Int := 20

/-- The sequence number of frame `n`, counted from the start of the transfer. -/
def seqOf (n : Nat) : Int := (n : Int) % 64


theorem seqOf_mem (n : Nat) : 0 ≤ seqOf n ∧ seqOf n < 64 := by
  unfold seqOf
  omega

/-- `header_size`: the address header, the TCP header and the time stamp of a
    packet, with the padding that `struct Packet` puts before the body. -/
def headerSize : Int := 16 + 20 + 16 + 4

/-- `checkEmpty`: look at the first `length` bytes, and report a non-zero one
    as not empty. The mask is the `char` with all bits set. -/
def checkEmpty : List UInt8 → Nat → Bool
  | [], _ => true
  | _, 0 => true
  | c :: cs, length + 1 => if c &&& 0xff ≠ 0 then false else checkEmpty cs length

/-- One slot of a buffer, or the body of a packet. -/
@[ext]
structure Block where
  bytes : List UInt8
  length_eq : bytes.length = buffSize

instance : DecidableEq Block := fun a b =>
  decidable_of_iff (a.bytes = b.bytes) Block.ext_iff.symm

namespace Block

/-- A cleared slot. -/
def zero : Block := ⟨List.replicate buffSize 0, List.length_replicate⟩

/-- The block of one byte `c` followed by zeros. -/
def single (c : UInt8) : Block := ⟨c :: List.replicate (buffSize - 1) 0, by
  rw [List.length_cons, List.length_replicate]
  rfl⟩

/-- The test that the source makes on a slot. -/
def isEmpty (b : Block) : Bool := checkEmpty b.bytes buffSize

/-- The slot `dst` after `memcpy(dst, src, n)`. -/
def copy (dst src : Block) (n : Nat) : Block :=
  ⟨src.bytes.take n ++ dst.bytes.drop n, by
    rw [List.length_append, List.length_take, List.length_drop, dst.length_eq, src.length_eq]
    omega⟩

end Block

theorem and_allOnes (c : UInt8) : c &&& 0xff = c := by
  have h : (0xff : UInt8) = -1 := by decide
  rw [h, UInt8.and_neg_one]

theorem checkEmpty_iff (cs : List UInt8) (n : Nat) (hn : cs.length ≤ n) :
    checkEmpty cs n = true ↔ ∀ c ∈ cs, c = 0 := by
  induction cs generalizing n with
  | nil => simp only [checkEmpty, List.not_mem_nil, false_implies, implies_true]
  | cons c cs ih =>
      cases n with
      | zero =>
          simp only [List.length_cons] at hn
          omega
      | succ n =>
          simp only [List.length_cons, Nat.add_le_add_iff_right] at hn
          rw [checkEmpty, and_allOnes, List.forall_mem_cons, ← ih n hn]
          by_cases hc : c = 0
          · simp only [hc, ne_eq, not_true_eq_false, if_false, true_and]
          · simp only [hc, ne_eq, not_false_eq_true, if_true, Bool.false_eq_true, false_and]

namespace Block

/-- An empty slot is the zero slot: the test does not tell a block of zeros
    from a cleared slot. -/
theorem isEmpty_iff (b : Block) : b.isEmpty = true ↔ b = zero := by
  rw [isEmpty, checkEmpty_iff _ _ (Nat.le_of_eq b.length_eq)]
  constructor
  · intro h
    exact Block.ext (List.eq_replicate_iff.mpr ⟨b.length_eq, h⟩)
  · rintro rfl c hc
    exact List.eq_of_mem_replicate hc

@[simp] theorem isEmpty_zero : zero.isEmpty = true := (isEmpty_iff zero).mpr rfl

theorem isEmpty_eq_false_iff (b : Block) : b.isEmpty = false ↔ b ≠ zero := by
  rw [← Bool.not_eq_true, isEmpty_iff]

theorem copy_full (dst src : Block) : copy dst src buffSize = src := by
  refine Block.ext ?_
  have hsrc : src.bytes.take buffSize = src.bytes :=
    List.take_of_length_le (Nat.le_of_eq src.length_eq)
  have hdst : dst.bytes.drop buffSize = [] := List.drop_of_length_le (Nat.le_of_eq dst.length_eq)
  simp only [copy, hsrc, hdst, List.append_nil]

theorem copy_none (dst src : Block) : copy dst src 0 = dst := by
  refine Block.ext ?_
  simp only [copy, List.take_zero, List.drop_zero, List.nil_append]

theorem single_ne_zero (c : UInt8) (hc : c ≠ 0) : single c ≠ zero := by
  intro h
  have hb : c ∈ zero.bytes := by
    rw [← h]
    exact List.mem_cons_self
  exact hc (List.eq_of_mem_replicate hb)

end Block

end Cse5462
