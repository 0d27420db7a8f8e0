import Mathlib.Data.List.Basic
import Mathlib.Data.NNRat.Floor
import Mathlib.Data.UInt

/-!
# Commands to the Timer Process

The messages that `starttimer` and `canceltimer` write to the pipe, as the timer
process decodes them. The operation is a short string, the id four bytes, the
interval a `double` of seconds.

`starttimer` copies the id with `memcpy`, and the timer process reads it back
with `memcpy`. `canceltimer` copies it with `strncpy`, which stops at the first
zero byte. An id of one byte survives that, other ids may not.

## Main definitions

* `idBytes`, `idOfBytes`: An `int` as four bytes, lowest first, and back.
* `strncpy`: A copy that stops at the first zero byte.
* `Message`: A decoded command.
* `starttimer`, `canceltimer`: The commands that the driver writes.

## Theorems

* `canceltimer_id`: A cancelled id of one byte is decoded as it was.
-/

namespace Cse5462

/-- The four bytes of an `int`, lowest first. -/
def idBytes (id : Int) : List UInt8 :=
  [UInt8.ofInt id, UInt8.ofInt (id / 2 ^ 8), UInt8.ofInt (id / 2 ^ 16), UInt8.ofInt (id / 2 ^ 24)]

/-- The `int` that a list of bytes stands for. -/
def idOfBytes (bs : List UInt8) : Int :=
  (bs.foldr (fun b n => (b.toNat : Int) + 2 ^ 8 * n) 0).bmod (2 ^ 32)

/-- `strncpy` of as many bytes as the list has: after a zero byte the rest of
    the destination is filled with zeros. -/
def strncpy : List UInt8 → List UInt8
  | [] => []
  | b :: bs => if b = 0 then 0 :: List.replicate bs.length 0 else b :: strncpy bs

/-- The two commands that the driver writes. -/
inductive Operation where
  | start
  | cancel
  deriving DecidableEq, Repr

/-- A command as the timer process decodes it. -/
structure Message where
  operation : Operation
  id : Int
  interval : ℚ≥0
  deriving DecidableEq

/-- `starttimer`, for an interval of `timeInterval` seconds. -/
def starttimer (timeInterval : ℚ≥0) (id : Int) : Message :=
  { operation := .start, id := id, interval := timeInterval }

/-- `canceltimer`. -/
def canceltimer (id : Int) : Message :=
  { operation := .cancel, id := idOfBytes (strncpy (idBytes id)), interval := 0 }

theorem toNat_ofInt_of_lt (n : Int) (h0 : 0 ≤ n) (h : n < 256) :
    ((UInt8.ofInt n).toNat : Int) = n := by
  have hmod : (n % 2 ^ 8).toNat = n.toNat := by omega
  have hsize : n.toNat < UInt8.size := by
    unfold UInt8.size
    omega
  unfold UInt8.ofInt
  rw [hmod, UInt8.toNat_ofNat_of_lt' hsize]
  omega

/-- A copy of bytes of which all but the first are zero is exact. -/
theorem strncpy_low (b : UInt8) (n : Nat) :
    strncpy (b :: List.replicate n 0) = b :: List.replicate n 0 := by
  have hzero : ∀ n, strncpy (List.replicate n 0) = List.replicate n 0 := by
    intro n
    cases n with
    | zero => rfl
    | succ n => rw [List.replicate_succ, strncpy, if_pos rfl, List.length_replicate]
  unfold strncpy
  by_cases hb : b = 0
  · rw [if_pos hb, hb, List.length_replicate]
  · rw [if_neg hb, hzero]

/-- The id of a cancellation, if it fits into one byte. -/
theorem canceltimer_id (id : Int) (h0 : 0 ≤ id) (h : id < 256) : (canceltimer id).id = id := by
  have hhigh : id / 2 ^ 8 = 0 ∧ id / 2 ^ 16 = 0 ∧ id / 2 ^ 24 = 0 := by omega
  have hbytes : idBytes id = UInt8.ofInt id :: List.replicate 3 0 := by
    unfold idBytes
    rw [hhigh.1, hhigh.2.1, hhigh.2.2]
    rfl
  have hrest : (List.replicate 3 (0 : UInt8)).foldr (fun b n => (b.toNat : Int) + 2 ^ 8 * n) 0
      = 0 := rfl
  unfold canceltimer idOfBytes
  rw [hbytes, strncpy_low, List.foldr_cons, hrest, toNat_ofInt_of_lt id h0 h, mul_zero, add_zero]
  exact Int.bmod_eq_of_le_mul_two (by omega) (by omega)

/-- An id above one byte is cancelled as another one. -/
example : (canceltimer 256).id = 0 := by decide

end Cse5462
