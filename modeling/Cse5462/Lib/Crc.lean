import Mathlib.Algebra.BigOperators.Ring.Finset
import Mathlib.Algebra.Field.ZMod
import Mathlib.Data.List.GetD
import Mathlib.Data.ZMod.Basic
import Mathlib.Logic.Function.Iterate

/-!
# Division of Polynomials over Two Elements

A word of `w` bits is read as a polynomial of degree below `w`, bit `i` being
the coefficient of `x ^ i`, and `p` as what `x ^ w` is replaced by. `shift` is
the multiplication by `x`, and the remainder of a list of bits, the highest
coefficient first, is what is left of it after division.

The remainder is linear. An error is therefore found exactly if its own
remainder is not zero, and the second half of this module shows that of three
kinds of errors: an odd number of ones, two ones that are close enough for the
order of `x`, and any ones that lie within `w` places.

## Main definitions

* `Crc.shift`: Multiplication by `x`.
* `Crc.remainder`: The remainder of a list of bits.
* `Crc.reachesOne`: A test for the order of `x`.
* `Crc.parity`: The value of a polynomial at one.
* `Crc.bitsOf`: The bits of a word, the highest first.

## Theorems

* `shift_xor`, `remainder_append`: The remainder is linear.
* `shift_injective`: Multiplication by `x` loses nothing.
* `remainder_bitsOf`: The remainder of a short list is its number.
* `remainder_odd`, `remainder_two`, `remainder_window`: The errors that are found.
-/

namespace Cse5462

namespace Crc

variable {w : Nat}

/-- Multiplication by `x`, where `x ^ w` is replaced by `p`. -/
def shift (p r : BitVec w) : BitVec w := if r.msb then r <<< 1 ^^^ p else r <<< 1

/-- One bit as a polynomial. -/
def bit (b : Bool) : BitVec w := if b then 1#w else 0#w

/-- One step of the division: the next coefficient is taken in. -/
def step (p r : BitVec w) (b : Bool) : BitVec w := shift p r ^^^ bit b

/-- The remainder of a list of bits, the highest coefficient first. -/
def remainder (p : BitVec w) (bits : List Bool) : BitVec w := bits.foldl (step p) 0#w

theorem shift_xor (p a b : BitVec w) : shift p (a ^^^ b) = shift p a ^^^ shift p b := by
  unfold shift
  rw [BitVec.msb_xor, BitVec.shiftLeft_xor_distrib]
  cases a.msb
  · cases b.msb
    · rfl
    · exact BitVec.xor_assoc _ _ _
  · cases b.msb
    · simp only [Bool.xor_false, if_true, Bool.false_eq_true, if_false]
      ac_rfl
    · simp only [Bool.xor_self, Bool.false_eq_true, if_false, if_true]
      rw [BitVec.xor_assoc (a <<< 1), ← BitVec.xor_assoc p, BitVec.xor_comm p,
        BitVec.xor_assoc (b <<< 1) p p, BitVec.xor_self, BitVec.xor_zero]

@[simp] theorem shift_zero (p : BitVec w) : shift p 0#w = 0#w := by
  have h := shift_xor p 0#w 0#w
  rw [BitVec.xor_self, BitVec.xor_self] at h
  exact h

theorem iterate_shift_xor (p a b : BitVec w) (n : Nat) :
    (shift p)^[n] (a ^^^ b) = (shift p)^[n] a ^^^ (shift p)^[n] b := by
  induction n generalizing a b with
  | zero => rfl
  | succ n ih =>
      rw [Function.iterate_succ_apply, Function.iterate_succ_apply, Function.iterate_succ_apply,
        shift_xor, ih]

@[simp] theorem iterate_shift_zero (p : BitVec w) (n : Nat) : (shift p)^[n] 0#w = 0#w :=
  Function.iterate_fixed (shift_zero p) n

/-- Where no coefficient is moved out, multiplication only moves the bits. -/
theorem iterate_shift_small (p r : BitVec w) (n : Nat) (h : r.toNat * 2 ^ n < 2 ^ w) :
    (shift p)^[n] r = r <<< n := by
  induction n with
  | zero => rw [Function.iterate_zero_apply, BitVec.shiftLeft_zero]
  | succ n ih =>
      have hpow : r.toNat * 2 ^ (n + 1) = r.toNat * 2 ^ n * 2 := by
        rw [pow_succ, mul_assoc]
      have hsmall : (r <<< n).toNat = r.toNat * 2 ^ n := by
        rw [BitVec.toNat_shiftLeft, Nat.shiftLeft_eq, Nat.mod_eq_of_lt (by omega)]
      rw [Function.iterate_succ_apply', ih (by omega), shift, if_neg, ← BitVec.shiftLeft_add]
      rw [BitVec.msb_eq_decide, hsmall, decide_eq_true_eq]
      -- Twice the word fits, so its highest bit is not set.
      rcases Nat.eq_zero_or_pos w with rfl | hw
      · omega
      · have hhalf := Nat.pow_pred_mul (x := 2) hw
        omega

/-- If the constant coefficient of `p` is one, multiplication loses nothing. -/
theorem shift_injective (p : BitVec w) (hp : p.getLsbD 0 = true) :
    Function.Injective (shift p) := by
  -- It is linear, so it is enough that only zero goes to zero.
  have hzero : ∀ r, shift p r = 0#w → r = 0#w := by
    intro r hr
    refine BitVec.eq_of_getLsbD_eq ?_
    intro i hi
    have hmsb : r.msb = false := by
      have hbit := congrArg (BitVec.getLsbD · 0) hr
      unfold shift at hbit
      cases hr : r.msb with
      | false => rfl
      | true =>
          rw [hr, if_pos rfl] at hbit
          simp only [BitVec.getLsbD_xor, BitVec.getLsbD_shiftLeft, hp] at hbit
          simp at hbit
    unfold shift at hr
    rw [hmsb, if_neg Bool.false_ne_true] at hr
    by_cases hlast : i + 1 < w
    · have hbit := congrArg (BitVec.getLsbD · (i + 1)) hr
      simp only [BitVec.getLsbD_shiftLeft, hlast] at hbit
      simpa using hbit
    · have heq : i = w - 1 := by omega
      rw [heq, ← BitVec.msb_eq_getLsbD_last, hmsb]
      simp
  intro a b hab
  have h := hzero (a ^^^ b) (by rw [shift_xor, hab, BitVec.xor_self])
  exact BitVec.xor_eq_zero_iff.mp h

theorem iterate_shift_ne_zero (p r : BitVec w) (hp : p.getLsbD 0 = true) (n : Nat) (hr : r ≠ 0#w) :
    (shift p)^[n] r ≠ 0#w := fun h =>
  hr ((shift_injective p hp).iterate n (h.trans (iterate_shift_zero p n).symm))

/-- Division from a remainder `r` on. -/
theorem foldl_step (p r : BitVec w) (bits : List Bool) :
    bits.foldl (step p) r = (shift p)^[bits.length] r ^^^ remainder p bits := by
  unfold remainder
  induction bits generalizing r with
  | nil => exact (BitVec.xor_zero).symm
  | cons b bits ih =>
      rw [List.foldl_cons, List.foldl_cons, ih, ih (step p 0#w b), List.length_cons,
        Function.iterate_succ_apply, step, step, shift_zero, BitVec.zero_xor, iterate_shift_xor,
        BitVec.xor_assoc]

theorem remainder_append (p : BitVec w) (as bs : List Bool) :
    remainder p (as ++ bs) = (shift p)^[bs.length] (remainder p as) ^^^ remainder p bs := by
  rw [remainder, List.foldl_append, foldl_step]
  rfl

@[simp] theorem remainder_nil (p : BitVec w) : remainder p [] = 0#w := rfl

theorem remainder_cons (p : BitVec w) (b : Bool) (bits : List Bool) :
    remainder p (b :: bits) = (shift p)^[bits.length] (bit b) ^^^ remainder p bits := by
  rw [remainder, List.foldl_cons, foldl_step, step, shift_zero, BitVec.zero_xor]

theorem remainder_concat (p : BitVec w) (bits : List Bool) (b : Bool) :
    remainder p (bits ++ [b]) = shift p (remainder p bits) ^^^ bit b := by
  rw [remainder, List.foldl_append]
  rfl

/-- Zeros leave no remainder. -/
theorem remainder_zeros (p : BitVec w) (bits : List Bool) (h : true ∉ bits) :
    remainder p bits = 0#w := by
  induction bits with
  | nil => rfl
  | cons b bits ih =>
      cases b with
      | false =>
          rw [remainder_cons, ih fun hb => h (List.mem_cons_of_mem _ hb), bit,
            if_neg Bool.false_ne_true, iterate_shift_zero, BitVec.xor_self]
      | true => exact absurd List.mem_cons_self h

/-- Zeros in front do not change the remainder. -/
theorem remainder_zeros_append (p : BitVec w) (zs bits : List Bool) (h : true ∉ zs) :
    remainder p (zs ++ bits) = remainder p bits := by
  rw [remainder_append, remainder_zeros p zs h, iterate_shift_zero, BitVec.zero_xor]

/-- Zeros behind are multiplications by `x`. -/
theorem remainder_append_zeros (p : BitVec w) (bits zs : List Bool) (h : true ∉ zs) :
    remainder p (bits ++ zs) = (shift p)^[zs.length] (remainder p bits) := by
  rw [remainder_append, remainder_zeros p zs h, BitVec.xor_zero]

theorem getLsbD_bit (b : Bool) (i : Nat) (hw : 0 < w) :
    (bit b : BitVec w).getLsbD i = (decide (i = 0) && b) := by
  unfold bit
  cases b with
  | false => simp
  | true => simp [hw]

/-- Up to `w` bits are their own remainder. -/
theorem getLsbD_remainder (p : BitVec w) (l : List Bool) (hl : l.length ≤ w) (i : Nat) :
    (remainder p l.reverse).getLsbD i = l.getD i false := by
  induction l generalizing i with
  | nil => simp
  | cons b l ih =>
      rw [List.length_cons] at hl
      have ih := ih (by omega)
      -- The coefficient that would be moved out is not there yet.
      have hmsb : (remainder p l.reverse).msb = false := by
        rw [BitVec.msb_eq_getLsbD_last, ih, List.getD_eq_default _ _ (by omega)]
      rw [List.reverse_cons, remainder_concat, shift, hmsb, if_neg Bool.false_ne_true,
        BitVec.getLsbD_xor, BitVec.getLsbD_shiftLeft, getLsbD_bit b i (by omega)]
      cases i with
      | zero => simp
      | succ i =>
          rw [List.getD_cons_succ]
          by_cases hi : i + 1 < w
          · simp [hi, ih]
          · rw [List.getD_eq_default _ _ (by omega)]
            simp [hi]

/-- One of the next `n` multiples of `r` by powers of `x` is one. -/
def reachesOne (p : BitVec w) : Nat → BitVec w → Bool
  | 0, _ => false
  | n + 1, r => shift p r == 1#w || reachesOne p n (shift p r)

theorem iterate_shift_ne_one (p r : BitVec w) (n : Nat) (h : reachesOne p n r = false) (k : Nat)
    (hk : 0 < k) (hkn : k ≤ n) : (shift p)^[k] r ≠ 1#w := by
  induction n generalizing r k with
  | zero => omega
  | succ n ih =>
      rw [reachesOne, Bool.or_eq_false_iff, beq_eq_false_iff_ne] at h
      rcases k with _ | k
      · omega
      · rw [Function.iterate_succ_apply]
        rcases Nat.eq_zero_or_pos k with rfl | hpos
        · exact h.1
        · exact ih (shift p r) h.2 k hpos (by omega)

/-- The bits of a word, the highest first. -/
def bitsOf {n : Nat} (b : BitVec n) : List Bool := ((List.range n).map b.getLsbD).reverse

@[simp] theorem length_bitsOf {n : Nat} (b : BitVec n) : (bitsOf b).length = n := by
  unfold bitsOf
  rw [List.length_reverse, List.length_map, List.length_range]

/-- The remainder of a word that is no longer than `w` is the word. -/
theorem remainder_bitsOf {n : Nat} (p : BitVec w) (b : BitVec n) (hn : n ≤ w) :
    remainder p (bitsOf b) = b.setWidth w := by
  refine BitVec.eq_of_getLsbD_eq ?_
  intro i hi
  unfold bitsOf
  rw [getLsbD_remainder p _ (by simpa using hn), BitVec.getLsbD_setWidth]
  by_cases hin : i < n
  · simp [List.getD, hin, hi]
  · rw [List.getD_eq_default _ _ (by simpa using hin), BitVec.getLsbD_of_ge b i (by omega)]
    simp

/-- A word is zero if it has no bit that is one. -/
theorem true_mem_bitsOf {n : Nat} {b : BitVec n} (hb : b ≠ 0#n) : true ∈ bitsOf b := by
  by_contra hmem
  refine hb (BitVec.eq_of_getLsbD_eq ?_)
  intro i hi
  cases hbit : b.getLsbD i with
  | false => simp
  | true =>
      refine absurd (List.mem_reverse.mpr (List.mem_map.mpr ⟨i, ?_, hbit⟩)) hmem
      exact List.mem_range.mpr hi

/-- The value of a polynomial at one. -/
def parity (r : BitVec w) : ZMod 2 := ∑ i ∈ Finset.range w, if r.getLsbD i then 1 else 0

theorem parity_xor (a b : BitVec w) : parity (a ^^^ b) = parity a + parity b := by
  unfold parity
  rw [← Finset.sum_add_distrib]
  refine Finset.sum_congr rfl ?_
  intro i _
  rw [BitVec.getLsbD_xor]
  cases a.getLsbD i <;> cases b.getLsbD i <;> decide

theorem parity_bit (b : Bool) (hw : 0 < w) :
    parity (bit b : BitVec w) = if b then 1 else 0 := by
  unfold parity
  rw [Finset.sum_eq_single_of_mem 0 (Finset.mem_range.mpr hw)]
  · rw [getLsbD_bit b 0 hw]
    simp
  · intro i _ hi
    rw [getLsbD_bit b i hw]
    simp [hi]

/-- If `x ^ w + p` vanishes at one, multiplication keeps the value there. -/
theorem parity_shift (p r : BitVec w) (hw : 0 < w) (hp : parity p = 1) :
    parity (shift p r) = parity r := by
  have hshift : parity (r <<< 1) + (if r.msb then 1 else 0) = parity r := by
    unfold parity
    rcases w with _ | w
    · omega
    · rw [Finset.sum_range_succ', Finset.sum_range_succ (fun i => if r.getLsbD i then _ else _),
        BitVec.msb_eq_getLsbD_last]
      have hlow : ∀ i ∈ Finset.range w, (r <<< 1).getLsbD (i + 1) = r.getLsbD i := by
        intro i hi
        rw [BitVec.getLsbD_shiftLeft]
        simp [Finset.mem_range.mp hi]
      have hzero : (r <<< 1).getLsbD 0 = false := by simp
      rw [Finset.sum_congr rfl fun i hi => by rw [hlow i hi], hzero, if_neg Bool.false_ne_true,
        add_zero, Nat.add_sub_cancel]
  unfold shift
  cases hmsb : r.msb with
  | false => 
      rw [hmsb] at hshift
      simpa using hshift
  | true => 
      rw [hmsb] at hshift
      rw [if_pos rfl, parity_xor, hp]
      exact hshift

/-- The value of a remainder at one is that of the polynomial it is left of. -/
theorem parity_remainder (p : BitVec w) (hw : 0 < w) (hp : parity p = 1) (bits : List Bool) :
    parity (remainder p bits) = (bits.count true : ZMod 2) := by
  induction bits using List.reverseRecOn with
  | nil => simp [parity]
  | append_singleton bits b ih =>
      rw [remainder_concat, parity_xor, parity_shift p _ hw hp, ih, parity_bit b hw,
        List.count_append, Nat.cast_add]
      cases b <;> simp

variable {p : BitVec w} {bits : List Bool}

/-- An odd number of ones leaves a remainder. -/
theorem remainder_odd (hw : 0 < w) (hp : parity p = 1) (hodd : Odd (bits.count true)) :
    remainder p bits ≠ 0#w := by
  intro hzero
  have hpar := parity_remainder p hw hp bits
  rw [hzero, (ZMod.natCast_eq_one_iff_odd.mpr hodd)] at hpar
  simp [parity] at hpar

/-- Two ones leave a remainder, if no power of `x` up to their distance is
    one. -/
theorem remainder_two (hp : p.getLsbD 0 = true) {n : Nat} (hn : bits.length ≤ n + 1)
    (horder : ∀ k, 0 < k → k ≤ n → (shift p)^[k] 1#w ≠ 1#w) (htwo : bits.count true = 2) :
    remainder p bits ≠ 0#w := by
  -- The two ones and the zeros around them.
  rcases List.eq_append_cons_of_mem
    (List.count_pos_iff.mp (show 0 < bits.count true by omega)) with ⟨as, bs, hbits, has⟩
  have hbs : bs.count true = 1 := by
    rw [hbits, List.count_append, List.count_cons_self, List.count_eq_zero.mpr has] at htwo
    omega
  rcases List.eq_append_cons_of_mem
    (List.count_pos_iff.mp (show 0 < bs.count true by omega)) with ⟨ms, cs, hms, hmem⟩
  have hcs : true ∉ cs := by
    rw [hms, List.count_append, List.count_cons_self, List.count_eq_zero.mpr hmem] at hbs
    exact List.count_eq_zero.mp (by omega)
  have hlen : ms.length + 1 ≤ n := by
    rw [hbits, hms] at hn
    simp only [List.length_append, List.length_cons] at hn
    omega
  have hone : (bit true : BitVec w) = 1#w := rfl
  -- What is left is a power of `x` times the sum of one and a smaller power.
  have hsum : remainder p (true :: ms ++ [true]) = (shift p)^[ms.length + 1] 1#w ^^^ 1#w := by
    rw [remainder_concat, remainder_cons, remainder_zeros p ms hmem, BitVec.xor_zero, hone,
      Function.iterate_succ_apply']
  have hsplit : bits = as ++ ((true :: ms ++ [true]) ++ cs) := by
    rw [hbits, hms]
    simp
  rw [hsplit, remainder_zeros_append p as _ has, remainder_append_zeros p _ cs hcs]
  refine iterate_shift_ne_zero p _ hp _ ?_
  intro h
  rw [hsum] at h
  exact horder _ (Nat.succ_pos _) hlen (BitVec.xor_eq_zero_iff.mp h)

/-- Ones that lie within `w` places leave a remainder. -/
theorem remainder_burst (hp : p.getLsbD 0 = true) {as ms bs : List Bool} (has : true ∉ as)
    (hms : ms.length ≤ w) (hmem : true ∈ ms) (hbs : true ∉ bs) :
    remainder p (as ++ (ms ++ bs)) ≠ 0#w := by
  rw [remainder_zeros_append p as _ has, remainder_append_zeros p ms bs hbs]
  refine iterate_shift_ne_zero p _ hp _ ?_
  intro h
  -- Each of the ones in the window is still to be seen.
  rcases List.mem_iff_getElem.mp (List.mem_reverse.mpr hmem) with ⟨i, hi, hget⟩
  have hbit := getLsbD_remainder p ms.reverse (by rw [List.length_reverse]; exact hms) i
  rw [List.reverse_reverse, h, List.getD_eq_getElem _ _ hi, hget] at hbit
  simp at hbit

/-- The same, where the places of the ones are counted from the highest
    coefficient. -/
theorem remainder_window (hp : p.getLsbD 0 = true) {a b : Nat} (hab : b ≤ a + w)
    (hne : ∃ i : Nat, bits[i]? = some true)
    (hin : ∀ i : Nat, bits[i]? = some true → a ≤ i ∧ i < b) :
    remainder p bits ≠ 0#w := by
  have hsplit : bits = bits.take a
      ++ ((bits.drop a).take (b - a) ++ (bits.drop a).drop (b - a)) := by
    rw [List.take_append_drop, List.take_append_drop]
  have hbefore : true ∉ bits.take a := by
    intro hmem
    rcases List.mem_iff_getElem?.mp hmem with ⟨i, hi⟩
    rw [List.getElem?_take] at hi
    split at hi
    · have := hin i hi
      omega
    · cases hi
  have hbehind : true ∉ (bits.drop a).drop (b - a) := by
    intro hmem
    rcases List.mem_iff_getElem?.mp hmem with ⟨i, hi⟩
    rw [List.getElem?_drop, List.getElem?_drop] at hi
    have := hin _ hi
    omega
  rcases hne with ⟨i, hi⟩
  have hmem : true ∈ (bits.drop a).take (b - a) := by
    have hrange := hin i hi
    refine List.mem_iff_getElem?.mpr ⟨i - a, ?_⟩
    rw [List.getElem?_take, if_pos (by omega), List.getElem?_drop, Nat.add_sub_cancel' hrange.1, hi]
  rw [hsplit]
  exact remainder_burst hp hbefore (by rw [List.length_take]; omega) hmem hbehind

end Crc

end Cse5462
