import Mathlib.Data.List.Forall2
import Mathlib.Data.Nat.Count
import Mathlib.Data.Nat.Periodic

/-!
# Lists and Counts

Facts about lists and about counting that the programs need and that have nothing
to do with any of them: where the elements of an appended list are, what is at an
index of one of two related lists, which elements are next to each other, how a
periodic stream goes on out of one period, and when two counts agree.

## Theorems

* `getElem?_append_iff`: An element of one of two appended lists.
* `exists_getElem?_of_forall₂`: The partner of an element.
* `mem_zip_tail`: Elements next to each other.
* `range_append_slice`: A periodic stream continued out of one period.
* `count_eq_count_iff`: Two counts of which one is the smaller.
-/

namespace Cse5462

variable {α β : Type*}

theorem getElem?_append_iff (as bs : List α) (i : Nat) (x : α) :
    (as ++ bs)[i]? = some x ↔
      as[i]? = some x ∨ (as.length ≤ i ∧ bs[i - as.length]? = some x) := by
  by_cases hi : i < as.length
  · rw [List.getElem?_append_left hi]
    exact ⟨Or.inl, fun h => h.elim id fun h => absurd h.1 (by omega)⟩
  · have hnone : as[i]? = none := List.getElem?_eq_none (by omega)
    rw [List.getElem?_append_right (by omega), hnone, or_iff_right (Option.some_ne_none x).symm]
    exact ⟨fun h => ⟨by omega, h⟩, And.right⟩

/-- In lists that are related element by element, what is at an index of one of
    them is related to what is there in the other. -/
theorem exists_getElem?_of_forall₂ {R : α → β → Prop} {as : List α} {bs : List β}
    (h : List.Forall₂ R as bs) (i : Nat) {a : α} (ha : as[i]? = some a) :
    ∃ b, bs[i]? = some b ∧ R a b := by
  induction h generalizing i with
  | nil => cases ha
  | @cons a' b' as bs hR _ ih =>
      cases i with
      | zero =>
          cases ha
          exact ⟨b', rfl, hR⟩
      | succ i => exact ih i ha

/-- Elements next to each other are found in the list and the one shifted by one. -/
theorem mem_zip_tail (us : List α) (a b : α) (vs : List α) :
    (a, b) ∈ (us ++ a :: b :: vs).zip (us ++ a :: b :: vs).tail := by
  induction us with
  | nil => exact List.mem_cons_self
  | cons x us ih =>
      cases us with
      | nil => exact List.mem_cons_of_mem _ ih
      | cons y us => exact List.mem_cons_of_mem _ ih

/-- A periodic stream, continued by a piece of one period. -/
theorem range_append_slice {f : Nat → α} {w : Nat} (hf : Function.Periodic f w)
    {c n : Nat} (h : c % w + n ≤ w) :
    (List.range c).map f ++ (((List.range w).map f).drop (c % w)).take n
      = (List.range (c + n)).map f := by
  have hshift : ∀ i, f (c % w + i) = f (c + i) := by
    intro i
    rw [← hf.map_mod_nat, Nat.mod_add_mod, hf.map_mod_nat]
  rw [List.range_add, List.map_append, List.append_cancel_left_eq]
  refine List.ext_getElem ?_ ?_
  · simp only [List.length_take, List.length_drop, List.length_map, List.length_range]
    omega
  · intro i _ _
    simp [hshift]

/-- Of two conditions of which one implies the other, as many numbers meet the
    one as the other exactly if they agree. -/
theorem count_eq_count_iff {p q : Nat → Prop} [DecidablePred p] [DecidablePred q] {n : Nat}
    (hpq : ∀ k < n, p k → q k) : Nat.count p n = Nat.count q n ↔ ∀ k < n, q k → p k := by
  induction n with
  | zero => exact ⟨fun _ k hk => absurd hk (Nat.not_lt_zero k), fun _ => rfl⟩
  | succ n ih =>
      have hle := Nat.count_mono_left fun k hk => hpq k (Nat.lt_succ_of_lt hk)
      have ih := ih fun k hk => hpq k (Nat.lt_succ_of_lt hk)
      have hlast := hpq n (Nat.lt_succ_self n)
      rw [Nat.count_succ, Nat.count_succ, Nat.forall_lt_succ_right, ← ih]
      by_cases hq : q n
      · by_cases hp : p n
        · simp [hp, hq]
        · rw [if_neg hp, if_pos hq]
          exact ⟨fun h => by omega, fun h => (hp (h.2 hq)).elim⟩
      · rw [if_neg (mt hlast hq), if_neg hq]
        exact ⟨fun h => ⟨h, fun h => (hq h).elim⟩, fun h => h.1⟩

end Cse5462
