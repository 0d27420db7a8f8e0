import Mathlib.Algebra.BigOperators.Group.List.Basic
import Mathlib.Algebra.Order.BigOperators.Group.List
import Mathlib.Algebra.Order.Group.Int
import Mathlib.Data.List.Nodup
import Mathlib.Logic.Function.Basic

/-!
# Delta Lists

A list of pending times in which every entry holds the difference to the entry
before it, so that the passing of time has to be subtracted from the first
entry only. What an entry stands for is its offset, the sum of the differences
up to it, and the list as a whole stands for a partial map from keys to
offsets. `remaining` is that map.

Inserting an entry takes its difference off the next one, and removing an entry
gives it to the next one. Either way no other offset changes, which
`remaining_insert` and `remaining_remove` state as updates of the map.

## Main definitions

* `DeltaList.remaining`: The map that a delta list stands for.
* `DeltaList.advance`: A difference taken off the first entry.
* `DeltaList.total`: The offset of the last entry.
* `DeltaList.offsets`: The offsets in the order of the list.

## Theorems

* `remaining_eq_none_iff`: The keys that have an offset.
* `remaining_insert`: An insertion adds one key.
* `remaining_remove`: A removal takes one key away.
* `exists_offset`: The offset of a key in the first part of a list.
* `remaining_append`: The offset of a key behind the first part.
* `offsets_sorted`: Without negative differences the offsets ascend.
-/

namespace Cse5462

namespace DeltaList

variable {ι τ : Type*}

/-- The sum of the differences. -/
def total [AddCommGroup τ] (l : List (ι × τ)) : τ := (l.map Prod.snd).sum

/-- The difference `d` taken off the first entry, if there is one. -/
def advance [AddCommGroup τ] (d : τ) : List (ι × τ) → List (ι × τ)
  | [] => []
  | (i, e) :: l => (i, e - d) :: l

/-- The offset of each key. -/
def remaining [DecidableEq ι] [AddCommGroup τ] : List (ι × τ) → ι → Option τ
  | [], _ => none
  | (i, d) :: l, k => if i = k then some d else (remaining l k).map (d + ·)

/-- The offsets, in the order of the list. -/
def offsets [AddCommGroup τ] : List (ι × τ) → List τ
  | [] => []
  | (_, d) :: l => d :: (offsets l).map (d + ·)

section Remaining

variable [AddCommGroup τ]

@[simp] theorem total_nil : total ([] : List (ι × τ)) = 0 := rfl

@[simp] theorem total_cons (i : ι) (d : τ) (l : List (ι × τ)) :
    total ((i, d) :: l) = d + total l := by
  unfold total
  rw [List.map_cons, List.sum_cons]

theorem total_append (us vs : List (ι × τ)) : total (us ++ vs) = total us + total vs := by
  unfold total
  rw [List.map_append, List.sum_append]

@[simp] theorem keys_advance (d : τ) (l : List (ι × τ)) :
    (advance d l).map Prod.fst = l.map Prod.fst := by
  cases l with
  | nil => rfl
  | cons e l => rfl

variable [DecidableEq ι]

/-- A key that the list does not have has no offset. -/
theorem remaining_eq_none (l : List (ι × τ)) (k : ι) (hk : k ∉ l.map Prod.fst) :
    remaining l k = none := by
  induction l with
  | nil => rfl
  | cons e l ih =>
      rw [List.map_cons, List.mem_cons, not_or] at hk
      unfold remaining
      rw [if_neg (Ne.symm hk.1), ih hk.2, Option.map_none]

theorem remaining_eq_none_iff (l : List (ι × τ)) (k : ι) :
    remaining l k = none ↔ k ∉ l.map Prod.fst := by
  refine ⟨fun h hk => ?_, remaining_eq_none l k⟩
  induction l with
  | nil => exact List.not_mem_nil hk
  | cons e l ih =>
      unfold remaining at h
      rw [List.map_cons, List.mem_cons] at hk
      by_cases hik : e.1 = k
      · rw [if_pos hik] at h
        exact Option.some_ne_none _ h
      · rw [if_neg hik, Option.map_eq_none_iff] at h
        exact ih h (hk.resolve_left (Ne.symm hik))

/-- Taking a difference off the first entry lowers every offset by it. -/
theorem remaining_advance (d : τ) (l : List (ι × τ)) (k : ι) :
    remaining (advance d l) k = (remaining l k).map (· - d) := by
  cases l with
  | nil => rfl
  | cons e l =>
      rcases e with ⟨i, e⟩
      unfold advance remaining
      by_cases hik : i = k
      · rw [if_pos hik, if_pos hik, Option.map_some]
      · rw [if_neg hik, if_neg hik, Option.map_map]
        congr 1
        ext x : 1
        exact sub_add_eq_add_sub e d x

/-- Two lists that agree up to a node and whose rests have the same offsets. -/
theorem remaining_append_congr (us vs ws : List (ι × τ)) (i : ι) (o : Option τ)
    (hi : i ∉ us.map Prod.fst)
    (h : remaining ws = Function.update (remaining vs) i (o.map (· - total us))) :
    remaining (us ++ ws) = Function.update (remaining (us ++ vs)) i o := by
  induction us generalizing o with
  | nil =>
      simp only [total_nil, sub_zero, Option.map_id'] at h
      exact h
  | cons e us ih =>
      rcases e with ⟨j, d⟩
      simp only [List.map_cons, List.mem_cons, not_or] at hi
      rw [total_cons] at h
      -- Behind the first entry all offsets are smaller by its difference.
      have hih := ih (o.map (· - d)) hi.2 (by
        rw [h, Option.map_map]
        congr 2
        ext x : 1
        exact sub_add_eq_sub_sub x d (total us))
      ext k : 1
      simp only [List.cons_append]
      by_cases hki : k = i
      · -- The key that changes lies behind the first entry.
        subst hki
        rw [remaining, if_neg (Ne.symm hi.1), hih, Function.update_self, Function.update_self,
          Option.map_map]
        cases o with
        | none => rfl
        | some x => simp only [Option.map_some, Function.comp_apply, add_sub_cancel]
      · rw [Function.update_of_ne hki, remaining, remaining, hih, Function.update_of_ne hki]

/-- Inserting a key at offset `d` takes its difference off the next entry and
    leaves every other offset alone. -/
theorem remaining_insert (us vs : List (ι × τ)) (i : ι) (d : τ)
    (hi : i ∉ (us ++ vs).map Prod.fst) :
    remaining (us ++ (i, d - total us) :: advance (d - total us) vs)
      = Function.update (remaining (us ++ vs)) i (some d) := by
  rw [List.map_append, List.mem_append, not_or] at hi
  refine remaining_append_congr us vs _ i _ hi.1 ?_
  ext k : 1
  rw [remaining, remaining_advance]
  by_cases hik : i = k
  · rw [if_pos hik, hik, Function.update_self, Option.map_some]
  · rw [if_neg hik, Function.update_of_ne (Ne.symm hik), Option.map_map]
    cases remaining vs k with
    | none => rfl
    | some x => simp only [Option.map_some, Function.comp_apply, add_sub_cancel]

/-- Removing a key gives its difference to the next entry and leaves every
    other offset alone. -/
theorem remaining_remove (us vs : List (ι × τ)) (i : ι) (d : τ)
    (hnodup : ((us ++ (i, d) :: vs).map Prod.fst).Nodup) :
    remaining (us ++ advance (-d) vs)
      = Function.update (remaining (us ++ (i, d) :: vs)) i none := by
  simp only [List.map_append, List.map_cons] at hnodup
  have hdisj := List.disjoint_of_nodup_append hnodup
  have hus : i ∉ us.map Prod.fst := fun h => hdisj h List.mem_cons_self
  have hvs : i ∉ vs.map Prod.fst := (List.nodup_cons.mp hnodup.of_append_right).1
  refine remaining_append_congr us _ _ i none hus ?_
  ext k : 1
  rw [remaining_advance, Option.map_none]
  by_cases hik : i = k
  · rw [← hik, Function.update_self, remaining_eq_none vs i hvs, Option.map_none]
  · rw [Function.update_of_ne (Ne.symm hik), remaining, if_neg hik]
    congr 1
    ext x : 1
    rw [sub_neg_eq_add, add_comm]

/-- A key of the first part of a list has one of the offsets of that part. -/
theorem exists_offset (us vs : List (ι × τ)) (k : ι) (hk : k ∈ us.map Prod.fst) :
    ∃ o ∈ offsets us, remaining (us ++ vs) k = some o := by
  induction us with
  | nil => exact absurd hk List.not_mem_nil
  | cons e us ih =>
      rcases e with ⟨i, d⟩
      rw [List.cons_append]
      unfold remaining
      by_cases hik : i = k
      · exact ⟨d, List.mem_cons_self, if_pos hik⟩
      · rw [if_neg hik]
        rw [List.map_cons, List.mem_cons] at hk
        rcases ih (hk.resolve_left (Ne.symm hik)) with ⟨o, ho, hrem⟩
        refine ⟨d + o, List.mem_cons_of_mem _ (List.mem_map.mpr ⟨o, ho, rfl⟩), ?_⟩
        rw [hrem, Option.map_some]

/-- A key that is not in the first part of a list has its offset behind it. -/
theorem remaining_append (us vs : List (ι × τ)) (k : ι) (hk : k ∉ us.map Prod.fst) :
    remaining (us ++ vs) k = (remaining vs k).map (total us + ·) := by
  induction us with
  | nil =>
      simp only [List.nil_append, total_nil, zero_add, Option.map_id']
  | cons e us ih =>
      rcases e with ⟨i, d⟩
      rw [List.map_cons, List.mem_cons, not_or] at hk
      rw [List.cons_append, remaining, if_neg (Ne.symm hk.1), ih hk.2, Option.map_map, total_cons]
      congr 1
      ext x : 1
      exact (add_assoc d _ x).symm

/-- The offsets of a list are those of its keys. -/
theorem mem_offsets_of_remaining (l : List (ι × τ)) (k : ι) (o : τ) (h : remaining l k = some o) :
    o ∈ offsets l := by
  induction l generalizing o with
  | nil => cases h
  | cons e l ih =>
      rcases e with ⟨i, d⟩
      unfold remaining at h
      by_cases hik : i = k
      · rw [if_pos hik, Option.some.injEq] at h
        exact h ▸ List.mem_cons_self
      · rw [if_neg hik] at h
        rcases Option.map_eq_some_iff.mp h with ⟨x, hx, rfl⟩
        exact List.mem_cons_of_mem _ (List.mem_map.mpr ⟨x, ih x hx, rfl⟩)

end Remaining

section Sorted

variable [AddCommGroup τ] [PartialOrder τ] [IsOrderedAddMonoid τ]

theorem offsets_nonneg (l : List (ι × τ)) (h : ∀ e ∈ l, 0 ≤ e.2) : ∀ o ∈ offsets l, 0 ≤ o := by
  induction l with
  | nil => exact fun o ho => absurd ho List.not_mem_nil
  | cons e l ih =>
      intro o ho
      have hrest := ih fun e' he' => h e' (List.mem_cons_of_mem _ he')
      rcases List.mem_cons.mp ho with rfl | ho
      · exact h e List.mem_cons_self
      · rcases List.mem_map.mp ho with ⟨x, hx, rfl⟩
        exact add_nonneg (h e List.mem_cons_self) (hrest x hx)

/-- Without negative differences the offsets ascend. -/
theorem offsets_sorted (l : List (ι × τ)) (h : ∀ e ∈ l, 0 ≤ e.2) :
    (offsets l).Pairwise (· ≤ ·) := by
  induction l with
  | nil => exact List.Pairwise.nil
  | cons e l ih =>
      have hrest : ∀ e' ∈ l, 0 ≤ e'.2 := fun e' he' => h e' (List.mem_cons_of_mem _ he')
      refine List.Pairwise.cons (fun o ho => ?_) ?_
      · rcases List.mem_map.mp ho with ⟨x, hx, rfl⟩
        exact le_add_of_nonneg_right (offsets_nonneg l hrest x hx)
      · exact (ih hrest).map _ fun x y hxy => add_le_add_right hxy _

/-- If the first offset is greater than a bound, all are. -/
theorem lt_of_mem_offsets (l : List (ι × τ)) (h : ∀ e ∈ l, 0 ≤ e.2) (c : τ)
    (hhead : ∀ e ∈ l.head?, c < e.2) : ∀ o ∈ offsets l, c < o := by
  cases l with
  | nil => exact fun o ho => absurd ho List.not_mem_nil
  | cons e l =>
      intro o ho
      have hc := hhead e (Option.mem_some_self e)
      rcases List.mem_cons.mp ho with rfl | ho
      · exact hc
      · rcases List.mem_map.mp ho with ⟨x, hx, rfl⟩
        have hrest := offsets_nonneg l (fun e' he' => h e' (List.mem_cons_of_mem _ he')) x hx
        exact lt_add_of_lt_of_nonneg hc hrest

end Sorted

end DeltaList

end Cse5462
