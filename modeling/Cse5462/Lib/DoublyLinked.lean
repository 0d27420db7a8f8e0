import Mathlib.Data.List.Chain
import Mathlib.Data.List.Nodup

/-!
# Doubly Linked Lists

A list kept in memory by two pointers per node, read through the functions
`next` and `prev` from addresses to addresses. `DoublyLinked next prev p l`
says that the pointer `p` leads through the addresses `l`, without repetition,
to a null pointer, and that every node but the first points back to the one
before it. What the first node points back to is left open: a program that
takes the head off a list need not clear that pointer.

An operation on such a list changes the pointers of two or three nodes. The
lemmas take the pointer functions after the change, with what they do on the
nodes of the list, and never mention how the memory is updated. `splice` is the
one that does the work: the part of a list behind a node may be exchanged for
another list.

## Main definitions

* `DoublyLinked`: A pointer leads through a list of nodes.

## Theorems

* `DoublyLinked.unique`: A pointer leads through one list only.
* `DoublyLinked.congr`: Only the pointers of the nodes matter.
* `DoublyLinked.cons`: A node in front of a list.
* `DoublyLinked.splice`: The part of a list behind a node exchanged.
* `DoublyLinked.prev_eq`: The pointer back of a node that is not the first.
* `DoublyLinked.insert_after`: A node linked in behind another.
* `DoublyLinked.remove_after`: A node unlinked from behind another.
-/

namespace Cse5462

variable {α : Type*} {next prev next' prev' : α → Option α} {p q : Option α}
  {us vs xs ys l : List α} {a b c : α}

/-- The pointer `p` leads through the nodes `l`, and each of them but the first
    points back to the one before it. -/
structure DoublyLinked (next prev : α → Option α) (p : Option α) (l : List α) : Prop where
  head_eq : p = l.head?
  links : l.IsChain fun a b => next a = some b ∧ prev b = some a
  last_eq : ∀ a ∈ l.getLast?, next a = none
  nodup : l.Nodup

namespace DoublyLinked

theorem nil : DoublyLinked next prev none [] where
  head_eq := rfl
  links := List.isChain_nil
  last_eq := fun a ha => absurd ha (Option.not_mem_none a)
  nodup := List.nodup_nil

theorem eq_nil (h : DoublyLinked next prev none l) : l = [] :=
  List.head?_eq_none_iff.mp h.head_eq.symm

theorem exists_cons (h : DoublyLinked next prev (some a) l) : ∃ l', l = a :: l' :=
  ⟨l.tail, (List.cons_head?_tail h.head_eq.symm).symm⟩

/-- A list of one node. -/
theorem singleton (h : next a = none) : DoublyLinked next prev (some a) [a] where
  head_eq := rfl
  links := List.isChain_singleton a
  last_eq := by
    intro b hb
    rw [List.getLast?_singleton, Option.mem_some_iff] at hb
    exact hb ▸ h
  nodup := List.nodup_singleton a

/-- The part of a list from a node on is a list. -/
theorem suffix (h : DoublyLinked next prev p (us ++ vs)) : DoublyLinked next prev vs.head? vs where
  head_eq := rfl
  links := h.links.right_of_append
  last_eq := fun a ha => h.last_eq a (List.mem_getLast?_append_of_mem_getLast? ha)
  nodup := h.nodup.of_append_right

theorem next_eq (h : DoublyLinked next prev p (us ++ a :: vs)) : next a = vs.head? := by
  cases vs with
  | nil => exact h.last_eq a (by rw [List.getLast?_concat]; exact Option.mem_some_self a)
  | cons b vs =>
      have hab := (List.isChain_append.mp h.links).2.1
      rw [List.isChain_cons_cons] at hab
      exact hab.1.1

theorem prev_eq (h : DoublyLinked next prev p (us ++ a :: b :: vs)) : prev b = some a := by
  have hab := (List.isChain_append.mp h.links).2.1
  rw [List.isChain_cons_cons] at hab
  exact hab.1.2

/-- The list behind the first node. -/
theorem tail (h : DoublyLinked next prev p (a :: l)) : DoublyLinked next prev (next a) l := by
  have hfirst : DoublyLinked next prev p ([] ++ a :: l) := h
  have hsplit : DoublyLinked next prev p ([a] ++ l) := h
  rw [hfirst.next_eq]
  exact hsplit.suffix

/-- A pointer leads through one list only. -/
theorem unique {l' : List α} (h : DoublyLinked next prev p l) (h' : DoublyLinked next prev p l') :
    l = l' := by
  induction l generalizing p l' with
  | nil =>
      rw [show p = none from h.head_eq] at h'
      exact h'.eq_nil.symm
  | cons a l ih =>
      rw [show p = some a from h.head_eq] at h'
      rcases h'.exists_cons with ⟨ws, rfl⟩
      rw [ih h.tail h'.tail]

/-- Only the pointers of the nodes matter, and not where the first one points
    back to. -/
theorem congr (h : DoublyLinked next prev p l) (hnext : ∀ x ∈ l, next' x = next x)
    (hprev : ∀ x ∈ l.tail, prev' x = prev x) : DoublyLinked next' prev' p l where
  head_eq := h.head_eq
  links := h.links.imp_of_mem_tail_imp fun x y hx hy hxy => by
    rw [hnext x hx, hprev y hy]
    exact hxy
  last_eq := fun x hx => (hnext x (List.mem_of_getLast? hx)).trans (h.last_eq x hx)
  nodup := h.nodup

/-- A node in front of a list. -/
theorem cons (h : DoublyLinked next prev (next a) l) (ha : a ∉ l)
    (hback : ∀ b ∈ l.head?, prev b = some a) : DoublyLinked next prev (some a) (a :: l) where
  head_eq := rfl
  links := List.isChain_cons.mpr ⟨fun b hb => ⟨h.head_eq.trans hb, hback b hb⟩, h.links⟩
  last_eq := by
    intro b hb
    cases l with
    | nil =>
        rw [List.getLast?_singleton, Option.mem_some_iff] at hb
        exact hb ▸ h.head_eq
    | cons c l =>
        rw [List.getLast?_cons_cons] at hb
        exact h.last_eq b hb
  nodup := List.nodup_cons.mpr ⟨ha, h.nodup⟩

/-- The part of a list behind node `a` is exchanged for the list `ys`. -/
theorem splice (h : DoublyLinked next prev p (us ++ a :: xs))
    (hys : DoublyLinked next' prev' (next' a) ys)
    (hback : ∀ b ∈ ys.head?, prev' b = some a) (hdisj : ∀ x ∈ us ++ [a], x ∉ ys)
    (hnext : ∀ x ∈ us, next' x = next x) (hprev : ∀ x ∈ us ++ [a], prev' x = prev x) :
    DoublyLinked next' prev' p (us ++ a :: ys) := by
  -- From `a` on the list is the new one, and up to `a` it is the old one.
  have hcons : DoublyLinked next' prev' (some a) (a :: ys) :=
    hys.cons (hdisj a (List.mem_append_right _ List.mem_cons_self)) hback
  rcases List.isChain_append.mp h.links with ⟨hus, _, hjoin⟩
  have hnodup : (us ++ [a]).Nodup := by
    refine h.nodup.sublist ?_
    exact (List.Sublist.cons_cons a (List.nil_sublist xs)).append_left us
  refine ⟨?_, List.isChain_append.mpr ⟨?_, hcons.links, ?_⟩, ?_, ?_⟩
  · rw [h.head_eq]
    cases us with
    | nil => rfl
    | cons u us => rfl
  · -- Inside `us` all pointers are as they were.
    refine hus.imp_of_mem_imp ?_
    intro x y hx hy hxy
    rw [hnext x hx, hprev y (List.mem_append_left _ hy)]
    exact hxy
  · intro x hx y hy
    have hxa := hjoin x hx y hy
    have hya : a = y := by
      rwa [List.head?_cons, Option.mem_some_iff] at hy
    subst hya
    rw [hnext x (List.mem_of_getLast? hx),
      hprev a (List.mem_append_right _ List.mem_cons_self)]
    exact hxa
  · intro x hx
    refine hcons.last_eq x ?_
    rwa [List.getLast?_append_of_ne_nil _ (List.cons_ne_nil a ys)] at hx
  · rw [← List.singleton_append, ← List.append_assoc]
    exact List.nodup_append'.mpr ⟨hnodup, hys.nodup, fun x hx hx' => hdisj x hx hx'⟩

/-- Node `c` is linked in behind node `b`. -/
theorem insert_after (h : DoublyLinked next prev p (us ++ b :: vs)) (hc : c ∉ us ++ b :: vs)
    (hb : next' b = some c) (hcn : next' c = vs.head?) (hcp : prev' c = some b)
    (hv : ∀ a ∈ vs.head?, prev' a = some c) (hnext : ∀ x ∈ us ++ vs, next' x = next x)
    (hprev : ∀ x ∈ us ++ b :: vs.tail, prev' x = prev x) :
    DoublyLinked next' prev' p (us ++ b :: c :: vs) := by
  have hsplit : us ++ b :: vs = (us ++ [b]) ++ vs := List.append_cons us b vs
  have hrest : DoublyLinked next' prev' (next' c) vs := by
    rw [hsplit] at h
    rw [hcn]
    refine h.suffix.congr (fun x hx => hnext x (List.mem_append_right _ hx)) ?_
    intro x hx
    exact hprev x (List.mem_append_right _ (List.mem_cons_of_mem _ hx))
  have hnotin : c ∉ vs := fun hmem =>
    hc (List.mem_append_right _ (List.mem_cons_of_mem _ hmem))
  refine splice h (by rw [hb]; exact hrest.cons hnotin hv) ?_ (fun x hx hmem => ?_)
    (fun x hx => hnext x (List.mem_append_left _ hx))
    (fun x hx => hprev x (List.append_cons us b _ ▸ List.mem_append_left _ hx))
  · intro y hy
    rw [List.head?_cons, Option.mem_some_iff] at hy
    exact hy ▸ hcp
  · rcases List.mem_cons.mp hmem with rfl | hmem
    · exact hc (hsplit ▸ List.mem_append_left _ hx)
    · exact (List.nodup_append'.mp (hsplit ▸ h.nodup)).2.2 hx hmem

/-- The node `c` behind node `b` is unlinked. -/
theorem remove_after (h : DoublyLinked next prev p (us ++ b :: c :: vs))
    (hb : next' b = vs.head?) (hv : ∀ a ∈ vs.head?, prev' a = some b)
    (hnext : ∀ x ∈ us ++ vs, next' x = next x)
    (hprev : ∀ x ∈ us ++ b :: vs.tail, prev' x = prev x) :
    DoublyLinked next' prev' p (us ++ b :: vs) := by
  have hsplit : us ++ b :: c :: vs = (us ++ [b]) ++ c :: vs := List.append_cons us b (c :: vs)
  have hrest : DoublyLinked next' prev' (next' b) vs := by
    have hsuffix : us ++ b :: c :: vs = (us ++ [b, c]) ++ vs := by
      rw [List.append_assoc, List.cons_append, List.singleton_append]
    rw [hsuffix] at h
    rw [hb]
    refine h.suffix.congr (fun x hx => hnext x (List.mem_append_right _ hx)) ?_
    intro x hx
    exact hprev x (List.mem_append_right _ (List.mem_cons_of_mem _ hx))
  refine splice h hrest hv (fun x hx hmem => ?_)
    (fun x hx => hnext x (List.mem_append_left _ hx))
    (fun x hx => hprev x (List.append_cons us b _ ▸ List.mem_append_left _ hx))
  · exact (List.nodup_append'.mp (hsplit ▸ h.nodup)).2.2 hx (List.mem_cons_of_mem _ hmem)

end DoublyLinked

end Cse5462
