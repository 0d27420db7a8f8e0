import Cse5462.Tcpd.TimerOps

/-!
# What the Operations Leave Alone

The differences that an operation on the timer list does not touch, down to
their representation. The loop of `add_timenode` leaves the nodes alone that are
behind it, so the head is left as the first comparison rewrites it, if the carry
fits. A cancellation writes to the node behind the one that goes, which is not the
head.

## Theorems

* `addLoop_frame`: The loop leaves the nodes alone that it does not come to.
* `addTimenode_empty`: The first timer.
* `addTimenode_head`: The new head, and its difference.
* `deleteTimenode_frame`: A cancellation leaves the difference of the head alone.
* `addTimenode_lasttime`, `deleteTimenode_lasttime`: The clock reading.
-/

namespace Cse5462

section Loops

variable {m m' : Heap} {p : Option Nat} {l : List Nat} {n a c x : Nat}

theorem addAtEnd_frame (hc : x ≠ c) (ha : x ≠ a) :
    (addAtEnd m c a x).deltaTime = (m x).deltaTime := by
  rw [addAtEnd_deltaTime, subtractNode_frame m c a hc ha]

theorem addBefore_frame (h : addBefore m c a = some m') (hc : x ≠ c) (ha : x ≠ a) :
    (m' x).deltaTime = (m x).deltaTime := by
  rw [(addBefore_spec h).2.1, subtractNode_frame m a c ha hc]

/-- The loop of `add_timenode` leaves the nodes alone that it does not come
    to. -/
theorem addLoop_frame (hl : m.Links p l) (hc : c ∉ l) (h : addLoop c n m p = some m')
    (hx : x ∉ l) (hxc : x ≠ c) : (m' x).deltaTime = (m x).deltaTime := by
  -- Induction on the turns.
  induction n generalizing m p l with
  | zero =>
      cases p with
      | none =>
          unfold addLoop at h
          cases h
          rfl
      | some a =>
          unfold addLoop at h
          cases h
  | succ n ih =>
      cases p with
      | none =>
          unfold addLoop at h
          cases h
          rfl
      | some a =>
          rcases hl.exists_cons with ⟨vs, rfl⟩
          have hca : c ≠ a := fun heq => hc (heq ▸ List.mem_cons_self)
          have hxa : x ≠ a := fun heq => hx (heq ▸ List.mem_cons_self)
          rcases addLoop_cases hca h with ⟨m1, hm, ⟨-, rfl⟩ | hbefore | ⟨b, hb, hgo⟩ | hstay⟩
          · rw [addAtEnd_frame hxc hxa, hm.frame x hxa]
          · rw [addBefore_frame hbefore hxc hxa, hm.frame x hxa]
          · have hlinks := ((subtractNode_links m1 c a).links (hm.toSameLinks.links hl)).tail
            rw [subtractNode_next, hm.next, hb] at hlinks
            rw [ih hlinks (fun hmem => hc (List.mem_cons_of_mem _ hmem)) hgo
              (fun hmem => hx (List.mem_cons_of_mem _ hmem)), subtractNode_frame m1 c a hxc hxa,
              hm.frame x hxa]
          · rw [ih (hm.toSameLinks.links hl) hc hstay hx, hm.frame x hxa]

/-- The node that the loop starts at, and passes, is carried. -/
theorem addLoop_first (hl : m.Links (some a) (a :: l)) (hc : c ∉ a :: l)
    (hfits : CarryFits (m c).deltaTime (m a).deltaTime) (hneg : (compareNodes m c a).2 = false)
    (h : addLoop c n m (some a) = some m') :
    (m' a).deltaTime = carry (m c).deltaTime (m a).deltaTime := by
  have hca : c ≠ a := fun heq => hc (heq ▸ List.mem_cons_self)
  have hal := (List.nodup_cons.mp hl.nodup).1
  cases n with
  | zero =>
      unfold addLoop at h
      cases h
  | succ n =>
      -- The comparison carries node `a`, and the subtraction after it once more.
      have hsub : (subtractNode (compareNodes m c a).1 c a a).deltaTime
          = carry (m c).deltaTime (m a).deltaTime := by
        rw [subtractNode_deltaTime _ c a hca, compareNodes_frame m c a hca, compareNodes_deltaTime,
          carry_again hfits]
      rw [addLoop_succ n hca hfits, hneg, if_neg Bool.false_ne_true] at h
      cases hnext : (m a).next with
      | none =>
          rw [hnext] at h
          cases h
          rw [addAtEnd_deltaTime, hsub]
      | some b =>
          rw [hnext] at h
          have hlinks := ((subtractNode_links _ c a).links
            ((compareNodes_links m c a).links hl)).tail
          rw [subtractNode_next, (compareNodes_links m c a).next, hnext] at hlinks
          rw [addLoop_frame hlinks (fun hmem => hc (List.mem_cons_of_mem _ hmem)) h hal hca.symm,
            hsub]

end Loops

namespace TimerList

variable {t t' : TimerList} {l vs : List Nat} {a x : Nat} {id : Int} {dtime : ℚ≥0}

/-- The first timer sets the clock reading. -/
theorem addTimenode_empty (h : t.Linked []) (id : Int) (dtime : ℚ≥0) (now : Timeval) :
    t.addTimenode id dtime now = some
      { cell := t.malloc id dtime, brk := t.brk + 1, head := some t.brk, lasttime := now } := by
  have hhead : t.head = none := h.links.head_eq
  rw [addTimenode_eq h List.not_mem_nil, hhead]

/-- Later timers do not. -/
theorem addTimenode_lasttime (h : t.Linked l) (hl : l ≠ []) {now : Timeval}
    (ht : t.addTimenode id dtime now = some t') : t'.lasttime = t.lasttime := by
  by_cases hid : id ∈ t.cell.ids l
  · rw [addTimenode_present h hid, Option.some.injEq] at ht
    rw [ht]
  · have hhead : t.head = l.head? := h.links.head_eq
    rw [addTimenode_eq h hid, hhead] at ht
    cases l with
    | nil => exact absurd rfl hl
    | cons a l =>
        rw [List.head?_cons] at ht
        dsimp only at ht
        split at ht
        · cases ht
          rfl
        · rcases Option.map_eq_some_iff.mp ht with ⟨m', -, rfl⟩
          rfl

theorem deleteTimenode_lasttime (ht : t.deleteTimenode id = some t') :
    t'.lasttime = t.lasttime := by
  unfold deleteTimenode at ht
  rcases Option.bind_eq_some_iff.mp ht with ⟨found, _, ht⟩
  split at ht
  · cases ht
    rfl
  · split at ht
    · cases ht
    · split at ht
      · dsimp only at ht
        split at ht <;> cases ht <;> rfl
      · rcases Option.map_eq_some_iff.mp ht with ⟨m', _, rfl⟩
        rfl

/-- A new timer is put before the head or behind it. The comparison carries the
    difference of the head, and in front of it the new node is carried in turn. -/
theorem addTimenode_head (h : t.Linked (a :: vs)) (hid : id ∉ t.cell.ids (a :: vs))
    (hfits : CarryFits (Timeval.ofSeconds dtime) (t.cell a).deltaTime) {now : Timeval}
    (ht : t.addTimenode id dtime now = some t') :
    if (timevalSubtract (Timeval.ofSeconds dtime) (t.cell a).deltaTime).negative then
      t'.head = some t.brk ∧ (t'.cell t.brk).deltaTime
        = carry (carry (Timeval.ofSeconds dtime) (t.cell a).deltaTime) (Timeval.ofSeconds dtime)
    else
      t'.head = some a ∧
        (t'.cell a).deltaTime = carry (Timeval.ofSeconds dtime) (t.cell a).deltaTime := by
  rcases malloc_spec h id dtime with ⟨hnode, hold, hne, hc, hlinks⟩
  have hhead : t.head = some a := h.links.head_eq
  have hca : t.brk ≠ a := fun heq => hc (heq ▸ List.mem_cons_self)
  have hnew : (t.malloc id dtime t.brk).deltaTime = Timeval.ofSeconds dtime := by rw [hnode]; rfl
  have ha : (t.malloc id dtime a).deltaTime = (t.cell a).deltaTime := by rw [hold a hca.symm]
  rw [addTimenode_eq h hid, hhead] at ht
  rw [hhead] at hlinks
  rw [← hnew, ← ha] at hfits ⊢
  generalize t.malloc id dtime = m at *
  have hneg : (compareNodes m t.brk a).2
      = (timevalSubtract (m t.brk).deltaTime (m a).deltaTime).negative := rfl
  dsimp only at ht
  rw [hneg] at ht
  split
  · rename_i hfirst
    rw [if_pos hfirst] at ht
    cases ht
    refine ⟨rfl, ?_⟩
    dsimp only
    rw [addAtFirst_deltaTime, subtractNode_deltaTime _ a t.brk hca.symm, compareNodes_deltaTime,
      compareNodes_frame m t.brk a hca]
  · rename_i hbehind
    rw [if_neg hbehind] at ht
    rcases Option.map_eq_some_iff.mp ht with ⟨m', hm', rfl⟩
    refine ⟨rfl, ?_⟩
    -- The loop compares with the head once more, which the first comparison has carried.
    have hneg1 : (compareNodes (compareNodes m t.brk a).1 t.brk a).2 = false := by
      rw [compareNodes_again hca hfits, hneg]
      exact Bool.eq_false_iff.mpr hbehind
    dsimp only
    rw [addLoop_first ((compareNodes_links m t.brk a).links hlinks) hc
      (carryFits_compared hca hfits).1 hneg1 hm', compareNodes_frame m t.brk a hca,
      compareNodes_deltaTime, carry_again hfits]

/-- A cancellation leaves the difference of the head alone, and of all nodes
    that are not in the list. -/
theorem deleteTimenode_frame (h : t.Linked l) (ht : t.deleteTimenode id = some t')
    (hx : x ∉ l.tail) : (t'.cell x).deltaTime = (t.cell x).deltaTime := by
  by_cases hid : id ∈ t.cell.ids l
  · rcases deleteTimenode_present h hid with ⟨u, us, a, vs, hu, rfl, -, -, hgiven⟩
    rw [ht, Option.some.injEq] at hu
    subst hu
    refine hgiven.frame x fun hhead => hx ?_
    -- The node behind the one that goes is behind the head.
    have hmem := List.mem_of_head? hhead
    cases us with
    | nil => exact hmem
    | cons u us => exact List.mem_append_right _ (List.mem_cons_of_mem _ hmem)
  · rw [deleteTimenode_absent h hid, Option.some.injEq] at ht
    rw [ht]

end TimerList

end Cse5462
