import Cse5462.Tcpd.TimerLinks

/-!
# The Operations of the Timer List

The effect of a start and of a cancellation on the timer list, read as a delta
list of ids. Cancelling only adds differences, so what it leaves is exact for
every list whose links are in order. A start compares and subtracts, and where
it goes is told by the values as long as the carries fit.

`TimerList.WellFormed t l` is the invariant of a list whose differences mean
something: none of them is negative. Each operation has one lemma, which gives
the new list of nodes and its entries, and with it that the operation ends
without following a null pointer.

## Main definitions

* `TimerList.WellFormed`: The invariant of the timer list.
* `Given`: A difference has been given to the next node.

## Theorems

* `addTimenode_new`: A timer for a new id.
* `deleteTimenode_absent`, `deleteTimenode_present`: A timer cancelled.
* `wellFormed_added`, `wellFormed_removed`: The invariant is kept.
-/

namespace Cse5462

open DeltaList

/-- A linked list without negative differences. -/
structure TimerList.WellFormed (t : TimerList) (l : List Nat) : Prop extends
    TimerList.Linked t l where
  deltas : ∀ e ∈ t.cell.entries l, 0 ≤ e.2

namespace TimerList

variable {t t' : TimerList} {l us vs : List Nat} {id : Int} {dtime : ℚ≥0}

theorem wellFormed_empty (cell : Heap) (lasttime : Timeval) :
    (empty cell lasttime).WellFormed [] where
  toLinked := linked_empty cell lasttime
  deltas := fun _ he => absurd he List.not_mem_nil

/-- The nodes that the head leads through when a new one has been put among them. -/
theorem linked_added (h : t.Linked l) (hid : id ∉ t.cell.ids l) {now : Timeval}
    (ht : t.addTimenode id dtime now = some t') {l' : List Nat}
    (hlinks : t'.cell.Links t'.head l') (hmem : t.brk ∈ l') : t'.Linked l' := by
  rcases (addTimenode_linked h hid ht).2.2 with ⟨us, vs, -, hlinked⟩ | ⟨hlinked, -⟩
  · rwa [hlinked.links.unique hlinks] at hlinked
  · rw [← hlinked.links.unique hlinks] at hmem
    exact absurd (h.allocated _ hmem) (Nat.lt_irrefl _)

/-- A node put into the list at offset `d`, as seen from the list before. -/
theorem inserted_linked (h : t.Linked l) (hid : id ∉ t.cell.ids l) {now : Timeval}
    (ht : t.addTimenode id dtime now = some t') {d : Int}
    (hins : Inserted (t.malloc id dtime) t'.cell t'.head l t.brk d) :
    ∃ us vs, l = us ++ vs ∧ t'.Linked (us ++ t.brk :: vs) ∧
      t'.cell.entries (us ++ t.brk :: vs) = t.cell.entries us ++
        (id, d - total (t.cell.entries us)) ::
        advance (d - total (t.cell.entries us)) (t.cell.entries vs) ∧
      (us ≠ [] → 0 ≤ d - total (t.cell.entries us)) ∧
      ∀ e ∈ (t.cell.entries vs).head?, d - total (t.cell.entries us) ≤ e.2 := by
  rcases malloc_spec h id dtime with ⟨hnode, hold, hne, -, -⟩
  rcases hins with ⟨us, vs, rfl, hlinks, hent, hpos, hle⟩
  -- The old nodes are as they were.
  have hus : (t.malloc id dtime).entries us = t.cell.entries us :=
    entries_congr (fun x hx => by rw [hold x (hne x (List.mem_append_left _ hx))])
      (fun x hx => by rw [hold x (hne x (List.mem_append_left _ hx))])
  have hvs : (t.malloc id dtime).entries vs = t.cell.entries vs :=
    entries_congr (fun x hx => by rw [hold x (hne x (List.mem_append_right _ hx))])
      (fun x hx => by rw [hold x (hne x (List.mem_append_right _ hx))])
  rw [hus, hvs, hnode] at hent
  rw [hus] at hpos hle
  rw [hvs] at hle
  exact ⟨us, vs, rfl, linked_added h hid ht hlinks (List.mem_append_right _ List.mem_cons_self),
    hent, hpos, hle⟩

/-- A timer for a new id is put into the list at its interval, if all carries
    fit on the way. -/
theorem addTimenode_new (h : t.Linked l) (hid : id ∉ t.cell.ids l)
    (hfits : t.cell.CarriesFit (Timeval.ofSeconds dtime) l) (now : Timeval) :
    ∃ t' us vs, t.addTimenode id dtime now = some t' ∧ l = us ++ vs ∧
      t'.Linked (us ++ t.brk :: vs) ∧
      t'.cell.entries (us ++ t.brk :: vs) = t.cell.entries us ++
        (id, (Timeval.ofSeconds dtime).value - total (t.cell.entries us)) ::
        advance ((Timeval.ofSeconds dtime).value - total (t.cell.entries us))
          (t.cell.entries vs) ∧
      (us ≠ [] → 0 ≤ (Timeval.ofSeconds dtime).value - total (t.cell.entries us)) ∧
      ∀ e ∈ (t.cell.entries vs).head?,
        (Timeval.ofSeconds dtime).value - total (t.cell.entries us) ≤ e.2 := by
  rcases malloc_spec h id dtime with ⟨hnode, hold, hne, hc, hlinks⟩
  suffices hins : ∃ t', t.addTimenode id dtime now = some t' ∧ Inserted (t.malloc id dtime)
      t'.cell t'.head l t.brk (Timeval.ofSeconds dtime).value by
    rcases hins with ⟨t', ht', hins⟩
    rcases inserted_linked h hid ht' hins with ⟨us, vs, hspec⟩
    exact ⟨t', us, vs, ht', hspec⟩
  rw [addTimenode_eq h hid]
  have hhead : t.head = l.head? := h.links.head_eq
  have hnext : (t.malloc id dtime t.brk).next = none := by rw [hnode]; rfl
  have hdelta : (t.malloc id dtime t.brk).deltaTime = Timeval.ofSeconds dtime := by rw [hnode]; rfl
  have hdeltas : ∀ x ∈ l, (t.malloc id dtime x).deltaTime = (t.cell x).deltaTime := fun x hx => by
    rw [hold x (hne x hx)]
  rw [← carriesFit_congr hdeltas, ← hdelta] at hfits
  rw [← hdelta]
  generalize t.malloc id dtime = m at *
  cases l with
  | nil =>
      -- The list was empty.
      rw [List.head?_nil] at hhead
      rw [hhead]
      refine ⟨_, rfl, [], [], rfl, DoublyLinked.singleton hnext, ?_, fun hnil => absurd rfl hnil,
        fun e he => absurd he (Option.not_mem_none e)⟩
      rw [List.nil_append, entries_cons]
      exact congrArg (fun x => ((m t.brk).id, x) :: []) (sub_zero _).symm
  | cons a vs =>
      rw [List.head?_cons] at hhead
      rw [hhead] at hlinks ⊢
      have hca : t.brk ≠ a := fun heq => hc (heq ▸ List.mem_cons_self)
      dsimp only
      -- The comparison with the head decides where the node goes.
      rcases compareNodes_spec hfits.1 with ⟨hsame, hle, -⟩
      rcases carryFits_compared hca hfits.1 with ⟨-, hback⟩
      have hlinks1 := hsame.links hlinks
      have hframe := compareNodes_frame m t.brk a hca
      cases hneg : (compareNodes m t.brk a).2 with
      | true =>
          rw [if_pos rfl]
          refine ⟨_, rfl, ?_⟩
          have hins := addAtFirst_inserted hlinks1 hc hback
            (by rw [hsame.value, hsame.value]; exact hle hneg)
          rw [hframe] at hins
          exact hins.of_agree hsame.id fun x _ => hsame.value x
      | false =>
          rw [if_neg Bool.false_ne_true]
          have hlen := h.length_le
          rw [List.length_cons] at hlen
          have hlinks2 : (compareNodes m t.brk a).1.Links (some a) ([] ++ a :: vs) := hlinks1
          rcases addLoop_inserted (m t.brk).deltaTime.value (t.brk + 2 ^ 64) hlinks2 hc
            (by rw [hsame.next, hnext]) (by rw [hframe]; exact (sub_zero _).symm)
            (by rw [hframe]; exact carriesFit_compared (List.nodup_cons.mp hlinks.nodup).1 hfits)
            (fun hnil => absurd rfl hnil)
            (fun _ => by rw [compareNodes_again hca hfits.1, hneg]) (by omega) with ⟨m', hm', hins⟩
          rw [hm', Option.map_some]
          exact ⟨_, rfl, hins.of_agree hsame.id fun x _ => hsame.value x⟩

/-- A difference taken off the first entry, which is not greater than it. -/
theorem advance_nonneg {d : Int} {es : List (Int × Int)} (hle : ∀ e ∈ es.head?, d ≤ e.2)
    (hes : ∀ e ∈ es, 0 ≤ e.2) : ∀ e ∈ advance d es, 0 ≤ e.2 := by
  intro e he
  cases es with
  | nil => exact absurd he List.not_mem_nil
  | cons f es =>
      rcases List.mem_cons.mp he with rfl | he
      · have := hle f (Option.mem_some_self f)
        dsimp only
        omega
      · exact hes e (List.mem_cons_of_mem _ he)

/-- Where a new timer has been put in, no difference is negative. -/
theorem wellFormed_added (h : t.WellFormed (us ++ vs)) (hlinked : t'.Linked (us ++ t.brk :: vs))
    {d : Int} (hd : 0 ≤ d)
    (hent : t'.cell.entries (us ++ t.brk :: vs) = t.cell.entries us ++
      (id, d - total (t.cell.entries us)) ::
      advance (d - total (t.cell.entries us)) (t.cell.entries vs))
    (hpos : us ≠ [] → 0 ≤ d - total (t.cell.entries us))
    (hle : ∀ e ∈ (t.cell.entries vs).head?, d - total (t.cell.entries us) ≤ e.2) :
    t'.WellFormed (us ++ t.brk :: vs) := by
  have hdeltas := h.deltas
  rw [entries_append] at hdeltas
  refine ⟨hlinked, ?_⟩
  rw [hent]
  intro e he
  rcases List.mem_append.mp he with he | he
  · exact hdeltas e (List.mem_append_left _ he)
  rcases List.mem_cons.mp he with rfl | he
  · by_cases hus : us = []
    · subst hus
      exact hd.trans_eq (sub_zero d).symm
    · exact hpos hus
  · exact advance_nonneg hle (fun f hf => hdeltas f (List.mem_append_right _ hf)) e he

/-- Cancelling an id that is not in the list changes nothing. -/
theorem deleteTimenode_absent (h : t.Linked l) (hid : id ∉ t.cell.ids l) :
    t.deleteTimenode id = some t := by
  unfold deleteTimenode
  rw [h.find, decide_eq_false hid]
  rfl

end TimerList

section Unlink

variable {m m' : Heap} {p : Option Nat} {us vs : List Nat} {a b : Nat}

/-- The loop of `delete_timenode` comes to the first node with the id. -/
theorem deleteLoop_eq (id : Int) (n : Nat) (hl : m.Links p (us ++ a :: vs))
    (hn : us.length < n) (hus : ∀ x ∈ us, (m x).id ≠ id) (ha : (m a).id = id) :
    deleteLoop id n m p = unlink m a := by
  -- Induction on the nodes before the one that is looked for.
  induction us generalizing p n with
  | nil =>
      have hp : p = some a := hl.head_eq
      subst hp
      cases n with
      | zero => exact absurd hn (Nat.not_lt_zero _)
      | succ n =>
          unfold deleteLoop
          rw [if_pos ha]
  | cons x us ih =>
      have hp : p = some x := hl.head_eq
      subst hp
      cases n with
      | zero => exact absurd hn (Nat.not_lt_zero _)
      | succ n =>
          unfold deleteLoop
          rw [if_neg (hus x List.mem_cons_self)]
          exact ih n hl.tail (Nat.lt_of_succ_lt_succ hn)
            (fun y hy => hus y (List.mem_cons_of_mem _ hy))

/-- A difference given to the first of the nodes `vs`. -/
theorem entries_give {d : Int} (hnodup : vs.Nodup) (hid : ∀ x ∈ vs, (m' x).id = (m x).id)
    (hhead : ∀ x ∈ vs.head?, (m' x).deltaTime.value = (m x).deltaTime.value + d)
    (htail : ∀ x ∈ vs.tail, (m' x).deltaTime.value = (m x).deltaTime.value) :
    m'.entries vs = advance (-d) (m.entries vs) := by
  cases vs with
  | nil => rfl
  | cons x vs =>
      rw [entries_cons, entries_cons, advance, sub_neg_eq_add, hid x List.mem_cons_self,
        hhead x (Option.mem_some_self x),
        entries_congr (fun y hy => hid y (List.mem_cons_of_mem _ hy)) htail]

/-- The difference of node `a` has been added to that of the first of the nodes
    `vs`, and nothing else has changed but links. -/
structure Given (m m' : Heap) (a : Nat) (vs : List Nat) : Prop where
  id : ∀ x, (m' x).id = (m x).id
  head : ∀ x ∈ vs.head?, (m' x).deltaTime = timevalAdd (m x).deltaTime (m a).deltaTime
  frame : ∀ x, x ∉ vs.head? → (m' x).deltaTime = (m x).deltaTime

/-- The entries when node `a` has gone. -/
theorem Given.entries (h : Given m m' a vs) (hnodup : (us ++ vs).Nodup) :
    m'.entries (us ++ vs)
      = m.entries us ++ advance (-(m a).deltaTime.value) (m.entries vs) := by
  rcases List.nodup_append'.mp hnodup with ⟨-, hvs, hdisj⟩
  rw [entries_append]
  congr 1
  · refine entries_congr (fun x _ => h.id x) (fun x hx => ?_)
    rw [h.frame x fun hhead => hdisj hx (List.mem_of_head? hhead)]
  · refine entries_give hvs (fun x _ => h.id x) (fun x hx => ?_) (fun x hx => ?_)
    · rw [h.head x hx, timevalAdd_value]
    · rw [h.frame x fun hhead => ?_]
      rcases List.head?_eq_some_iff.mp hhead with ⟨ws, rfl⟩
      exact (List.nodup_cons.mp hvs).1 hx

/-- Taking a node out changes no id, and of `forward` and the differences only
    those of the next node, which gets its difference. -/
theorem unlink_frame (h : unlink m a = some m') (hnext : (m a).next = vs.head?) :
    Given m m' a vs ∧ ∀ x, x ∉ vs.head? → (m' x).forward = (m x).forward := by
  unfold unlink at h
  rcases Option.map_eq_some_iff.mp h with ⟨q, -, rfl⟩
  simp only [Heap.setNext_next, ite_self]
  cases hb : (m a).next with
  | none =>
      have hnil : vs.head? = none := hnext.symm.trans hb
      refine ⟨⟨fun x => Heap.setNext_id m q x none, fun x hx => ?_,
        fun x _ => Heap.setNext_deltaTime m q x none⟩, fun x _ => Heap.setNext_forward m q x none⟩
      rw [hnil] at hx
      exact absurd hx (Option.not_mem_none x)
  | some y =>
      have hy : vs.head? = some y := hnext.symm.trans hb
      have hne : ∀ x, x ∉ vs.head? → x ≠ y := fun x hx heq => hx (heq ▸ hy)
      dsimp only
      refine ⟨⟨fun x => ?_, fun x hx => ?_, fun x hx => ?_⟩, fun x hx => ?_⟩
      · rw [Heap.setDelta_id, Heap.setForward_id, Heap.setNext_id]
      · rw [hy, Option.mem_some_iff] at hx
        subst hx
        simp only [Heap.setDelta_deltaTime, if_true, Heap.setForward_deltaTime,
          Heap.setNext_deltaTime]
      · rw [Heap.setDelta_deltaTime, if_neg (hne x hx), Heap.setForward_deltaTime,
          Heap.setNext_deltaTime]
      · rw [Heap.setDelta_forward, Heap.setForward_forward, if_neg (hne x hx), Heap.setNext_forward]

/-- Node `a` is taken out of the list. -/
theorem unlink_spec (hl : m.Links p (us ++ b :: a :: vs)) :
    ∃ m', unlink m a = some m' ∧ m'.Links p (us ++ b :: vs) := by
  have hfwd : (m a).forward = some b := hl.prev_eq
  have hsplit : us ++ b :: a :: vs = (us ++ [b]) ++ a :: vs := by
    rw [List.append_assoc, List.singleton_append]
  -- The node behind, if there is one.
  have hnext : (m a).next = vs.head? := by
    have hl' := hl
    rw [hsplit] at hl'
    exact hl'.next_eq
  rcases List.nodup_append'.mp (hsplit ▸ hl.nodup) with ⟨hub, hrest, hdisj⟩
  have hvs := (List.nodup_cons.mp hrest).2
  have hba : a ≠ b := fun h =>
    hdisj (List.mem_append_right _ List.mem_cons_self) (h ▸ List.mem_cons_self)
  have hus : ∀ x ∈ us, x ≠ b := fun x hx h =>
    (List.nodup_append'.mp hub).2.2 hx (h ▸ List.mem_cons_self)
  have hvb : ∀ x ∈ vs, x ≠ b := fun x hx h =>
    hdisj (List.mem_append_right _ (h ▸ List.mem_cons_self)) (List.mem_cons_of_mem _ hx)
  have hbnext : ∀ x ∈ us ++ vs, x ≠ b := by
    intro x hx
    rcases List.mem_append.mp hx with hx | hx
    · exact hus x hx
    · exact hvb x hx
  unfold unlink
  rw [hfwd, Option.map_some]
  refine ⟨_, rfl, ?_⟩
  cases vs with
  | nil =>
      have hnil : (m a).next = none := hnext
      simp only [Heap.setNext_next, if_neg hba, hnil]
      refine hl.remove_after ?_ (fun x hx => absurd hx (Option.not_mem_none x)) (fun x hx => ?_)
        (fun x _ => ?_)
      · simp only [Heap.setNext_next, if_true, List.head?_nil]
      · simp only [Heap.setNext_next, if_neg (hbnext x hx)]
      · simp only [Heap.setNext_forward]
  | cons c vs =>
      have hcons : (m a).next = some c := hnext
      have hcvs := (List.nodup_cons.mp hvs).1
      have hubc : ∀ x ∈ us ++ [b], x ≠ c := fun x hx h =>
        hdisj hx (h ▸ List.mem_cons_of_mem _ List.mem_cons_self)
      simp only [Heap.setNext_next, if_neg hba, hcons]
      refine hl.remove_after ?_ (fun x hx => ?_) (fun x hx => ?_) (fun x hx => ?_)
      · simp only [Heap.setDelta_next, Heap.setForward_next, Heap.setNext_next, if_true,
          List.head?_cons]
      · rw [List.head?_cons, Option.mem_some_iff] at hx
        subst hx
        simp only [Heap.setDelta_forward, Heap.setForward_forward, if_true, Heap.setNext_forward,
          hfwd]
      · simp only [Heap.setDelta_next, Heap.setForward_next, Heap.setNext_next,
          if_neg (hbnext x hx)]
      · have hxc : x ≠ c := by
          rw [List.tail_cons] at hx
          rcases List.mem_append.mp hx with hx | hx
          · exact hubc x (List.mem_append_left _ hx)
          · rcases List.mem_cons.mp hx with rfl | hx
            · exact hubc x (List.mem_append_right _ List.mem_cons_self)
            · exact fun h => hcvs (h ▸ hx)
        simp only [Heap.setDelta_forward, Heap.setForward_forward, if_neg hxc,
          Heap.setNext_forward]

end Unlink

namespace TimerList

variable {t t' : TimerList} {l us vs : List Nat} {a b : Nat} {id : Int}

/-- A list from which a node has been taken. -/
theorem linked_removed (h : t.Linked (us ++ a :: vs)) {m : Heap} {p : Option Nat}
    (hlinks : m.Links p (us ++ vs)) (hid : ∀ x, (m x).id = (t.cell x).id)
    (hback : ∀ x ∈ (us ++ vs).head?, ∀ q ∈ (m x).forward, q < t.brk ∧ q ∉ us ++ vs) :
    Linked { t with cell := m, head := p } (us ++ vs) := by
  have hids := h.ids
  have hsub : ∀ x ∈ us ++ vs, x ∈ us ++ a :: vs := fun x hx =>
    (List.mem_append.mp hx).elim (List.mem_append_left _)
      fun hx => List.mem_append_right _ (List.mem_cons_of_mem _ hx)
  refine ⟨hlinks, fun x hx => h.allocated x (hsub x hx), ?_, hback⟩
  dsimp only
  rw [ids_congr (m := t.cell) fun x _ => hid x]
  rw [ids_append, ids_cons] at hids
  rw [ids_append]
  exact (List.nodup_cons.mp (List.nodup_middle.mp hids)).2

/-- Cancelling the id of the head takes the head off. Where it points back to
    stays as it was in the node behind. -/
theorem deleteTimenode_head (h : t.Linked (a :: vs)) (hid : (t.cell a).id = id) :
    ∃ t', t.deleteTimenode id = some t' ∧ t'.Linked vs ∧ Given t.cell t'.cell a vs := by
  have hhead : t.head = some a := h.links.head_eq
  have hlinks := h.links.tail
  have hnodup := List.nodup_cons.mp h.links.nodup
  have hfound : id ∈ t.cell.ids (a :: vs) := hid ▸ List.mem_cons_self
  have hfirst : t.Linked ([] ++ a :: vs) := h
  unfold deleteTimenode
  rw [h.find, decide_eq_true hfound, Option.bind_some, if_neg Bool.noConfusion, hhead]
  dsimp only
  rw [if_pos hid]
  cases hnext : (t.cell a).next with
  | none =>
      rw [hnext] at hlinks
      have hnil : vs = [] := hlinks.eq_nil
      subst hnil
      refine ⟨_, rfl, ?_, fun x => rfl, fun x hx => absurd hx (Option.not_mem_none x),
        fun x _ => rfl⟩
      exact linked_removed hfirst DoublyLinked.nil (fun x => rfl)
        fun x hx => absurd hx (Option.not_mem_none x)
  | some b =>
      rw [hnext] at hlinks
      rcases hlinks.exists_cons with ⟨ws, rfl⟩
      refine ⟨_, rfl, ?_, fun x => Heap.setDelta_id _ _ _ _, fun x hx => ?_, fun x hx => ?_⟩
      · refine linked_removed hfirst ((sameLinks_setDelta _ b _).links hlinks)
          (fun x => Heap.setDelta_id _ _ _ _) fun x hx q hq => ?_
        -- The new head points back to the old one.
        rw [List.nil_append, List.head?_cons, Option.mem_some_iff] at hx
        subst hx
        have hback : (t.cell b).forward = some a := hfirst.links.prev_eq
        rw [Heap.setDelta_forward, hback, Option.mem_some_iff] at hq
        exact hq ▸ ⟨h.allocated a List.mem_cons_self, hnodup.1⟩
      · -- It gets the difference of the old one.
        rw [List.head?_cons, Option.mem_some_iff] at hx
        subst hx
        rw [Heap.setDelta_deltaTime, if_pos rfl]
      · have hxb : x ≠ b := fun heq => hx (heq ▸ Option.mem_some_self b)
        rw [Heap.setDelta_deltaTime, if_neg hxb]

/-- Cancelling the id of a node behind the head unlinks that node. -/
theorem deleteTimenode_behind (h : t.Linked (us ++ b :: a :: vs)) (hid : (t.cell a).id = id)
    (hus : ∀ x ∈ us ++ [b], (t.cell x).id ≠ id) :
    ∃ t', t.deleteTimenode id = some t' ∧ t'.Linked (us ++ b :: vs) ∧
      Given t.cell t'.cell a vs := by
  have hsplit : ∀ ws : List Nat, us ++ b :: ws = (us ++ [b]) ++ ws := List.append_cons us b
  have hfound : id ∈ t.cell.ids (us ++ b :: a :: vs) := by
    rw [hsplit, ids_append, ids_cons, ← hid]
    exact List.mem_append_right _ List.mem_cons_self
  have hlen := h.length_le
  have hfuel : (us ++ [b]).length < t.brk := by
    rw [hsplit, List.length_append, List.length_cons] at hlen
    omega
  have hhead : t.head = (us ++ b :: a :: vs).head? := h.links.head_eq
  have hfirst : ∀ ws : List Nat, (us ++ b :: ws).head? = (us ++ [b]).head? := fun ws => by
    cases us <;> rfl
  rcases unlink_spec h.links with ⟨m', hm', hlinks'⟩
  have hbehind : t.Linked ((us ++ [b]) ++ a :: vs) := hsplit _ ▸ h
  rcases unlink_frame hm' hbehind.links.next_eq with ⟨hgiven, hkept⟩
  have hlinked : Linked { t with cell := m', head := t.head } ((us ++ [b]) ++ vs) := by
    refine linked_removed hbehind (hsplit vs ▸ hlinks') hgiven.id fun x hx q hq => ?_
    rw [← hsplit] at hx ⊢
    rw [hfirst, ← hfirst (a :: vs)] at hx
    -- The head is not the node behind.
    have hnext : x ∉ vs.head? := by
      intro heq
      rw [hfirst] at hx
      exact (List.nodup_append'.mp hbehind.links.nodup).2.2 (List.mem_of_head? hx)
        (List.mem_cons_of_mem _ (List.mem_of_head? heq))
    rw [hkept x hnext] at hq
    rcases h.back x hx q hq with ⟨hlt, hnot⟩
    refine ⟨hlt, fun hmem => hnot ?_⟩
    rw [List.mem_append, List.mem_cons] at hmem ⊢
    exact hmem.imp_right fun hmem => hmem.imp_right (List.mem_cons_of_mem _)
  rw [← hsplit] at hlinked
  unfold deleteTimenode
  rw [h.find, decide_eq_true hfound, Option.bind_some, if_neg Bool.noConfusion]
  cases hx : t.head with
  | none =>
      -- The list has a node, so its head is not null.
      rw [hx] at hhead
      exact absurd (List.head?_eq_none_iff.mp hhead.symm)
        (List.append_ne_nil_of_right_ne_nil _ (List.cons_ne_nil _ _))
  | some x =>
      have hmem : x ∈ us ++ [b] := by
        rw [hx, hfirst] at hhead
        exact List.mem_of_head? hhead.symm
      have hlinks := h.links
      rw [hx, hsplit] at hlinks
      rw [hx] at hlinked
      dsimp only
      rw [if_neg (hus x hmem), deleteLoop_eq id t.brk hlinks hfuel hus hid, hm', Option.map_some]
      exact ⟨_, rfl, hlinked, hgiven⟩

/-- Cancelling the id of a node takes the node out and gives its difference to the
    node behind. -/
theorem deleteTimenode_at (h : t.Linked (us ++ a :: vs)) (haid : (t.cell a).id = id) :
    ∃ t', t.deleteTimenode id = some t' ∧ t'.Linked (us ++ vs) ∧ Given t.cell t'.cell a vs := by
  have hnodup := h.ids
  -- The ids are distinct, so no node before `a` has the id.
  have hus : ∀ x ∈ us, (t.cell x).id ≠ id := by
    intro x hx heq
    rw [ids_append] at hnodup
    exact List.disjoint_of_nodup_append hnodup (mem_ids.mpr ⟨x, hx, heq⟩)
      (mem_ids.mpr ⟨a, List.mem_cons_self, haid⟩)
  rcases List.eq_nil_or_concat us with rfl | ⟨us, b, rfl⟩
  · exact deleteTimenode_head h haid
  · rw [List.concat_eq_append] at h hus ⊢
    rw [← List.append_cons] at h ⊢
    exact deleteTimenode_behind h haid hus

/-- Cancelling an id of the list takes its node out. -/
theorem deleteTimenode_present (h : t.Linked l) (hid : id ∈ t.cell.ids l) :
    ∃ t' us a vs, t.deleteTimenode id = some t' ∧ l = us ++ a :: vs ∧ (t.cell a).id = id ∧
      t'.Linked (us ++ vs) ∧ Given t.cell t'.cell a vs := by
  rcases mem_ids.mp hid with ⟨a, ha, haid⟩
  rcases List.append_of_mem ha with ⟨us, vs, rfl⟩
  rcases deleteTimenode_at h haid with ⟨t', ht', hlinked, hgiven⟩
  exact ⟨t', us, a, vs, ht', rfl, haid, hlinked, hgiven⟩

/-- Where a node has been taken out, no difference is negative either: the node
    behind gets more. -/
theorem wellFormed_removed (h : t.WellFormed (us ++ a :: vs)) (hlinked : t'.Linked (us ++ vs))
    (hgiven : Given t.cell t'.cell a vs) : t'.WellFormed (us ++ vs) := by
  have hdeltas := h.deltas
  rw [entries_append, entries_cons] at hdeltas
  have ha := hdeltas _ (List.mem_append_right _ List.mem_cons_self)
  have hvs : ∀ e ∈ t.cell.entries vs, 0 ≤ e.2 := fun e he =>
    hdeltas e (List.mem_append_right _ (List.mem_cons_of_mem _ he))
  refine ⟨hlinked, ?_⟩
  rw [hgiven.entries hlinked.links.nodup]
  intro e he
  rcases List.mem_append.mp he with he | he
  · exact hdeltas e (List.mem_append_left _ he)
  · refine advance_nonneg (fun f hf => ?_) hvs e he
    have := hvs f (List.mem_of_head? hf)
    dsimp only at ha
    omega

end TimerList

end Cse5462
