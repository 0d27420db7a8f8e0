import Cse5462.Tcpd.TimerInsert
import Mathlib.Data.List.Perm.Subperm

/-!
# The Links of the Timer List

What the timer list keeps whatever the differences of its nodes are, also where
a carry has wrapped: the head leads through allocated nodes with distinct ids,
and the head does not point back into the list.

A comparison that wraps may come out another way when it is made again. Behind
the head that puts a new node into the wrong place, but into the list. At the
head it does not: the comparison before the loop says that the new node goes
behind, the loop then puts it before the head, through a `forward` that nobody
has set since the node before was taken off, and the new node is linked behind a
node that is not in the list any more. This does not happen if the carry at the
head fits; if it does not, the head is left with microseconds that are far out of
range.

## Main definitions

* `TimerList.Linked`: The invariant of the links.
* `Touched`: What any number of comparisons with a node leave alone.
* `Behind`: A node has been linked in behind another.
* `Lost`: A node has been linked in before the head, and is not in the list.

## Theorems

* `addLoop_behind`, `addLoop_head`: What the loop of `add_timenode` does.
* `addTimenode_present`: A timer for a known id is dropped.
* `addTimenode_linked`: Where a timer for a new id goes.
-/

namespace Cse5462

/-- The head leads through the nodes `l`, which are allocated and have distinct
    ids, and does not point back to one of them. -/
structure TimerList.Linked (t : TimerList) (l : List Nat) : Prop where
  links : t.cell.Links t.head l
  allocated : ∀ a ∈ l, a < t.brk
  ids : (t.cell.ids l).Nodup
  back : ∀ a ∈ l.head?, ∀ q ∈ (t.cell a).forward, q < t.brk ∧ q ∉ l

section Loop

variable {m m' m1 : Heap} {p : Option Nat} {l us vs : List Nat} {n a b c : Nat}

/-- Node `a` has been compared with node `c`, any number of times. -/
structure Touched (m m' : Heap) (c a : Nat) : Prop extends SameLinks m m' where
  frame : ∀ x, x ≠ a → (m' x).deltaTime = (m x).deltaTime
  far : Far (m c).deltaTime (m a).deltaTime → Far (m c).deltaTime (m' a).deltaTime

theorem touched_refl (m : Heap) (c a : Nat) : Touched m m c a :=
  ⟨sameLinks_refl m, fun _ _ => rfl, id⟩

theorem Touched.compare (hca : c ≠ a) (h : Touched m m' c a) :
    Touched m (compareNodes m' c a).1 c a := by
  refine ⟨h.toSameLinks.trans (compareNodes_links m' c a), fun x hx => ?_, fun hfar => ?_⟩
  · rw [compareNodes_frame m' c a hx, h.frame x hx]
  · have hcarried := (h.far hfar).carry
    rwa [compareNodes_deltaTime, h.frame c hca]

/-- One turn of the loop puts the node behind the last one or before another one,
    goes on to the next node, or looks at the same node again. -/
theorem addLoop_cases (hca : c ≠ a) (h : addLoop c (n + 1) m (some a) = some m') :
    ∃ m1, Touched m m1 c a ∧ (((m a).next = none ∧ m' = addAtEnd m1 c a) ∨
      addBefore m1 c a = some m' ∨
      (∃ b, (m a).next = some b ∧ addLoop c n (subtractNode m1 c a) (some b) = some m') ∨
      addLoop c n m1 (some a) = some m') := by
  rw [addLoop] at h
  dsimp only at h
  -- The first test is made at the last node only.
  have hfirst : Touched m (if (m a).next = none then compareNodes m c a else (m, true)).1 c a := by
    split
    · exact (touched_refl m c a).compare hca
    · exact touched_refl m c a
  generalize hr : (if (m a).next = none then compareNodes m c a else (m, true)) = r at h hfirst
  by_cases hend : r.2 = false
  · rw [if_pos hend, Option.some.injEq] at h
    refine ⟨r.1, hfirst, Or.inl ⟨?_, h.symm⟩⟩
    by_contra hnext
    rw [if_neg hnext] at hr
    rw [← hr] at hend
    exact Bool.noConfusion hend
  · rw [if_neg hend] at h
    have hsecond := hfirst.compare hca
    split at h
    · exact ⟨_, hsecond, Or.inr (Or.inl h)⟩
    · -- The third test is made at the other nodes.
      have hthird := hsecond.compare hca
      generalize (compareNodes r.1 c a).1 = m2 at h hsecond hthird
      rw [hsecond.next] at h
      cases hnext : (m a).next with
      | none =>
          rw [hnext, if_neg (not_not_intro rfl), if_neg (by exact Bool.noConfusion)] at h
          exact ⟨m2, hsecond, Or.inr (Or.inr (Or.inr h))⟩
      | some b =>
          rw [hnext, if_pos (Option.some_ne_none b)] at h
          split at h
          · rw [subtractNode_next, hthird.next, hnext] at h
            exact ⟨_, hthird, Or.inr (Or.inr (Or.inl ⟨b, rfl, h⟩))⟩
          · exact ⟨_, hthird, Or.inr (Or.inr (Or.inr h))⟩

/-- Node `c` has been linked into the list `l`, behind one of its nodes. -/
structure Behind (m m' : Heap) (p : Option Nat) (l : List Nat) (c : Nat) : Prop where
  links : ∃ us b vs, l = us ++ b :: vs ∧ m'.Links p (us ++ b :: c :: vs)
  id : ∀ x, (m' x).id = (m x).id
  head : ∀ x ∈ l.head?, (m' x).forward = (m x).forward

/-- Node `c` has been linked in before the head of the list `l`, behind a node
    that is not in the list. -/
structure Lost (m m' : Heap) (p : Option Nat) (l : List Nat) (c : Nat) : Prop where
  links : m'.Links p l
  id : ∀ x, (m' x).id = (m x).id
  head : ∀ x ∈ l.head?, (m' x).forward = some c
  far : ∀ x ∈ l.head?, Far (m c).deltaTime (m x).deltaTime → ∃ delta,
    Far (m c).deltaTime delta ∧ (m' x).deltaTime = (timevalSubtract delta (m c).deltaTime).result

theorem Behind.of_same (hm : SameLinks m m1) (h : Behind m1 m' p l c) : Behind m m' p l c :=
  ⟨h.links, fun x => (h.id x).trans (hm.id x), fun x hx => (h.head x hx).trans (hm.forward x)⟩

theorem behind_addAtEnd (hm : SameLinks m m1) (hl : m.Links p (us ++ [a])) (hc : c ∉ us ++ [a])
    (hcn : (m c).next = none) : Behind m (addAtEnd m1 c a) p (us ++ [a]) c := by
  refine ⟨⟨us, a, [], rfl, addAtEnd_links (hm.links hl) hc (by rw [hm.next, hcn])⟩,
    fun x => by rw [addAtEnd_id, hm.id], fun x hx => ?_⟩
  have hxc : x ≠ c := fun heq => hc (heq ▸ List.mem_of_head? hx)
  rw [addAtEnd_forward hxc, hm.forward]

/-- Behind the head, the loop puts the node into the list. -/
theorem addLoop_behind (hl : m.Links p (us ++ a :: vs)) (hc : c ∉ us ++ a :: vs)
    (hcn : (m c).next = none) (hus : us ≠ []) (h : addLoop c n m (some a) = some m') :
    Behind m m' p (us ++ a :: vs) c := by
  -- Induction on the turns.
  induction n generalizing m us a vs with
  | zero =>
      unfold addLoop at h
      cases h
  | succ n ih =>
      have hca : c ≠ a := fun h => hc (h ▸ List.mem_append_right _ List.mem_cons_self)
      have hnext : (m a).next = vs.head? := hl.next_eq
      rcases addLoop_cases hca h with ⟨m1, hm, ⟨hnone, rfl⟩ | hbefore | ⟨b, hb, hgo⟩ | hstay⟩
      · rw [hnone] at hnext
        rw [List.head?_eq_none_iff.mp hnext.symm] at hl hc ⊢
        exact behind_addAtEnd hm.toSameLinks hl hc hcn
      · -- The node before is the last of those passed.
        rcases List.eq_nil_or_concat us with rfl | ⟨ws, b, rfl⟩
        · exact absurd rfl hus
        rw [List.concat_eq_append] at hl hc ⊢
        rw [show ws ++ [b] ++ a :: vs = ws ++ b :: a :: vs from (List.append_cons _ _ _).symm]
          at hl hc ⊢
        rcases addBefore_links (hm.toSameLinks.links hl) hc with ⟨m2, hm2, hlinks⟩
        rw [hbefore, Option.some.injEq] at hm2
        subst hm2
        rcases addBefore_spec hbefore with ⟨hid, -, hfwd⟩
        refine ⟨⟨ws, b, a :: vs, rfl, hlinks⟩, fun x => by rw [hid, hm.id], fun x hx => ?_⟩
        have hxc : x ≠ c := fun heq => hc (heq ▸ List.mem_of_head? hx)
        have hxa : x ≠ a := by
          -- Node `a` is behind node `b`.
          rintro rfl
          have hdisj := (List.nodup_append'.mp hl.nodup)
          cases ws with
          | nil =>
              rw [List.nil_append, List.head?_cons, Option.mem_some_iff] at hx
              exact (List.nodup_cons.mp hl.nodup).1 (hx ▸ List.mem_cons_self)
          | cons w ws =>
              rw [List.cons_append, List.head?_cons, Option.mem_some_iff] at hx
              exact hdisj.2.2 (hx ▸ List.mem_cons_self)
                (List.mem_cons_of_mem _ List.mem_cons_self)
        rw [hfwd x hxc, if_neg hxa, hm.forward]
      · -- The loop goes on to the next node.
        rw [hb] at hnext
        rcases List.head?_eq_some_iff.mp hnext.symm with ⟨ws, rfl⟩
        have hsplit : us ++ a :: b :: ws = (us ++ [a]) ++ b :: ws := List.append_cons us a _
        have hsame := hm.toSameLinks.trans (subtractNode_links m1 c a)
        rw [hsplit] at hl hc ⊢
        exact (ih (hsame.links hl) hc (by rw [hsame.next, hcn])
          (List.append_ne_nil_of_right_ne_nil _ (List.cons_ne_nil _ _)) hgo).of_same hsame
      · exact (ih (hm.toSameLinks.links hl) hc (by rw [hm.next, hcn]) hus hstay).of_same
          hm.toSameLinks

/-- At the head, the loop puts the node behind it, or loses it if the head points
    back to a node that is not in the list. -/
theorem addLoop_head (hl : m.Links p (a :: vs)) (hc : c ∉ a :: vs) (hcn : (m c).next = none)
    (hback : ∀ q ∈ (m a).forward, q ∉ a :: vs) (h : addLoop c n m (some a) = some m') :
    Behind m m' p (a :: vs) c ∨ Lost m m' p (a :: vs) c := by
  induction n generalizing m with
  | zero =>
      unfold addLoop at h
      cases h
  | succ n ih =>
      have hca : c ≠ a := fun heq => hc (heq ▸ List.mem_cons_self)
      have hfirst : m.Links p ([] ++ a :: vs) := hl
      have hnext : (m a).next = vs.head? := hfirst.next_eq
      rcases addLoop_cases hca h with ⟨m1, hm, ⟨hnone, rfl⟩ | hbefore | ⟨b, hb, hgo⟩ | hstay⟩
      · rw [hnone] at hnext
        rw [List.head?_eq_none_iff.mp hnext.symm] at hfirst hc ⊢
        have hbehind := behind_addAtEnd hm.toSameLinks hfirst hc hcn
        exact Or.inl hbehind
      · -- The node is linked behind the one that the head points back to.
        rcases addBefore_spec hbefore with ⟨hid, hdelta, hfwd⟩
        refine Or.inr ⟨?_, fun x => by rw [hid, hm.id], fun x hx => ?_, fun x hx hfar => ?_⟩
        · rcases hq : (m a).forward with _ | q
          · unfold addBefore at hbefore
            rw [hm.forward, hq] at hbefore
            cases hbefore
          have hql := hback q hq
          unfold addBefore at hbefore
          rw [hm.forward, hq, Option.map_some, Option.some.injEq] at hbefore
          have hav := (List.nodup_cons.mp hl.nodup).1
          subst hbefore
          refine (hm.toSameLinks.links hl).congr (fun x hx => ?_) (fun x hx => ?_)
          · have hxc : x ≠ c := fun heq => hc (heq ▸ hx)
            have hxq : x ≠ q := fun heq => hql (heq ▸ hx)
            simp only [subtractNode_next, Heap.setForward_next, Heap.setNext_next, if_neg hxc,
              if_neg hxq]
          · have hxc : x ≠ c := fun heq => hc (heq ▸ List.mem_cons_of_mem _ hx)
            have hxa : x ≠ a := fun heq => hav (heq ▸ hx)
            simp only [subtractNode_forward, Heap.setForward_forward, Heap.setNext_forward,
              if_neg hxc, if_neg hxa]
        · rw [List.head?_cons, Option.mem_some_iff] at hx
          subst hx
          rw [hfwd a hca.symm, if_pos rfl]
        · rw [List.head?_cons, Option.mem_some_iff] at hx
          subst hx
          exact ⟨_, hm.far hfar, by rw [hdelta, subtractNode_result, hm.frame c hca]⟩
      · rw [hb] at hnext
        rcases List.head?_eq_some_iff.mp hnext.symm with ⟨ws, rfl⟩
        have hsame := hm.toSameLinks.trans (subtractNode_links m1 c a)
        have hl' : (subtractNode m1 c a).Links p ([a] ++ b :: ws) := hsame.links hl
        exact Or.inl ((addLoop_behind hl' hc (by rw [hsame.next, hcn])
          (List.cons_ne_nil a []) hgo).of_same hsame)
      · refine (ih (hm.toSameLinks.links hl) (by rw [hm.next, hcn]) (hm.forward a ▸ hback)
          hstay).imp (fun h => h.of_same hm.toSameLinks) fun h => ?_
        refine ⟨h.links, fun x => (h.id x).trans (hm.id x), h.head, fun x hx hfar => ?_⟩
        rw [List.head?_cons, Option.mem_some_iff] at hx
        subst hx
        have hlost := h.far a (Option.mem_some_self a)
        rw [hm.frame c hca] at hlost
        exact hlost (hm.far hfar)

/-- If the carry at the head fits, the node goes behind the head when the
    comparison has said so. -/
theorem addLoop_fits (hl : m.Links p (a :: vs)) (hc : c ∉ a :: vs) (hcn : (m c).next = none)
    (hfits : CarryFits (m c).deltaTime (m a).deltaTime) (hneg : (compareNodes m c a).2 = false)
    (h : addLoop c n m (some a) = some m') : Behind m m' p (a :: vs) c := by
  have hca : c ≠ a := fun heq => hc (heq ▸ List.mem_cons_self)
  have hfirst : m.Links p ([] ++ a :: vs) := hl
  have hnext : (m a).next = vs.head? := hfirst.next_eq
  cases n with
  | zero =>
      unfold addLoop at h
      cases h
  | succ n =>
      rw [addLoop_succ n hca hfits, hneg, if_neg Bool.false_ne_true, hnext] at h
      have hcompare := compareNodes_links m c a
      cases vs with
      | nil =>
          cases h
          have hbehind := behind_addAtEnd hcompare hfirst hc hcn
          exact hbehind
      | cons b ws =>
          have hsame := hcompare.trans (subtractNode_links _ c a)
          have hl' : (subtractNode (compareNodes m c a).1 c a).Links p ([a] ++ b :: ws) :=
            hsame.links hl
          exact (addLoop_behind hl' hc (by rw [hsame.next, hcn]) (List.cons_ne_nil a []) h).of_same
            hsame

end Loop

namespace TimerList

variable {t t' : TimerList} {l : List Nat} {id : Int}

/-- There are no more nodes in the list than have been allocated. -/
theorem Linked.length_le (h : t.Linked l) : l.length ≤ t.brk := by
  -- The nodes are different addresses below `brk`.
  have hsub : l ⊆ List.range t.brk := fun a ha => List.mem_range.mpr (h.allocated a ha)
  have hle := (List.Nodup.subperm h.links.nodup hsub).length_le
  rwa [List.length_range] at hle

theorem Linked.find (h : t.Linked l) (id : Int) : findTimenode t.cell id t.brk t.head
    = some (decide (id ∈ t.cell.ids l)) :=
  findTimenode_eq id t.brk h.links h.length_le

theorem linked_empty (cell : Heap) (lasttime : Timeval) : (empty cell lasttime).Linked [] where
  links := DoublyLinked.nil
  allocated := fun _ ha => absurd ha List.not_mem_nil
  ids := List.nodup_nil
  back := fun _ ha => absurd ha (Option.not_mem_none _)

/-- Rewriting differences leaves the list a list. -/
theorem Linked.of_same (h : t.Linked l) {m : Heap} (hm : SameLinks t.cell m) :
    Linked { t with cell := m } l where
  links := hm.links h.links
  allocated := h.allocated
  ids := by
    dsimp only
    rw [hm.ids_eq]
    exact h.ids
  back a ha q hq := h.back a ha q (by
    dsimp only at hq
    rwa [hm.forward] at hq)

/-- A timer for an id that is in the list is dropped. -/
theorem addTimenode_present (h : t.Linked l) (hid : id ∈ t.cell.ids l) (dtime : ℚ≥0)
    (now : Timeval) : t.addTimenode id dtime now = some t := by
  unfold addTimenode
  rw [h.find, decide_eq_true hid]
  rfl

/-- The node that `malloc` returns, filled in. -/
def newNode (id : Int) (dtime : ℚ≥0) : TimeNode :=
  { id := id, deltaTime := Timeval.ofSeconds dtime, forward := none, next := none }

/-- The heap after `malloc`. -/
def malloc (t : TimerList) (id : Int) (dtime : ℚ≥0) : Heap :=
  Function.update t.cell t.brk (newNode id dtime)

/-- The new node, and the list as it was. -/
theorem malloc_spec (h : t.Linked l) (id : Int) (dtime : ℚ≥0) :
    t.malloc id dtime t.brk = newNode id dtime ∧ (∀ x, x ≠ t.brk → t.malloc id dtime x = t.cell x) ∧
      (∀ x ∈ l, x ≠ t.brk) ∧ t.brk ∉ l ∧ Heap.Links (t.malloc id dtime) t.head l := by
  -- The new node is at an address that is not in the list.
  have hne : ∀ x ∈ l, x ≠ t.brk := fun x hx => Nat.ne_of_lt (h.allocated x hx)
  have hold : ∀ x, x ≠ t.brk → t.malloc id dtime x = t.cell x := fun x hx =>
    Function.update_of_ne hx _ _
  refine ⟨Function.update_self _ _ _, hold, hne, fun hmem => hne _ hmem rfl,
    h.links.congr (fun x hx => ?_) (fun x hx => ?_)⟩
  · rw [hold x (hne x hx)]
  · rw [hold x (hne x (List.mem_of_mem_tail hx))]

/-- `add_timenode` of a new id, with the list empty or not. -/
theorem addTimenode_eq (h : t.Linked l) (hid : id ∉ t.cell.ids l) (dtime : ℚ≥0) (now : Timeval) :
    t.addTimenode id dtime now = match t.head with
      | none => some { cell := t.malloc id dtime, brk := t.brk + 1, head := some t.brk,
                       lasttime := now }
      | some a =>
          if (compareNodes (t.malloc id dtime) t.brk a).2 then
            some { t with cell := addAtFirst (compareNodes (t.malloc id dtime) t.brk a).1 t.brk a
                          brk := t.brk + 1, head := some t.brk }
          else
            (addLoop t.brk (t.brk + 2 ^ 64) (compareNodes (t.malloc id dtime) t.brk a).1 (some a)).map
              fun m => { t with cell := m, brk := t.brk + 1 } := by
  unfold addTimenode
  rw [h.find, decide_eq_false hid, Option.bind_some, if_neg Bool.false_ne_true]
  rfl

/-- A list into which node `brk` has been put, with an id that is new. -/
theorem linked_put (h : t.Linked l) {u : TimerList} {us vs : List Nat} (hl : l = us ++ vs)
    (hlinks : u.cell.Links u.head (us ++ t.brk :: vs)) (hbrk : u.brk = t.brk + 1)
    (hids : u.cell.ids l = t.cell.ids l) (hnew : (u.cell t.brk).id ∉ t.cell.ids l)
    (hback : ∀ a ∈ (us ++ t.brk :: vs).head?, ∀ q ∈ (u.cell a).forward, q < t.brk ∧ q ∉ l) :
    u.Linked (us ++ t.brk :: vs) := by
  subst hl
  have hmem : ∀ a, a ∈ us ++ t.brk :: vs → a = t.brk ∨ a ∈ us ++ vs := fun a ha => by
    simp only [List.mem_append, List.mem_cons] at ha ⊢
    tauto
  refine ⟨hlinks, fun a ha => ?_, ?_, fun a ha q hq => ?_⟩
  · rcases hmem a ha with rfl | ha
    · omega
    · have := h.allocated a ha
      omega
  · have hnodup := h.ids
    rw [← hids] at hnodup hnew
    rw [ids_append] at hnodup hnew ⊢
    rw [ids_cons]
    exact List.nodup_middle.mpr (List.nodup_cons.mpr ⟨hnew, hnodup⟩)
  · rcases hback a ha q hq with ⟨hlt, hnot⟩
    exact ⟨by omega, fun hin => (hmem q hin).elim (fun heq => by omega) hnot⟩

/-- A timer for a new id is put into the list, or lost at the head, where the
    carry does not fit. -/
theorem addTimenode_linked (h : t.Linked l) (hid : id ∉ t.cell.ids l) {dtime : ℚ≥0}
    {now : Timeval} (ht : t.addTimenode id dtime now = some t') :
    (∀ x, x ≠ t.brk → (t'.cell x).id = (t.cell x).id) ∧ (t'.cell t.brk).id = id ∧
      ((∃ us vs, l = us ++ vs ∧ t'.Linked (us ++ t.brk :: vs)) ∨
        t'.Linked l ∧ ∃ a ∈ l.head?, ¬ CarryFits (Timeval.ofSeconds dtime) (t.cell a).deltaTime ∧
          ∃ delta, Far (Timeval.ofSeconds dtime) delta ∧ (t'.cell a).deltaTime
            = (timevalSubtract delta (Timeval.ofSeconds dtime)).result) := by
  rcases malloc_spec h id dtime with ⟨hnode, hold, hne, hc, hlinks⟩
  rw [addTimenode_eq h hid] at ht
  have hhead : t.head = l.head? := h.links.head_eq
  have hnext : (t.malloc id dtime t.brk).next = none := by rw [hnode]; rfl
  have hfwd : (t.malloc id dtime t.brk).forward = none := by rw [hnode]; rfl
  have hnewid : (t.malloc id dtime t.brk).id = id := by rw [hnode]; rfl
  have hdelta : (t.malloc id dtime t.brk).deltaTime = Timeval.ofSeconds dtime := by rw [hnode]; rfl
  generalize t.malloc id dtime = m at *
  have hids : ∀ m' : Heap, (∀ x, (m' x).id = (m x).id) → m'.ids l = t.cell.ids l :=
    fun m' hm' => ids_congr fun x hx => by rw [hm', hold x (hne x hx)]
  cases l with
  | nil =>
      rw [List.head?_nil] at hhead
      rw [hhead] at ht
      cases ht
      refine ⟨fun x hx => by dsimp only; rw [hold x hx], hnewid, Or.inl ⟨[], [], rfl, ?_⟩⟩
      refine linked_put h rfl (DoublyLinked.singleton hnext) rfl rfl (hnewid ▸ hid) ?_
      intro a ha q hq
      rw [List.nil_append, List.head?_cons, Option.mem_some_iff] at ha
      subst ha
      rw [hfwd] at hq
      exact absurd hq (Option.not_mem_none q)
  | cons a vs =>
      rw [List.head?_cons] at hhead
      rw [hhead] at ht hlinks
      dsimp only at ht
      have hca : t.brk ≠ a := fun heq => hc (heq ▸ List.mem_cons_self)
      have hsame := compareNodes_links m t.brk a
      have hlinks1 := hsame.links hlinks
      split at ht
      · -- The node goes before the head, and points back to none.
        cases ht
        refine ⟨fun x hx => ?_, ?_, Or.inl ⟨[], a :: vs, rfl, ?_⟩⟩
        · dsimp only
          rw [addAtFirst_id, hsame.id, hold x hx]
        · dsimp only
          rw [addAtFirst_id, hsame.id, hnewid]
        · refine linked_put h rfl (addAtFirst_links hlinks1 hc) rfl
            (hids _ fun x => by dsimp only; rw [addAtFirst_id, hsame.id]) ?_ ?_
          · dsimp only
            rw [addAtFirst_id, hsame.id, hnewid]
            exact hid
          · intro x hx q hq
            rw [List.nil_append, List.head?_cons, Option.mem_some_iff] at hx
            subst hx
            dsimp only at hq
            rw [addAtFirst_forward hca, hsame.forward, hfwd] at hq
            exact absurd hq (Option.not_mem_none q)
      · rename_i hneg
        rcases Option.map_eq_some_iff.mp ht with ⟨m', hm', rfl⟩
        rw [Bool.not_eq_true] at hneg
        have hback : ∀ q ∈ ((compareNodes m t.brk a).1 a).forward, q < t.brk ∧ q ∉ a :: vs := by
          intro q hq
          rw [hsame.forward, hold a hca.symm] at hq
          exact h.back a (Option.mem_some_self a) q hq
        have hcn : ((compareNodes m t.brk a).1 t.brk).next = none := by rw [hsame.next, hnext]
        have ha : (m a).deltaTime = (t.cell a).deltaTime := by rw [hold a hca.symm]
        -- If the carry at the head fits, the node goes behind it.
        have hplaced : Behind (compareNodes m t.brk a).1 m' (some a) (a :: vs) t.brk ∨
            ¬ CarryFits (m t.brk).deltaTime (m a).deltaTime ∧
              Lost (compareNodes m t.brk a).1 m' (some a) (a :: vs) t.brk := by
          by_cases hfits : CarryFits (m t.brk).deltaTime (m a).deltaTime
          · exact Or.inl (addLoop_fits hlinks1 hc hcn (carryFits_compared hca hfits).1
              (by rw [compareNodes_again hca hfits, hneg]) hm')
          · exact (addLoop_head hlinks1 hc hcn (fun q hq => (hback q hq).2) hm').imp_right
              fun hlost => ⟨hfits, hlost⟩
        rcases hplaced with hbehind | ⟨hfits, hlost⟩
        · have hid' : ∀ x, (m' x).id = (m x).id := fun x => (hbehind.id x).trans (hsame.id x)
          refine ⟨fun x hx => by dsimp only; rw [hid', hold x hx], by dsimp only; rw [hid', hnewid],
            Or.inl ?_⟩
          rcases hbehind.links with ⟨us, b, ws, hl, hm⟩
          have hsplit : us ++ b :: t.brk :: ws = (us ++ [b]) ++ t.brk :: ws :=
            List.append_cons us b _
          rw [hsplit] at hm
          refine ⟨us ++ [b], ws, hl.trans (List.append_cons us b ws), ?_⟩
          refine linked_put h (hl.trans (List.append_cons us b ws)) (hhead ▸ hm) rfl (hids _ hid')
            (by dsimp only; rw [hid', hnewid]; exact hid) fun x hx q hq => ?_
          -- The head is the same.
          have hxa : x = a := by
            have hfirst : (us ++ [b] ++ t.brk :: ws).head? = (a :: vs).head? := by
              rw [hl]
              cases us <;> rfl
            rw [hfirst, List.head?_cons, Option.mem_some_iff] at hx
            exact hx.symm
          subst hxa
          dsimp only at hq
          rw [hbehind.head x (Option.mem_some_self x)] at hq
          exact hback q hq
        · have hid' : ∀ x, (m' x).id = (m x).id := fun x => (hlost.id x).trans (hsame.id x)
          refine ⟨fun x hx => by dsimp only; rw [hid', hold x hx], by dsimp only; rw [hid', hnewid],
            Or.inr ⟨⟨hhead ▸ hlost.links, fun x hx => ?_, ?_, fun x hx q hq => ?_⟩,
              a, Option.mem_some_self a, ?_, ?_⟩⟩
          · have := h.allocated x hx
            dsimp only
            omega
          · dsimp only
            rw [hids _ hid']
            exact h.ids
          · -- The head points back to the node that is lost.
            dsimp only at hq ⊢
            rw [hlost.head x hx, Option.mem_some_iff] at hq
            subst hq
            exact ⟨by omega, hc⟩
          · rw [← hdelta, ← ha]
            exact hfits
          · have hfar := hlost.far a (Option.mem_some_self a)
            rw [compareNodes_frame m t.brk a hca, compareNodes_deltaTime, hdelta] at hfar
            exact hfar (carry_far (hdelta ▸ hfits))

end TimerList

end Cse5462
