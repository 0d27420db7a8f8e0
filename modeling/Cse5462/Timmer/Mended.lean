import Cse5462.Tcpd.TimerFrame
import Cse5462.Tcpd.TimerReach
import Cse5462.Timmer.TimeList

/-!
# Pointers Back

A list of the stand-alone timer need not point back properly: a node whose
predecessor has been taken out still points to it. The operations read `forward`
of one node at most, the one before which a new node is put or the one that is
taken out, and only if it is not the head. So the list is followed on a second
heap, which has the right pointers back and is otherwise the same. There the
operations are those of `tcpd.c`, and as long as the pointers that are read are
right and the carries of a new timer fit they do the same on both heaps.

## Main definitions

* `Agree`: Heaps that differ in the pointers back at most.
* `Mended`: A list with its pointers back put right.

## Theorems

* `addLoop_agree`: The loop of `add_timenode` on the two heaps.
* `deleteLoop_agree`: The loop of `delete_timenode`.
* `Mended.addTimenode`, `Mended.deleteTimenode`, `Mended.updateTimeList`: The
  operations on a list and on the mended one.
-/

namespace Cse5462

open DeltaList

/-- `m'` differs from `m` at most in where the nodes point back to. -/
structure Agree (m m' : Heap) : Prop where
  id : ∀ a, (m' a).id = (m a).id
  next : ∀ a, (m' a).next = (m a).next
  deltaTime : ∀ a, (m' a).deltaTime = (m a).deltaTime

namespace Agree

variable {m m' : Heap} {x y a c n : Nat} {p : Option Nat} {l : List Nat}

theorem refl (m : Heap) : Agree m m := ⟨fun _ => rfl, fun _ => rfl, fun _ => rfl⟩

theorem setDelta (h : Agree m m') (a : Nat) (d : Timeval) :
    Agree (m.setDelta a d) (m'.setDelta a d) where
  id x := by rw [Heap.setDelta_id, Heap.setDelta_id, h.id]
  next x := by rw [Heap.setDelta_next, Heap.setDelta_next, h.next]
  deltaTime x := by rw [Heap.setDelta_deltaTime, Heap.setDelta_deltaTime, h.deltaTime]

theorem setNext (h : Agree m m') (a : Nat) (p : Option Nat) :
    Agree (m.setNext a p) (m'.setNext a p) where
  id x := by rw [Heap.setNext_id, Heap.setNext_id, h.id]
  next x := by rw [Heap.setNext_next, Heap.setNext_next, h.next]
  deltaTime x := by rw [Heap.setNext_deltaTime, Heap.setNext_deltaTime, h.deltaTime]

/-- A pointer back may be set on one heap or on both. -/
theorem setForward (h : Agree m m') (a b : Nat) (p q : Option Nat) :
    Agree (m.setForward a p) (m'.setForward b q) where
  id x := by rw [Heap.setForward_id, Heap.setForward_id, h.id]
  next x := by rw [Heap.setForward_next, Heap.setForward_next, h.next]
  deltaTime x := by rw [Heap.setForward_deltaTime, Heap.setForward_deltaTime, h.deltaTime]

theorem setForward_right (h : Agree m m') (a : Nat) (p : Option Nat) :
    Agree m (m'.setForward a p) where
  id x := by rw [Heap.setForward_id, h.id]
  next x := by rw [Heap.setForward_next, h.next]
  deltaTime x := by rw [Heap.setForward_deltaTime, h.deltaTime]

theorem update (h : Agree m m') (a : Nat) (node : TimeNode) :
    Agree (Function.update m a node) (Function.update m' a node) where
  id x := by
    rw [Heap.update_written _ _ _ TimeNode.id, Heap.update_written _ _ _ TimeNode.id, h.id]
  next x := by
    rw [Heap.update_written _ _ _ TimeNode.next, Heap.update_written _ _ _ TimeNode.next, h.next]
  deltaTime x := by
    rw [Heap.update_written _ _ _ TimeNode.deltaTime, Heap.update_written _ _ _ TimeNode.deltaTime,
      h.deltaTime]

theorem compareNodes (h : Agree m m') (x y : Nat) :
    Agree (compareNodes m x y).1 (compareNodes m' x y).1 ∧
      (Cse5462.compareNodes m' x y).2 = (Cse5462.compareNodes m x y).2 := by
  unfold Cse5462.compareNodes
  rw [h.deltaTime, h.deltaTime]
  exact ⟨h.setDelta y _, rfl⟩

theorem subtractNode (h : Agree m m') (x y : Nat) :
    Agree (subtractNode m x y) (subtractNode m' x y) := by
  unfold Cse5462.subtractNode
  rw [h.deltaTime, h.deltaTime]
  exact (h.setDelta y _).setDelta x _

theorem addAtEnd (h : Agree m m') (c a : Nat) : Agree (addAtEnd m c a) (addAtEnd m' c a) :=
  ((h.subtractNode c a).setNext a _).setForward c c _ _

theorem addAtFirst (h : Agree m m') (c a : Nat) : Agree (addAtFirst m c a) (addAtFirst m' c a) :=
  ((h.setNext c _).setForward a a _ _).subtractNode a c

/-- A node is put before another one at the same place if both heaps point back
    from there to the same node. -/
theorem addBefore (h : Agree m m') (hfwd : (m a).forward = (m' a).forward) {r' : Heap}
    (hr : addBefore m' c a = some r') : ∃ r, Cse5462.addBefore m c a = some r ∧ Agree r r' := by
  unfold Cse5462.addBefore at hr ⊢
  rw [hfwd]
  rcases Option.map_eq_some_iff.mp hr with ⟨b, hb, rfl⟩
  rw [hb, Option.map_some]
  refine ⟨_, rfl, Agree.subtractNode ?_ a c⟩
  exact (((h.setNext b _).setForward c c _ _).setNext c _).setForward a a _ _

theorem entries (h : Agree m m') (l : List Nat) : m'.entries l = m.entries l :=
  entries_congr (fun x _ => h.id x) fun x _ => by rw [h.deltaTime]

theorem walk (h : Agree m m') (n : Nat) (p : Option Nat) : m'.walk n p = m.walk n p := by
  induction n generalizing p with
  | zero => rfl
  | succ n ih =>
      cases p with
      | none => rfl
      | some a =>
          unfold Heap.walk
          rw [h.next, ih]

theorem findTimenode (h : Agree m m') (id : Int) (n : Nat) (p : Option Nat) :
    findTimenode m' id n p = findTimenode m id n p := by
  induction n generalizing p with
  | zero =>
      cases p with
      | none => rfl
      | some a => rfl
  | succ n ih =>
      cases p with
      | none => rfl
      | some a =>
          unfold Cse5462.findTimenode
          rw [h.id, h.next, ih]

/-- The loop of `add_timenode` does the same on both heaps if they point back to
    the same node from the one before which it puts the new node, which is the
    first that the new time does not reach. -/
theorem addLoop (h : Agree m m') (hl : m'.Links p l) (hc : c ∉ l)
    (hfits : m.CarriesFit (m c).deltaTime l)
    (hfwd : ∀ a vs, l = m.reached (m c).deltaTime l ++ a :: vs →
      (m a).forward = (m' a).forward) {r' : Heap} (hr : addLoop c n m' p = some r') :
    ∃ r, Cse5462.addLoop c n m p = some r ∧ Agree r r' := by
  -- Induction on the nodes ahead.
  induction l generalizing n m m' p with
  | nil =>
      have hp : p = none := hl.head_eq
      subst hp
      unfold Cse5462.addLoop at hr ⊢
      cases hr
      exact ⟨m, rfl, h⟩
  | cons a l ih =>
      have hp : p = some a := hl.head_eq
      subst hp
      cases n with
      | zero =>
          unfold Cse5462.addLoop at hr
          cases hr
      | succ n =>
          have hcl := hc
          rw [List.mem_cons, not_or] at hc
          have hfirst : CarryFits (m' c).deltaTime (m' a).deltaTime := by
            rw [h.deltaTime, h.deltaTime]
            exact hfits.1
          rcases h.compareNodes c a with ⟨hagree, hneg'⟩
          rw [addLoop_succ n hc.1 hfirst] at hr
          rw [addLoop_succ n hc.1 hfits.1]
          rw [hneg', h.next] at hr
          rw [Heap.reached_cons] at hfwd
          cases hneg : (Cse5462.compareNodes m c a).2 with
          | true =>
              have hsub : (timevalSubtract (m c).deltaTime (m a).deltaTime).negative = true := hneg
              rw [hneg, if_pos rfl] at hr
              rw [hsub, if_pos rfl] at hfwd
              rw [if_pos rfl]
              refine hagree.addBefore ?_ hr
              unfold Cse5462.compareNodes
              rw [Heap.setDelta_forward, Heap.setDelta_forward]
              exact hfwd a l rfl
          | false =>
              have hsub : (timevalSubtract (m c).deltaTime (m a).deltaTime).negative = false :=
                hneg
              rw [hneg, if_neg Bool.false_ne_true] at hr
              rw [hsub, if_neg Bool.false_ne_true] at hfwd
              rw [if_neg Bool.false_ne_true]
              cases hnext : (m a).next with
              | none =>
                  rw [hnext] at hr
                  cases hr
                  exact ⟨_, rfl, hagree.addAtEnd c a⟩
              | some b =>
                  rw [hnext] at hr
                  have hl' := (passed_node (a := a) hl hcl hc.1 hfirst rfl).1.tail
                  rw [subtractNode_next, (compareNodes_links m' c a).next, h.next, hnext] at hl'
                  -- What is left of the new time, and the nodes that it reaches.
                  have hleft : (Cse5462.subtractNode (Cse5462.compareNodes m c a).1 c a c).deltaTime
                      = timeLeft (m c).deltaTime (m a).deltaTime := by
                    rw [subtractNode_result, compareNodes_frame m c a hc.1, compareNodes_deltaTime]
                    rfl
                  have hsame : ∀ x ∈ l, (Cse5462.subtractNode (Cse5462.compareNodes m c a).1 c a
                      x).deltaTime = (m x).deltaTime := fun x hx => by
                    have hxc : x ≠ c := fun heq => hc.2 (heq ▸ hx)
                    have hxa : x ≠ a := fun heq => (List.nodup_cons.mp hl.nodup).1 (heq ▸ hx)
                    rw [subtractNode_frame _ c a hxc hxa, compareNodes_frame m c a hxa]
                  refine ih (hagree.subtractNode c a) hl' hc.2 ?_ (fun x vs hx => ?_) hr
                  · rw [hleft, carriesFit_congr hsame]
                    exact hfits.2 hneg
                  · rw [hleft, Heap.reached_congr hsame] at hx
                    rw [subtractNode_forward, subtractNode_forward,
                      (compareNodes_links m c a).forward, (compareNodes_links m' c a).forward]
                    exact hfwd x vs (congrArg (a :: ·) hx)

/-- A node is taken out at the same place. Only `tcpd.c` sets the pointer back
    of the node behind. -/
theorem unlink (h : Agree m m') (hfwd : (m a).forward = (m' a).forward) {r' : Heap}
    (hr : unlink m' a = some r') : ∃ r, Timmer.unlink m a = some r ∧ Agree r r' := by
  unfold Cse5462.unlink at hr
  unfold Timmer.unlink
  rw [hfwd]
  rcases Option.map_eq_some_iff.mp hr with ⟨b, hb, rfl⟩
  rw [hb, Option.map_some]
  refine ⟨_, rfl, ?_⟩
  have hagree := h.setNext b (m a).next
  simp only [Heap.setNext_next, ite_self, h.next]
  cases hnext : (m a).next with
  | none =>
      rw [hnext] at hagree
      exact hagree
  | some y =>
      rw [hnext] at hagree
      have hset := hagree.setForward_right y (m'.setNext b (some y) a).forward
      dsimp only
      rw [hset.deltaTime, hset.deltaTime]
      exact hset.setDelta y _

/-- The loop of `delete_timenode` does the same if both heaps point back to the
    same node from the one with the id. -/
theorem deleteLoop {id : Int} (h : Agree m m') (hl : m'.Links p l)
    (hfwd : ∀ a ∈ l, (m a).id = id → (m a).forward = (m' a).forward) {r' : Heap}
    (hr : deleteLoop id n m' p = some r') :
    ∃ r, Timmer.deleteLoop id n m p = some r ∧ Agree r r' := by
  induction l generalizing n p with
  | nil =>
      have hp : p = none := hl.head_eq
      subst hp
      unfold Cse5462.deleteLoop at hr
      unfold Timmer.deleteLoop
      cases hr
      exact ⟨m, rfl, h⟩
  | cons a l ih =>
      have hp : p = some a := hl.head_eq
      subst hp
      cases n with
      | zero =>
          unfold Cse5462.deleteLoop at hr
          cases hr
      | succ n =>
          unfold Cse5462.deleteLoop at hr
          unfold Timmer.deleteLoop
          rw [h.id, h.next] at hr
          have htail := hl.tail
          rw [h.next] at htail
          by_cases hid : (m a).id = id
          · rw [if_pos hid] at hr ⊢
            exact h.unlink (hfwd a List.mem_cons_self hid) hr
          · rw [if_neg hid] at hr ⊢
            exact ih htail (fun x hx => hfwd x (List.mem_cons_of_mem _ hx)) hr

/-- Printing does the same on both heaps. -/
theorem printLoop (h : Agree m m') {r' : Heap} (hr : Timmer.printLoop n m' p = some r') :
    ∃ r, Timmer.printLoop n m p = some r ∧ Agree r r' := by
  induction n generalizing m m' p with
  | zero =>
      cases p with
      | none =>
          cases hr
          exact ⟨m, rfl, h⟩
      | some a => cases hr
  | succ n ih =>
      cases p with
      | none =>
          cases hr
          exact ⟨m, rfl, h⟩
      | some a =>
          unfold Timmer.printLoop at hr ⊢
          rw [h.deltaTime, h.next] at hr
          exact ih (h.setDelta a _) hr

/-- The loop of `update_time_list` reads no pointers back. -/
theorem expireLoop (h : Agree m m') {d : Timeval} {e' : Expiry}
    (he : expireLoop n m' d p = some e') :
    ∃ e, Cse5462.expireLoop n m d p = some e ∧ Agree e.cell e'.cell ∧ e'.dtime = e.dtime ∧
      e'.head = e.head ∧ e'.ids = e.ids := by
  induction n generalizing m m' d p e' with
  | zero =>
      cases p with
      | none =>
          unfold Cse5462.expireLoop at he ⊢
          cases he
          exact ⟨_, rfl, h, rfl, rfl, rfl⟩
      | some a =>
          unfold Cse5462.expireLoop at he
          cases he
  | succ n ih =>
      cases p with
      | none =>
          unfold Cse5462.expireLoop at he ⊢
          cases he
          exact ⟨_, rfl, h, rfl, rfl, rfl⟩
      | some a =>
          rw [expireLoop_succ] at he ⊢
          rw [h.deltaTime, h.next, h.id] at he
          split at he
          · rename_i hneg
            cases he
            rw [if_pos hneg]
            exact ⟨_, rfl, h.setDelta a _, rfl, rfl, rfl⟩
          · rename_i hneg
            rw [if_neg hneg]
            rcases Option.map_eq_some_iff.mp he with ⟨e1', he1', rfl⟩
            rcases ih (h.setDelta a _) he1' with ⟨e1, he1, hagree, hd, hhead, hids⟩
            rw [he1, Option.map_some]
            exact ⟨_, rfl, hagree, hd, hhead, congrArg ((m a).id :: ·) hids⟩

end Agree

/-- The first comparison with the head does not change what is reached. -/
theorem reached_compared {m : Heap} {vs : List Nat} {a c : Nat} (ha : a ∉ vs)
    (hfits : CarryFits (m c).deltaTime (m a).deltaTime) :
    (compareNodes m c a).1.reached (m c).deltaTime (a :: vs)
      = m.reached (m c).deltaTime (a :: vs) := by
  have hagain : timevalSubtract (m c).deltaTime (carry (m c).deltaTime (m a).deltaTime)
      = timevalSubtract (m c).deltaTime (m a).deltaTime := timevalSubtract_again hfits
  have hrest : ∀ x ∈ vs, ((compareNodes m c a).1 x).deltaTime = (m x).deltaTime := fun x hx =>
    compareNodes_frame m c a fun heq => ha (heq ▸ hx)
  rw [Heap.reached_cons, Heap.reached_cons, compareNodes_deltaTime, timeLeft_eq hfits.carry, hagain,
    ← timeLeft_eq hfits, Heap.reached_congr hrest]

/-- The pointer back that the loop of `add_timenode` reads is the one that the
    mended heap has, if it is that of the first node that the new time does not
    reach. The comparison with the head, which is reached, has come before. -/
theorem forward_read {m m' : Heap} {p : Option Nat} {vs : List Nat} {a c : Nat}
    (hl : m'.Links p (a :: vs)) (hc : c ∉ a :: vs)
    (hfits : CarryFits (m c).deltaTime (m a).deltaTime) (hneg : (compareNodes m c a).2 = false)
    (hfwd : ∀ us b x ws, a :: vs = us ++ b :: x :: ws →
      m.reached (m c).deltaTime (a :: vs) = us ++ [b] → (m x).forward = some b)
    (x : Nat) (ws : List Nat) (hx : a :: vs = (compareNodes m c a).1.reached
      ((compareNodes m c a).1 c).deltaTime (a :: vs) ++ x :: ws) :
    ((compareNodes m c a).1 x).forward = ((compareNodes m' c a).1 x).forward := by
  have hca : c ≠ a := fun heq => hc (heq ▸ List.mem_cons_self)
  rw [compareNodes_frame m c a hca, reached_compared (List.nodup_cons.mp hl.nodup).1 hfits] at hx
  rw [(compareNodes_links m c a).forward, (compareNodes_links m' c a).forward]
  rcases List.eq_nil_or_concat (m.reached (m c).deltaTime (a :: vs)) with hnil | ⟨us, b, hus⟩
  · -- The head is reached.
    have hsub : (timevalSubtract (m c).deltaTime (m a).deltaTime).negative = false := hneg
    rw [Heap.reached_cons, hsub, if_neg Bool.false_ne_true] at hnil
    cases hnil
  · rw [List.concat_eq_append] at hus
    rw [hus, List.append_assoc, List.singleton_append] at hx
    rw [hx] at hl
    rw [hfwd us b x ws hx hus]
    exact hl.prev_eq.symm

/-- The loop of `delete_timenode` finds nothing if no node has the id. -/
theorem deleteLoop_absent {m : Heap} {p : Option Nat} {l : List Nat} {n : Nat} {id : Int}
    (hl : m.Links p l) (hn : l.length ≤ n) (hid : ∀ x ∈ l, (m x).id ≠ id) :
    deleteLoop id n m p = some m := by
  induction l generalizing n p with
  | nil =>
      have hp : p = none := hl.head_eq
      subst hp
      unfold deleteLoop
      rfl
  | cons a l ih =>
      have hp : p = some a := hl.head_eq
      subst hp
      cases n with
      | zero => exact absurd hn (Nat.not_succ_le_zero _)
      | succ n =>
          unfold deleteLoop
          rw [if_neg (hid a List.mem_cons_self)]
          exact ih hl.tail (Nat.le_of_succ_le_succ hn) fun x hx =>
            hid x (List.mem_cons_of_mem _ hx)

/-- `t'` is the list `t` with some pointers back put right. -/
structure Mended (t t' : TimerList) : Prop where
  cell : Agree t.cell t'.cell
  brk : t'.brk = t.brk
  head : t'.head = t.head
  lasttime : t'.lasttime = t.lasttime

namespace Mended

variable {t t' v : TimerList} {l : List Nat} {id : Int}

theorem nodes (h : Mended t t') : t.nodes = t'.nodes := by
  unfold TimerList.nodes
  rw [h.brk, h.head, h.cell.walk]

theorem remaining (h : Mended t t') : t.remaining = t'.remaining := by
  unfold TimerList.remaining
  rw [h.nodes, h.cell.entries]

/-- Printing a list does not change what it stands for. -/
theorem printTimeList (h : Mended t t') (hl : t'.Linked l) :
    ∃ u u', Timmer.printTimeList t = some u ∧ Mended u u' ∧ u'.Linked l ∧
      u'.remaining = t'.remaining := by
  rcases Timmer.printLoop_spec l t'.brk t'.cell t'.head hl.links hl.length_le with
    ⟨m', hm', hsame⟩
  rw [h.brk, h.head] at hm'
  rcases h.cell.printLoop hm' with ⟨m, hm, hagree⟩
  have hl' := hl.of_same hsame.toSameLinks
  unfold Timmer.printTimeList
  rw [hm, Option.map_some]
  refine ⟨_, { t' with cell := m' }, rfl, ⟨hagree, h.brk, h.head, h.lasttime⟩, hl', ?_⟩
  rw [hl'.remaining_eq, hl.remaining_eq]
  exact congrArg _ hsame.entries

/-- A timer for an id that is in the list is dropped. -/
theorem addTimenode_present (h : Mended t t') (hl : t'.Linked l) (hid : id ∈ t'.cell.ids l)
    (dtime : ℚ≥0) (now : Timeval) : Timmer.addTimenode t id dtime now = some t := by
  have hfind := hl.find id
  rw [h.brk, h.head, h.cell.findTimenode, decide_eq_true hid] at hfind
  unfold Timmer.addTimenode
  rw [hfind]
  rfl

/-- `add_timenode` of a new id, with the list empty or not. -/
theorem addTimenode_eq (h : Mended t t') (hl : t'.Linked l) (hid : id ∉ t'.cell.ids l)
    (dtime : ℚ≥0) (now : Timeval) : Timmer.addTimenode t id dtime now = match t.head with
      | none => some { cell := t.malloc id dtime, brk := t.brk + 1, head := some t.brk,
                       lasttime := now }
      | some a =>
          if (compareNodes (t.malloc id dtime) t.brk a).2 then
            Timmer.printTimeList
              { t with cell := addAtFirst (compareNodes (t.malloc id dtime) t.brk a).1 t.brk a
                       brk := t.brk + 1, head := some t.brk }
          else
            (addLoop t.brk (t.brk + 2 ^ 64) (compareNodes (t.malloc id dtime) t.brk a).1
              (some a)).bind fun m => Timmer.printTimeList { t with cell := m, brk := t.brk + 1 } := by
  have hfind := hl.find id
  rw [h.brk, h.head, h.cell.findTimenode, decide_eq_false hid] at hfind
  unfold Timmer.addTimenode
  rw [hfind, Option.bind_some, if_neg Bool.false_ne_true]
  rfl

/-- A timer for a new id is added to the list and to the mended one. -/
theorem addTimenode (h : Mended t t') (hl : t'.Linked l) (hid : id ∉ t'.cell.ids l) (dtime : ℚ≥0)
    (now : Timeval) (hfits : t.cell.CarriesFit (Timeval.ofSeconds dtime) l)
    (hfwd : ∀ us b a vs, l = us ++ b :: a :: vs →
      t.cell.reached (Timeval.ofSeconds dtime) l = us ++ [b] → (t.cell a).forward = some b)
    (hv : t'.addTimenode id dtime now = some v) (hvl : v.Linked v.nodes) :
    ∃ u u', Timmer.addTimenode t id dtime now = some u ∧ Mended u u' ∧ u'.Linked v.nodes ∧
      u'.remaining = v.remaining := by
  rcases TimerList.malloc_spec hl id dtime with ⟨-, -, hne, hc, hlinks⟩
  rw [TimerList.addTimenode_eq hl hid] at hv
  rw [h.addTimenode_eq hl hid]
  have hagree : Agree (t.malloc id dtime) (t'.malloc id dtime) := by
    unfold TimerList.malloc
    rw [h.brk]
    exact h.cell.update t.brk _
  have hnode : (t.malloc id dtime t.brk).deltaTime = Timeval.ofSeconds dtime := by
    unfold TimerList.malloc
    rw [Function.update_self]
    rfl
  -- The old nodes are as they were.
  have hold : ∀ x ∈ l, t.malloc id dtime x = t.cell x := fun x hx => by
    unfold TimerList.malloc
    rw [Function.update_of_ne (h.brk ▸ hne x hx)]
  have hsame : ∀ x ∈ l, (t.malloc id dtime x).deltaTime = (t.cell x).deltaTime := fun x hx => by
    rw [hold x hx]
  rw [← carriesFit_congr hsame, ← hnode] at hfits
  rw [← Heap.reached_congr hsame, ← hnode] at hfwd
  rw [h.brk] at hc hv
  rw [h.head] at hlinks hv
  cases hhead : t.head with
  | none =>
      -- The first timer is not printed.
      rw [hhead] at hv
      cases hv
      exact ⟨_, ⟨t'.malloc id dtime, t.brk + 1, some t.brk, now⟩, rfl, ⟨hagree, rfl, rfl, rfl⟩,
        hvl, rfl⟩
  | some a =>
      rw [hhead] at hlinks hv
      rcases hlinks.exists_cons with ⟨vs, rfl⟩
      have hca : t.brk ≠ a := fun heq => hc (heq ▸ List.mem_cons_self)
      rcases hagree.compareNodes t.brk a with ⟨hagree1, hneg'⟩
      dsimp only at hv ⊢
      rw [hneg'] at hv
      cases hneg : (Cse5462.compareNodes (t.malloc id dtime) t.brk a).2 with
      | true =>
          rw [hneg, if_pos rfl] at hv
          rw [if_pos rfl]
          cases hv
          exact printTimeList ⟨hagree1.addAtFirst t.brk a, rfl, rfl, h.lasttime⟩ hvl
      | false =>
          rw [hneg, if_neg Bool.false_ne_true] at hv
          rw [if_neg Bool.false_ne_true]
          rcases Option.map_eq_some_iff.mp hv with ⟨m', hm', rfl⟩
          have hav := (List.nodup_cons.mp hlinks.nodup).1
          have hread := forward_read hlinks hc hfits.1 hneg fun us b x ws hsplit hreach => by
            rw [hold x (hsplit ▸ List.mem_append_right _
              (List.mem_cons_of_mem _ List.mem_cons_self))]
            exact hfwd us b x ws hsplit hreach
          rcases hagree1.addLoop ((compareNodes_links _ t.brk a).links hlinks) hc
            (by rw [compareNodes_frame _ t.brk a hca]; exact carriesFit_compared hav hfits)
            hread hm' with ⟨m, hm, hagree2⟩
          rw [hm, Option.bind_some]
          exact printTimeList ⟨hagree2, rfl, rfl, h.lasttime⟩ hvl

/-- A timer taken out of the list and of the mended one. -/
theorem deleteTimenode (h : Mended t t') (hl : t'.Linked l) (hne : l ≠ [])
    (hfwd : ∀ us b a vs, l = us ++ b :: a :: vs → (t.cell a).id = id →
      (t.cell a).forward = some b)
    (hv : t'.deleteTimenode id = some v) (hvl : v.Linked v.nodes) :
    ∃ u u', Timmer.deleteTimenode t id = some u ∧ Mended u u' ∧ u'.Linked v.nodes ∧
      u'.remaining = v.remaining := by
  have hhead : t'.head = l.head? := hl.links.head_eq
  unfold TimerList.deleteTimenode at hv
  unfold Timmer.deleteTimenode
  rw [hl.find, Option.bind_some] at hv
  cases l with
  | nil => exact absurd rfl hne
  | cons a vs =>
      rw [hhead, List.head?_cons] at hv
      rw [← h.head, hhead, List.head?_cons]
      dsimp only at hv ⊢
      rw [h.cell.id, h.cell.next, h.cell.deltaTime, h.brk] at hv
      have hkey : ∀ x ∈ a :: vs, (t.cell x).id = id →
          id ∈ t'.cell.ids (a :: vs) := fun x hx hxid =>
        mem_ids.mpr ⟨x, hx, (h.cell.id x).trans hxid⟩
      by_cases hid : (t.cell a).id = id
      · rw [decide_eq_true (hkey a List.mem_cons_self hid), if_neg Bool.noConfusion,
          if_pos hid] at hv
        rw [if_pos hid]
        cases hnext : (t.cell a).next with
        | none =>
            rw [hnext] at hv
            cases hv
            exact printTimeList ⟨h.cell, rfl, rfl, h.lasttime⟩ hvl
        | some b =>
            rw [hnext] at hv
            dsimp only at hv ⊢
            rw [h.cell.deltaTime] at hv
            cases hv
            exact printTimeList ⟨h.cell.setDelta b _, rfl, rfl, h.lasttime⟩ hvl
      · rw [if_neg hid] at hv ⊢
        have hlinks := hl.links
        rw [hhead, List.head?_cons] at hlinks
        -- The pointers back that the loop may read are right.
        have hloop : ∀ m', Cse5462.deleteLoop id t.brk t'.cell (some a) = some m' →
            ∃ m, Timmer.deleteLoop id t.brk t.cell (some a) = some m ∧ Agree m m' :=
          fun m' hm' => h.cell.deleteLoop hlinks (fun x hx hxid => by
            have hxvs : x ∈ vs := (List.mem_cons.mp hx).resolve_left fun heq => hid (heq ▸ hxid)
            rcases List.append_of_mem hxvs with ⟨us, ws, rfl⟩
            rcases List.eq_nil_or_concat (a :: us) with hnil | ⟨us', b, hus⟩
            · cases hnil
            · rw [List.concat_eq_append] at hus
              have hsplit : a :: (us ++ x :: ws) = us' ++ b :: x :: ws := by
                rw [← List.cons_append, hus, List.append_assoc, List.singleton_append]
              rw [hsplit] at hlinks
              rw [hfwd us' b x ws hsplit hxid]
              exact hlinks.prev_eq.symm) hm'
        by_cases hmem : id ∈ t'.cell.ids (a :: vs)
        · rw [decide_eq_true hmem, if_neg Bool.noConfusion] at hv
          rcases Option.map_eq_some_iff.mp hv with ⟨m', hm', rfl⟩
          rcases hloop m' hm' with ⟨m, hm, hagree⟩
          rw [hm, Option.bind_some]
          exact printTimeList ⟨hagree, rfl, rfl, h.lasttime⟩ hvl
        · -- The loop comes to the end of the list.
          rw [decide_eq_false hmem, if_pos rfl] at hv
          cases hv
          have habsent : Cse5462.deleteLoop id t.brk t'.cell (some a) = some t'.cell :=
            deleteLoop_absent hlinks (h.brk ▸ hl.length_le) fun x hx hxid =>
              hmem (hkey x hx ((h.cell.id x).symm.trans hxid))
          rcases hloop _ habsent with ⟨m, hm, hagree⟩
          rw [hm, Option.bind_some]
          exact printTimeList ⟨hagree, h.brk, hhead, h.lasttime⟩ hvl

/-- The passing of time on the list and on the mended one. -/
theorem updateTimeList (h : Mended t t') (now : Timeval) {ids : List Int}
    (hv : t'.updateTimeList now = some (v, ids)) :
    ∃ u, Timmer.updateTimeList t now = some u ∧ Mended u v := by
  have hpassed : t'.passed now = t.passed now := by
    unfold TimerList.passed
    rw [h.lasttime]
  unfold TimerList.updateTimeList at hv
  rw [h.brk, h.head, hpassed] at hv
  rcases Option.map_eq_some_iff.mp hv with ⟨e', he', heq⟩
  rcases h.cell.expireLoop he' with ⟨e, he, hagree, hd, hhead, _⟩
  unfold Timmer.updateTimeList TimerList.updateTimeList
  rw [he, Option.map_some, Option.map_some]
  rw [hhead] at heq
  cases hnext : e.head with
  | none =>
      rw [hnext] at heq
      cases heq
      exact ⟨_, rfl, hagree, rfl, rfl, rfl⟩
  | some a =>
      rw [hnext] at heq
      cases heq
      refine ⟨_, rfl, ?_, rfl, rfl, rfl⟩
      dsimp only
      rw [hagree.deltaTime, hd]
      exact hagree.setDelta a _

end Mended

end Cse5462
