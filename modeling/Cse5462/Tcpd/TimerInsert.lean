import Cse5462.Lib.DeltaList
import Cse5462.Lib.DoublyLinked
import Cse5462.Tcpd.TimerList

/-!
# Searching and Inserting

What `find_timenode` and `add_timenode` do to the list of nodes that the heap
holds. The list is given by its addresses, and `Heap.entries` reads the ids and
the differences off them, as a delta list.

The loop of `add_timenode` walks along the list and takes the difference of
each node it passes off the interval of the new node. What it keeps, as long as
all carries fit, is that this difference is the interval less the offset of the
last node passed, and not negative. It puts the new node before another one only
behind the first node, where `forward` is the predecessor, because the comparison
with the head has been made before the loop and comes out the same in it.

## Main definitions

* `Heap.Links`: A pointer leads through a list of nodes.
* `Heap.ids`, `Heap.entries`: The ids and the differences of a list of nodes.
* `timeLeft`: What is left of a time behind a node.
* `Heap.CarriesFit`: All carries fit on the way through a list.
* `Inserted`: A node has been put into a list at an offset.

## Theorems

* `findTimenode_eq`: The search finds the ids of the list.
* `addAtEnd_links`, `addBefore_links`, `addAtFirst_links`: The three ways in which
  a node is linked in.
* `addLoop_inserted`: The loop puts the node in at its offset.
-/

namespace Cse5462

open DeltaList

/-- The pointer `p` leads through the nodes `l`. -/
def Heap.Links (m : Heap) (p : Option Nat) (l : List Nat) : Prop :=
  DoublyLinked (fun a => (m a).next) (fun a => (m a).forward) p l

/-- The ids of a list of nodes. -/
def Heap.ids (m : Heap) (l : List Nat) : List Int := l.map fun a => (m a).id

/-- The ids of a list of nodes, each with its difference in microseconds. -/
def Heap.entries (m : Heap) (l : List Nat) : List (Int × Int) :=
  l.map fun a => ((m a).id, (m a).deltaTime.value)

/-- What is left of the time `d` when a node has been passed: its difference has
    been compared with the time, and is taken off it. -/
def timeLeft (d delta : Timeval) : Timeval :=
  (timevalSubtractInPlace d (timevalSubtract d delta).y).result

/-- All carries fit when the time `d` is compared with the nodes, one after the
    other, until it does not reach the next. -/
def Heap.CarriesFit (m : Heap) : Timeval → List Nat → Prop
  | _, [] => True
  | d, a :: l => CarryFits d (m a).deltaTime ∧
      ((timevalSubtract d (m a).deltaTime).negative = false →
        m.CarriesFit (timeLeft d (m a).deltaTime) l)

variable {m m' : Heap} {p : Option Nat} {l us vs : List Nat} {a b c : Nat}

instance Heap.decidableCarriesFit (m : Heap) (d : Timeval) (l : List Nat) :
    Decidable (m.CarriesFit d l) :=
  match l with
  | [] => isTrue trivial
  | a :: l =>
      have := Heap.decidableCarriesFit m (timeLeft d (m a).deltaTime) l
      inferInstanceAs (Decidable (_ ∧ (_ → _)))

/-- The carries depend on the differences of the nodes only. -/
theorem carriesFit_congr {d : Timeval} (h : ∀ x ∈ l, (m' x).deltaTime = (m x).deltaTime) :
    m'.CarriesFit d l ↔ m.CarriesFit d l := by
  induction l generalizing d with
  | nil => exact Iff.rfl
  | cons a l ih =>
      unfold Heap.CarriesFit
      rw [h a List.mem_cons_self, ih fun x hx => h x (List.mem_cons_of_mem _ hx)]

/-- Where the carry fits, the time is compared and subtracted in one. -/
theorem timeLeft_eq {d delta : Timeval} (h : CarryFits d delta) :
    timeLeft d delta = (timevalSubtract d delta).result := by
  unfold timeLeft timevalSubtractInPlace timevalSubtract
  dsimp only
  rw [carry_again h]

theorem timeLeft_value {d delta : Timeval} (h : CarryFits d delta) :
    (timeLeft d delta).value = d.value - delta.value := by
  rw [timeLeft_eq h, (timevalSubtract_spec h).1]

theorem entries_append : m.entries (us ++ vs) = m.entries us ++ m.entries vs := List.map_append

theorem entries_cons :
    m.entries (a :: l) = ((m a).id, (m a).deltaTime.value) :: m.entries l := rfl

theorem ids_append : m.ids (us ++ vs) = m.ids us ++ m.ids vs := List.map_append

theorem ids_cons : m.ids (a :: l) = (m a).id :: m.ids l := rfl

theorem keys_entries (m : Heap) (l : List Nat) : (m.entries l).map Prod.fst = m.ids l := by
  unfold Heap.entries Heap.ids
  rw [List.map_map]
  rfl

theorem mem_ids {id : Int} : id ∈ m.ids l ↔ ∃ a ∈ l, (m a).id = id := List.mem_map

theorem ids_congr (hid : ∀ x ∈ l, (m' x).id = (m x).id) : m'.ids l = m.ids l :=
  List.map_congr_left hid

/-- The entries depend on the ids and the differences of the nodes only. -/
theorem entries_congr (hid : ∀ x ∈ l, (m' x).id = (m x).id)
    (hval : ∀ x ∈ l, (m' x).deltaTime.value = (m x).deltaTime.value) :
    m'.entries l = m.entries l :=
  List.map_congr_left fun x hx => by rw [hid x hx, hval x hx]

theorem forall_entries {P : Int → Prop} :
    (∀ e ∈ m.entries l, P e.2) ↔ ∀ x ∈ l, P (m x).deltaTime.value :=
  List.forall_mem_map

theorem SameLinks.links (h : SameLinks m m') (hl : m.Links p l) : m'.Links p l :=
  hl.congr (fun x _ => h.next x) (fun x _ => h.forward x)

theorem SameLinks.ids_eq (h : SameLinks m m') : m'.ids l = m.ids l := ids_congr fun x _ => h.id x

theorem SameList.entries (h : SameList m m') : m'.entries l = m.entries l :=
  entries_congr (fun x _ => h.id x) (fun x _ => h.value x)

/-- The search finds the ids of the list, given a step for every node. -/
theorem findTimenode_eq (id : Int) (n : Nat) (hl : m.Links p l) (hn : l.length ≤ n) :
    findTimenode m id n p = some (decide (id ∈ m.ids l)) := by
  induction l generalizing p n with
  | nil =>
      have hp : p = none := hl.head_eq
      subst hp
      unfold findTimenode
      rfl
  | cons a l ih =>
      have hp : p = some a := hl.head_eq
      subst hp
      cases n with
      | zero => exact absurd hn (Nat.not_succ_le_zero _)
      | succ n =>
          rw [ids_cons]
          unfold findTimenode
          by_cases hid : (m a).id = id
          · rw [if_pos hid, ← hid, decide_eq_true List.mem_cons_self]
          · rw [if_neg hid, ih n hl.tail (Nat.le_of_succ_le_succ hn)]
            congr 1
            simp only [List.mem_cons, Ne.symm hid, false_or]

section Linking

/-- A subtraction depends on the differences only. -/
theorem subtractNode_congr (h : ∀ x, (m' x).deltaTime = (m x).deltaTime) (x y z : Nat) :
    (subtractNode m' x y z).deltaTime = (subtractNode m x y z).deltaTime := by
  unfold subtractNode
  simp only [Heap.setDelta_deltaTime, h]

/-- A node that follows node `b`, at the end of the list. -/
theorem addAtEnd_links (hl : m.Links p (us ++ [b])) (hc : c ∉ us ++ [b])
    (hcn : (m c).next = none) : (addAtEnd m c b).Links p (us ++ b :: [c]) := by
  have hcb : c ≠ b := fun h => hc (h ▸ List.mem_append_right _ List.mem_cons_self)
  have hne : ∀ x ∈ us ++ [b], x ≠ c := fun x hx h => hc (h ▸ hx)
  have hnodup := List.nodup_append'.mp hl.nodup
  unfold addAtEnd
  refine hl.insert_after hc ?_ ?_ ?_ (fun a ha => absurd ha (Option.not_mem_none a))
    (fun x hx => ?_) (fun x hx => ?_)
  · simp only [Heap.setForward_next, Heap.setNext_next, if_true]
  · simp only [Heap.setForward_next, Heap.setNext_next, if_neg hcb, subtractNode_next, hcn,
      List.head?_nil]
  · simp only [Heap.setForward_forward, if_true]
  · rw [List.append_nil] at hx
    have hxb : x ≠ b := fun h => hnodup.2.2 hx (h ▸ List.mem_cons_self)
    simp only [Heap.setForward_next, Heap.setNext_next, if_neg hxb, subtractNode_next]
  · simp only [Heap.setForward_forward, if_neg (hne x hx), Heap.setNext_forward,
      subtractNode_forward]

theorem addAtEnd_id (x : Nat) : (addAtEnd m c b x).id = (m x).id := by
  unfold addAtEnd
  rw [Heap.setForward_id, Heap.setNext_id, subtractNode_id]

theorem addAtEnd_deltaTime (x : Nat) :
    (addAtEnd m c b x).deltaTime = (subtractNode m c b x).deltaTime := by
  unfold addAtEnd
  rw [Heap.setForward_deltaTime, Heap.setNext_deltaTime]

theorem addAtEnd_forward {x : Nat} (hx : x ≠ c) :
    (addAtEnd m c b x).forward = (m x).forward := by
  unfold addAtEnd
  rw [Heap.setForward_forward, if_neg hx, Heap.setNext_forward, subtractNode_forward]

/-- Where node `c` is put, node `a` gives up its difference, and only these two
    point back to another node. -/
theorem addBefore_spec (h : addBefore m c a = some m') :
    (∀ x, (m' x).id = (m x).id) ∧
      (∀ x, (m' x).deltaTime = (subtractNode m a c x).deltaTime) ∧
      ∀ x, x ≠ c → (m' x).forward = if x = a then some c else (m x).forward := by
  unfold addBefore at h
  rcases Option.map_eq_some_iff.mp h with ⟨q, -, rfl⟩
  refine ⟨fun x => ?_, fun x => subtractNode_congr (fun y => ?_) a c x, fun x hx => ?_⟩
  · simp only [subtractNode_id, Heap.setForward_id, Heap.setNext_id]
  · simp only [Heap.setForward_deltaTime, Heap.setNext_deltaTime]
  · simp only [subtractNode_forward, Heap.setForward_forward, Heap.setNext_forward, if_neg hx]

/-- A node that goes before node `a`, behind the first node of the list. -/
theorem addBefore_links (hl : m.Links p (us ++ b :: a :: vs)) (hc : c ∉ us ++ b :: a :: vs) :
    ∃ m', addBefore m c a = some m' ∧ m'.Links p (us ++ b :: c :: a :: vs) := by
  -- The node before is found through `forward`.
  have hfwd : (m a).forward = some b := hl.prev_eq
  have hca : c ≠ a := fun h =>
    hc (h ▸ List.mem_append_right _ (List.mem_cons_of_mem _ List.mem_cons_self))
  have hcb : c ≠ b := fun h => hc (h ▸ List.mem_append_right _ List.mem_cons_self)
  have hcm : ∀ x ∈ us ++ b :: a :: vs, x ≠ c := fun x hx h => hc (h ▸ hx)
  rcases List.nodup_append'.mp hl.nodup with ⟨_, hrest, hdisj⟩
  have hba : b ≠ a := fun h => (List.nodup_cons.mp hrest).1 (h ▸ List.mem_cons_self)
  unfold addBefore
  rw [hfwd, Option.map_some]
  refine ⟨_, rfl, ?_⟩
  -- The pointers of the nodes around the new one, and of all others.
  refine hl.insert_after hc ?_ ?_ ?_ (fun y hy => ?_) (fun x hx => ?_) (fun x hx => ?_)
  · simp only [subtractNode_next, Heap.setForward_next, Heap.setNext_next, if_neg hcb.symm,
      if_true]
  · simp only [subtractNode_next, Heap.setForward_next, Heap.setNext_next, if_true,
      List.head?_cons]
  · simp only [subtractNode_forward, Heap.setForward_forward, Heap.setNext_forward,
      if_neg hca, if_true, hfwd]
  · rw [List.head?_cons, Option.mem_some_iff] at hy
    subst hy
    simp only [subtractNode_forward, Heap.setForward_forward, if_true]
  · have hxc : x ≠ c := hcm x (by
      rcases List.mem_append.mp hx with hx | hx
      · exact List.mem_append_left _ hx
      · exact List.mem_append_right _ (List.mem_cons_of_mem _ hx))
    have hxb : x ≠ b := by
      rintro rfl
      rcases List.mem_append.mp hx with hx | hx
      · exact hdisj hx List.mem_cons_self
      · exact (List.nodup_cons.mp hrest).1 hx
    simp only [subtractNode_next, Heap.setForward_next, Heap.setNext_next, if_neg hxc,
      if_neg hxb]
  · have hxa : x ≠ a := by
      rintro rfl
      rcases List.mem_append.mp hx with hx | hx
      · exact hdisj hx (List.mem_cons_of_mem _ List.mem_cons_self)
      · rcases List.mem_cons.mp hx with rfl | hx
        · exact hba rfl
        · exact (List.nodup_cons.mp (List.nodup_cons.mp hrest).2).1 hx
    have hxc : x ≠ c := hcm x (by
      rcases List.mem_append.mp hx with hx | hx
      · exact List.mem_append_left _ hx
      · rcases List.mem_cons.mp hx with rfl | hx
        · exact List.mem_append_right _ List.mem_cons_self
        · exact List.mem_append_right _
            (List.mem_cons_of_mem _ (List.mem_cons_of_mem _ hx)))
    simp only [subtractNode_forward, Heap.setForward_forward, Heap.setNext_forward,
      if_neg hxa, if_neg hxc]

/-- A node that goes before the head of the list. -/
theorem addAtFirst_links (hl : m.Links (some a) (a :: vs)) (hc : c ∉ a :: vs) :
    (addAtFirst m c a).Links (some c) (c :: a :: vs) := by
  have hav := (List.nodup_cons.mp hl.nodup).1
  unfold addAtFirst
  -- The list goes on as before behind the new node.
  refine DoublyLinked.cons ?_ hc (fun y hy => ?_)
  · simp only [subtractNode_next, Heap.setForward_next, Heap.setNext_next, if_true]
    refine hl.congr (fun x hx => ?_) (fun x hx => ?_)
    · have hxc : x ≠ c := fun h => hc (h ▸ hx)
      simp only [if_neg hxc]
    · have hxa : x ≠ a := fun h => hav (h ▸ hx)
      simp only [subtractNode_forward, Heap.setForward_forward, Heap.setNext_forward,
        if_neg hxa]
  · rw [List.head?_cons, Option.mem_some_iff] at hy
    subst hy
    simp only [subtractNode_forward, Heap.setForward_forward, if_true]

theorem addAtFirst_id (x : Nat) : (addAtFirst m c a x).id = (m x).id := by
  unfold addAtFirst
  simp only [subtractNode_id, Heap.setForward_id, Heap.setNext_id]

theorem addAtFirst_deltaTime (x : Nat) :
    (addAtFirst m c a x).deltaTime = (subtractNode m a c x).deltaTime := by
  unfold addAtFirst
  refine subtractNode_congr (fun y => ?_) a c x
  simp only [Heap.setForward_deltaTime, Heap.setNext_deltaTime]

theorem addAtFirst_forward {x : Nat} (hx : x ≠ a) :
    (addAtFirst m c a x).forward = (m x).forward := by
  unfold addAtFirst
  simp only [subtractNode_forward, Heap.setForward_forward, if_neg hx, Heap.setNext_forward]

end Linking

/-- Node `c` of heap `m` has been put at offset `d` into the list `l`, giving
    its own difference up at the next node. Behind a node its difference is not
    negative, and it is not greater than that of the next node. -/
def Inserted (m m' : Heap) (p : Option Nat) (l : List Nat) (c : Nat) (d : Int) : Prop :=
  ∃ us vs, l = us ++ vs ∧ m'.Links p (us ++ c :: vs) ∧
    m'.entries (us ++ c :: vs) = m.entries us ++ ((m c).id, d - total (m.entries us)) ::
      advance (d - total (m.entries us)) (m.entries vs) ∧
    (us ≠ [] → 0 ≤ d - total (m.entries us)) ∧
    ∀ e ∈ (m.entries vs).head?, d - total (m.entries us) ≤ e.2

/-- A carried operand and the one it has been carried for, the other way round. -/
theorem carryFits_carried {x y : Timeval} (h : CarryFits x y) : CarryFits (carry x y) x := by
  have := carry_usec h
  unfold CarryFits
  omega

section Inserting

/-- Node `a` has been compared with node `c`, and they are compared again. -/
theorem carryFits_compared (hca : c ≠ a) (h : CarryFits (m c).deltaTime (m a).deltaTime) :
    CarryFits ((compareNodes m c a).1 c).deltaTime ((compareNodes m c a).1 a).deltaTime ∧
      CarryFits ((compareNodes m c a).1 a).deltaTime ((compareNodes m c a).1 c).deltaTime := by
  rw [compareNodes_frame m c a hca, compareNodes_deltaTime]
  exact ⟨h.carry, carryFits_carried h⟩

/-- All carries still fit when the first comparison has been made. -/
theorem carriesFit_compared (ha : a ∉ vs)
    (h : m.CarriesFit (m c).deltaTime (a :: vs)) :
    (compareNodes m c a).1.CarriesFit (m c).deltaTime (a :: vs) := by
  have hagain : timevalSubtract (m c).deltaTime (carry (m c).deltaTime (m a).deltaTime)
      = timevalSubtract (m c).deltaTime (m a).deltaTime := timevalSubtract_again h.1
  have hrest : ∀ x ∈ vs, ((compareNodes m c a).1 x).deltaTime = (m x).deltaTime := fun x hx =>
    compareNodes_frame m c a fun heq => ha (heq ▸ hx)
  unfold Heap.CarriesFit at h ⊢
  rw [compareNodes_deltaTime, hagain, timeLeft_eq h.1.carry, hagain, ← timeLeft_eq h.1,
    carriesFit_congr hrest]
  exact ⟨h.1.carry, h.2⟩

/-- The entries after node `c` has been put at the end, behind node `b`. -/
theorem addAtEnd_inserted (d : Int) (hl : m.Links p (us ++ [b])) (hc : c ∉ us ++ [b])
    (hcn : (m c).next = none) (hval : (m c).deltaTime.value = d - total (m.entries us))
    (hfits : CarryFits (m c).deltaTime (m b).deltaTime)
    (hle : (m b).deltaTime.value ≤ (m c).deltaTime.value) :
    Inserted m (addAtEnd m c b) p (us ++ [b]) c d := by
  have hne : ∀ x ∈ us ++ [b], x ≠ c := fun x hx h => hc (h ▸ hx)
  have hsplit : us ++ b :: [c] = (us ++ [b]) ++ c :: [] := List.append_cons us b [c]
  have htotal : d - total (m.entries (us ++ [b]))
      = (m c).deltaTime.value - (m b).deltaTime.value := by
    rw [entries_append, total_append, entries_cons, total_cons, hval]
    change d - (_ + (_ + 0)) = _
    omega
  have hvalue : ∀ x, (addAtEnd m c b x).deltaTime.value
      = if x = c then (m c).deltaTime.value - (m b).deltaTime.value
        else (m x).deltaTime.value := fun x => by
    rw [addAtEnd_deltaTime, subtractNode_value hfits]
  refine ⟨us ++ [b], [], (List.append_nil _).symm, hsplit ▸ addAtEnd_links hl hc hcn, ?_,
    fun _ => by rw [htotal]; omega, fun e he => absurd he (Option.not_mem_none e)⟩
  -- The difference of the new node is what is left behind node `b`.
  rw [entries_append, entries_cons, addAtEnd_id, hvalue, if_pos rfl, htotal,
    entries_congr (m := m) (fun x _ => addAtEnd_id x)
      (fun x hx => by rw [hvalue, if_neg (hne x hx)])]
  rfl

/-- The entries after node `c` has been put before node `a`, which gives up
    the difference of the new node. -/
theorem entries_before (d : Int) (hc : c ∉ us ++ a :: vs) (hnodup : (us ++ a :: vs).Nodup)
    (hval : (m c).deltaTime.value = d - total (m.entries us))
    (hfits : CarryFits (m a).deltaTime (m c).deltaTime)
    (hid : ∀ x, (m' x).id = (m x).id)
    (hdelta : ∀ x, (m' x).deltaTime = (subtractNode m a c x).deltaTime) :
    m'.entries (us ++ c :: a :: vs)
        = m.entries us ++ ((m c).id, d - total (m.entries us)) ::
          advance (d - total (m.entries us)) (m.entries (a :: vs)) := by
  have hca : c ≠ a := fun h => hc (h ▸ List.mem_append_right _ List.mem_cons_self)
  rcases List.nodup_append'.mp hnodup with ⟨_, hrest, hdisj⟩
  -- Only node `a` loses a part of its difference.
  have hvalue : ∀ x, (m' x).deltaTime.value
      = if x = a then (m a).deltaTime.value - (m c).deltaTime.value
        else (m x).deltaTime.value := fun x => by rw [hdelta, subtractNode_value hfits]
  have hus : ∀ x ∈ us, x ≠ a := fun x hx h => hdisj hx (h ▸ List.mem_cons_self)
  have hvs : ∀ x ∈ vs, x ≠ a := fun x hx h => (List.nodup_cons.mp hrest).1 (h ▸ hx)
  rw [entries_append, entries_cons, entries_cons, entries_cons, hid, hid, hvalue, hvalue,
    if_neg hca, if_pos rfl, hval,
    entries_congr (m := m) (fun x _ => hid x) (fun x hx => by rw [hvalue, if_neg (hus x hx)]),
    entries_congr (m := m) (fun x _ => hid x) (fun x hx => by rw [hvalue, if_neg (hvs x hx)])]
  rfl

/-- Heaps that agree on the ids and, inside the list, on the differences have
    the same insertions. -/
theorem Inserted.of_agree {m1 : Heap} {d : Int} (h : Inserted m1 m' p l c d)
    (hid : ∀ x, (m1 x).id = (m x).id)
    (hval : ∀ x ∈ l, (m1 x).deltaTime.value = (m x).deltaTime.value) :
    Inserted m m' p l c d := by
  rcases h with ⟨us, vs, rfl, hl, hentries, hpos, hle⟩
  -- Both parts of the list have the same entries.
  have hus : m1.entries us = m.entries us :=
    entries_congr (fun x _ => hid x) (fun x hx => hval x (List.mem_append_left _ hx))
  have hvs : m1.entries vs = m.entries vs :=
    entries_congr (fun x _ => hid x) (fun x hx => hval x (List.mem_append_right _ hx))
  rw [hus, hvs, hid] at hentries
  rw [hus] at hpos hle
  rw [hvs] at hle
  exact ⟨us, vs, rfl, hl, hentries, hpos, hle⟩

/-- What the three tests of the loop come to, since they all make the same
    comparison: before the node, behind it at the end of the list, or on. -/
theorem addLoop_succ (n : Nat) (hca : c ≠ a)
    (hfits : CarryFits (m c).deltaTime (m a).deltaTime) : addLoop c (n + 1) m (some a)
    = if (compareNodes m c a).2 then addBefore (compareNodes m c a).1 c a
      else match (m a).next with
        | none => some (addAtEnd (compareNodes m c a).1 c a)
        | some b => addLoop c n (subtractNode (compareNodes m c a).1 c a) (some b) := by
  -- The second and the third test repeat the comparison of the first.
  have hagain := compareNodes_again hca hfits
  have hsame := compareNodes_links m c a
  rw [addLoop]
  cases hnext : (m a).next with
  | none =>
      cases hneg : (compareNodes m c a).2 with
      | true => simp only [if_true, hneg, hagain, reduceCtorEq, if_false]
      | false => simp only [if_true, hneg, Bool.false_eq_true, if_false]
  | some b =>
      have hnext' : ((compareNodes m c a).1 a).next = some b := (hsame.next a).trans hnext
      cases hneg : (compareNodes m c a).2 with
      | true => simp only [reduceCtorEq, if_false, hneg, if_true]
      | false =>
          simp only [reduceCtorEq, if_false, hneg, Bool.false_eq_true, hnext', ne_eq,
            not_false_eq_true, if_true, hagain, subtractNode_next]

/-- The loop has come to a node that the new one is due before. -/
theorem addBefore_compared (d : Int) (hl : m.Links p (us ++ a :: vs)) (hc : c ∉ us ++ a :: vs)
    (hval : (m c).deltaTime.value = d - total (m.entries us))
    (hfits : CarryFits (m c).deltaTime (m a).deltaTime)
    (hpos : 0 ≤ (m c).deltaTime.value) (hus : us ≠ []) (hneg : (compareNodes m c a).2 = true) :
    ∃ m', addBefore (compareNodes m c a).1 c a = some m' ∧
      Inserted m m' p (us ++ a :: vs) c d := by
  have hca : c ≠ a := fun h => hc (h ▸ List.mem_append_right _ List.mem_cons_self)
  rcases compareNodes_spec hfits with ⟨hsame, hle, _⟩
  have hfits' := (carryFits_compared hca hfits).2
  -- The node before is the last of those passed.
  rcases List.eq_nil_or_concat us with rfl | ⟨ws, b, rfl⟩
  · exact absurd rfl hus
  rw [List.concat_eq_append] at *
  have hsplit : ∀ xs : List Nat, ws ++ [b] ++ xs = ws ++ b :: xs :=
    fun xs => (List.append_cons ws b xs).symm
  have hl' := hsame.links hl
  rw [hsplit] at hl'
  rcases addBefore_links hl' (hsplit _ ▸ hc) with ⟨m', hm', hlinks⟩
  rcases addBefore_spec hm' with ⟨hid, hdelta, -⟩
  have hinserted : Inserted (compareNodes m c a).1 m' p (ws ++ [b] ++ a :: vs) c d := by
    refine ⟨ws ++ [b], a :: vs, rfl, (hsplit _).symm ▸ hlinks, ?_, fun _ => ?_, fun e he => ?_⟩
    · exact entries_before d hc hl.nodup (by rw [hsame.value, hval, hsame.entries]) hfits' hid
        hdelta
    · rw [hsame.entries, ← hval]
      exact hpos
    · rw [entries_cons, List.head?_cons, Option.mem_some_iff] at he
      subst he
      rw [hsame.entries, ← hval]
      dsimp only
      rw [hsame.value]
      exact hle hneg
  exact ⟨m', hm', hinserted.of_agree hsame.id (fun x _ => hsame.value x)⟩

/-- A node that goes before the head of the list. -/
theorem addAtFirst_inserted (hl : m.Links (some a) (a :: vs)) (hc : c ∉ a :: vs)
    (hfits : CarryFits (m a).deltaTime (m c).deltaTime)
    (hle : (m c).deltaTime.value ≤ (m a).deltaTime.value) :
    Inserted m (addAtFirst m c a) (some c) (a :: vs) c (m c).deltaTime.value := by
  have hzero : (m c).deltaTime.value = (m c).deltaTime.value - total (m.entries []) :=
    (sub_zero _).symm
  refine ⟨[], a :: vs, rfl, addAtFirst_links hl hc, ?_, fun h => absurd rfl h, fun e he => ?_⟩
  · exact entries_before _ (show c ∉ [] ++ a :: vs from hc) hl.nodup hzero hfits addAtFirst_id
      addAtFirst_deltaTime
  · rw [entries_cons, List.head?_cons, Option.mem_some_iff] at he
    subst he
    rw [← hzero]
    exact hle

/-- The loop passes node `a`: its difference is taken off that of node `c`, and
    the list is as it was. -/
theorem passed_node (hl : m.Links p l) (hc : c ∉ l) (hca : c ≠ a)
    (hfits : CarryFits (m c).deltaTime (m a).deltaTime)
    (hm' : m' = subtractNode (compareNodes m c a).1 c a) :
    m'.Links p l ∧ (∀ x, (m' x).id = (m x).id) ∧
      (∀ x ∈ l, (m' x).deltaTime.value = (m x).deltaTime.value) ∧
      (m' c).deltaTime = timeLeft (m c).deltaTime (m a).deltaTime ∧
      (∀ x, x ≠ c → x ≠ a → (m' x).deltaTime = (m x).deltaTime) ∧
      (m' c).next = (m c).next := by
  subst hm'
  have hsame := (compareNodes_spec hfits).1
  have hfits' := (carryFits_compared hca hfits).1
  refine ⟨(subtractNode_links _ c a).links (hsame.links hl), fun x => ?_, fun x hx => ?_, ?_,
    fun x hxc hxa => ?_, ?_⟩
  · rw [subtractNode_id, hsame.id]
  · have hxc : x ≠ c := fun h => hc (h ▸ hx)
    rw [subtractNode_value hfits', if_neg hxc, hsame.value]
  · rw [subtractNode_result, compareNodes_frame m c a hca, compareNodes_deltaTime]
    rfl
  · rw [subtractNode_frame _ c a hxc hxa, compareNodes_frame m c a hxa]
  · rw [subtractNode_next, hsame.next]

/-- The loop of `add_timenode` puts node `c` into the list at offset `d`, when
    it starts behind the nodes `us` with what is left of `d` there. At the head
    of the list the comparison has been made and was not negative. -/
theorem addLoop_inserted (d : Int) (n : Nat) (hl : m.Links p (us ++ a :: vs))
    (hc : c ∉ us ++ a :: vs) (hcn : (m c).next = none)
    (hval : (m c).deltaTime.value = d - total (m.entries us))
    (hfits : m.CarriesFit (m c).deltaTime (a :: vs))
    (hpos : us ≠ [] → 0 ≤ (m c).deltaTime.value)
    (hhead : us = [] → (compareNodes m c a).2 = false) (hn : vs.length < n) :
    ∃ m', addLoop c n m (some a) = some m' ∧ Inserted m m' p (us ++ a :: vs) c d := by
  -- Induction on the nodes that are still ahead.
  induction vs generalizing us a m n with
  | nil =>
      cases n with
      | zero => exact absurd hn (Nat.not_lt_zero _)
      | succ n =>
          have hca : c ≠ a := fun h => hc (h ▸ List.mem_append_right _ List.mem_cons_self)
          rcases compareNodes_spec hfits.1 with ⟨hsame, _, hle⟩
          have hnext : (m a).next = none := hl.next_eq
          rw [addLoop_succ n hca hfits.1, hnext]
          cases hneg : (compareNodes m c a).2 with
          | true =>
              have hus : us ≠ [] := fun h => Bool.noConfusion (hneg.symm.trans (hhead h))
              exact addBefore_compared d hl hc hval hfits.1 (hpos hus) hus hneg
          | false =>
              refine ⟨_, rfl, (addAtEnd_inserted d (hsame.links hl) hc ?_ ?_
                (carryFits_compared hca hfits.1).1 ?_).of_agree hsame.id
                (fun x _ => hsame.value x)⟩
              · rw [hsame.next, hcn]
              · rw [hsame.value, hval, hsame.entries]
              · rw [hsame.value, hsame.value]
                exact hle hneg
  | cons b vs ih =>
      cases n with
      | zero => exact absurd hn (Nat.not_lt_zero _)
      | succ n =>
          have hca : c ≠ a := fun h => hc (h ▸ List.mem_append_right _ List.mem_cons_self)
          rcases compareNodes_spec hfits.1 with ⟨hsame, _, hle⟩
          have hnext : (m a).next = some b := hl.next_eq
          rw [addLoop_succ n hca hfits.1, hnext]
          cases hneg : (compareNodes m c a).2 with
          | true =>
              have hus : us ≠ [] := fun h => Bool.noConfusion (hneg.symm.trans (hhead h))
              exact addBefore_compared d hl hc hval hfits.1 (hpos hus) hus hneg
          | false =>
              -- Node `a` is passed, and its difference is taken off the new one.
              have hsplit : us ++ a :: b :: vs = (us ++ [a]) ++ b :: vs := List.append_cons us a _
              have hrest := hfits.2 hneg
              have hnot : ∀ x ∈ b :: vs, x ≠ c ∧ x ≠ a := fun x hx =>
                ⟨fun h => hc (h ▸ List.mem_append_right _ (List.mem_cons_of_mem _ hx)),
                  fun h => (List.nodup_cons.mp (List.nodup_append'.mp hl.nodup).2.1).1 (h ▸ hx)⟩
              rw [if_neg Bool.false_ne_true]
              generalize hm1 : subtractNode (compareNodes m c a).1 c a = m1
              rcases passed_node hl hc hca hfits.1 hm1.symm with
                ⟨hl1, hid, hin, hleft, hframe, hcn1⟩
              have hprefix : m1.entries (us ++ [a]) = m.entries (us ++ [a]) :=
                entries_congr (fun x _ => hid x) (fun x hx => hin x (by
                  rw [hsplit]
                  exact List.mem_append_left _ hx))
              have hfits1 : m1.CarriesFit (m1 c).deltaTime (b :: vs) := by
                rw [hleft, carriesFit_congr fun x hx => hframe x (hnot x hx).1 (hnot x hx).2]
                exact hrest
              rw [hsplit] at hl1 hc
              -- What is left of the interval, counted from node `a`.
              have hleft1 := congrArg Timeval.value hleft
              rw [timeLeft_value hfits.1] at hleft1
              have hval1 : (m1 c).deltaTime.value = d - total (m1.entries (us ++ [a])) := by
                have htotal : total (m.entries [a]) = (m a).deltaTime.value := add_zero _
                rw [hleft1, hprefix, entries_append, total_append, htotal, hval]
                omega
              have hpos1 : 0 ≤ (m1 c).deltaTime.value := by
                have := hle hneg
                omega
              rcases ih n hl1 hc (hcn1.trans hcn) hval1 hfits1 (fun _ => hpos1)
                (fun h => absurd h (List.append_ne_nil_of_right_ne_nil _ (List.cons_ne_nil _ _)))
                (Nat.lt_of_succ_lt_succ hn) with ⟨m', hm', hins⟩
              rw [← hsplit] at hins
              exact ⟨m', hm', hins.of_agree hid hin⟩

end Inserting

end Cse5462
