import Cse5462.Lib.Machine
import Cse5462.Tcpd.TimerReach

/-!
# The Timer List as a Map

What the timer list is for: it keeps, for each pending id, the time that remains
until the timer expires. `TimerList.remaining` reads that map off the heap, as
the sums of the differences from the head on. As long as the carries of
`timeval_subtract` fit, a call acts on the map as it should: a new id is added
with its interval, a cancelled one is removed, and nothing else changes, although
every comparison on the way rewrites the nodes.

What needs no condition is that the list stays a list, whatever the calls.

## Main definitions

* `Heap.walk`: The nodes that a pointer leads through.
* `TimerList.remaining`: The remaining time of each id.
* `TimerCall`: A call of one of the three operations.
* `TimerList.Fits`: The carries of a call fit.

## Theorems

* `walk_eq`: Walking along a list visits its nodes.
* `linked_run`: Any calls leave a list.
* `addTimenode_remaining`, `deleteTimenode_remaining`: The map after a call.
* `exists_call`: A call that fits ends and keeps the list well formed.
-/

namespace Cse5462

open DeltaList

/-- The nodes that the pointer leads through, `n` of them at most. -/
def Heap.walk (m : Heap) : Nat → Option Nat → List Nat
  | 0, _ => []
  | _ + 1, none => []
  | n + 1, some a => a :: m.walk n (m a).next

theorem walk_eq (m : Heap) (l : List Nat) (n : Nat) (p : Option Nat) (hl : m.Links p l)
    (hn : l.length ≤ n) : m.walk n p = l := by
  -- Induction on the nodes, with fuel for each.
  induction l generalizing n p with
  | nil =>
      have hp : p = none := hl.head_eq
      subst hp
      cases n with
      | zero => rfl
      | succ n => rfl
  | cons a l ih =>
      have hp : p = some a := hl.head_eq
      subst hp
      cases n with
      | zero => exact absurd hn (Nat.not_succ_le_zero _)
      | succ n =>
          unfold Heap.walk
          rw [ih n _ hl.tail (Nat.le_of_succ_le_succ hn)]

/-- A call of one of the operations, with the clock reading it takes. -/
inductive TimerCall where
  | add (id : Int) (dtime : ℚ≥0) (now : Timeval)
  | delete (id : Int)
  | update (now : Timeval)

namespace TimerList

/-- The nodes of the list. -/
def nodes (t : TimerList) : List Nat := t.cell.walk t.brk t.head

/-- The time that remains for each id of the list. -/
def remaining (t : TimerList) : Int → Option Int := DeltaList.remaining (t.cell.entries t.nodes)

/-- What a call makes of the list. -/
def call (t : TimerList) : TimerCall → Option TimerList
  | .add id dtime now => t.addTimenode id dtime now
  | .delete id => t.deleteTimenode id
  | .update now => (t.updateTimeList now).map Prod.fst

/-- The carries of the call fit: on the way of a new timer to its place, and of the
    elapsed time to the last node that it reaches. -/
def Fits (t : TimerList) : TimerCall → Prop
  | .add id dtime _ => id ∉ t.cell.ids t.nodes → t.cell.CarriesFit (Timeval.ofSeconds dtime) t.nodes
  | .delete _ => True
  | .update now => t.cell.CarriesFit (t.passed now) t.nodes

instance (t : TimerList) (c : TimerCall) : Decidable (t.Fits c) :=
  match c with
  | .add _ _ _ => inferInstanceAs (Decidable (_ → _))
  | .delete _ => isTrue trivial
  | .update _ => inferInstanceAs (Decidable (Heap.CarriesFit _ _ _))

variable {t t' : TimerList} {l : List Nat} {id : Int} {dtime : ℚ≥0}

theorem Linked.nodes_eq (h : t.Linked l) : t.nodes = l :=
  walk_eq t.cell l t.brk t.head h.links h.length_le

theorem Linked.remaining_eq (h : t.Linked l) :
    t.remaining = DeltaList.remaining (t.cell.entries l) := by
  unfold remaining
  rw [h.nodes_eq]

/-- The ids that have no time left are those that are not in the list. -/
theorem Linked.remaining_none_iff (h : t.Linked l) (id : Int) :
    t.remaining id = none ↔ id ∉ t.cell.ids l := by
  rw [h.remaining_eq, remaining_eq_none_iff, keys_entries]

theorem Linked.self (h : t.Linked l) : t.Linked t.nodes := h.nodes_eq.symm ▸ h

/-- Whatever the call, a list is left. -/
theorem linked_call (h : t.Linked t.nodes) {c : TimerCall} (ht : t.call c = some t') :
    t'.Linked t'.nodes := by
  cases c with
  | add id dtime now =>
      by_cases hid : id ∈ t.cell.ids t.nodes
      · rw [show t.call (.add id dtime now) = _ from addTimenode_present h hid dtime now] at ht
        cases ht
        exact h
      · rcases (addTimenode_linked h hid ht).2.2 with ⟨us, vs, -, h'⟩ | ⟨h', -⟩
        · exact h'.self
        · exact h'.self
  | delete id =>
      by_cases hid : id ∈ t.cell.ids t.nodes
      · rcases deleteTimenode_present h hid with ⟨u, us, a, vs, hu, -, -, h', -⟩
        rw [show t.call (.delete id) = _ from hu] at ht
        cases ht
        exact h'.self
      · rw [show t.call (.delete id) = _ from deleteTimenode_absent h hid] at ht
        cases ht
        exact h
  | update now =>
      rcases updateTimeList_reached h now with ⟨u, vs, hu, -, helapsed⟩
      rw [call, hu, Option.map_some] at ht
      cases ht
      exact helapsed.linked.self

/-- Any calls from the empty list leave a list. -/
theorem linked_run {cell : Heap} {lasttime : Timeval} {calls : List TimerCall}
    (hrun : Machine.run call (empty cell lasttime) calls = some t) : t.Linked t.nodes :=
  Machine.run_invariant (P := fun t => t.Linked t.nodes) (fun _ _ _ h ht => linked_call h ht)
    calls _ t (linked_empty cell lasttime).self hrun

/-- Adding an id that is not in the list adds it to the map, if the carries fit. -/
theorem addTimenode_remaining (h : t.Linked l) (hid : t.remaining id = none)
    (hfits : t.cell.CarriesFit (Timeval.ofSeconds dtime) l) (now : Timeval) :
    ∃ t' l', t.addTimenode id dtime now = some t' ∧ t'.Linked l' ∧
      (t.WellFormed l → t'.WellFormed l') ∧
      t'.remaining = Function.update t.remaining id (some (Timeval.ofSeconds dtime).value) := by
  rw [h.remaining_none_iff] at hid
  rcases addTimenode_new h hid hfits now with
    ⟨t', us, vs, ht', rfl, hlinked, hent, hpos, hle⟩
  refine ⟨t', _, ht', hlinked,
    fun hwf => wellFormed_added hwf hlinked (ofSeconds_nonneg dtime) hent hpos hle, ?_⟩
  rw [← keys_entries, entries_append] at hid
  rw [hlinked.remaining_eq, h.remaining_eq, hent, entries_append]
  exact remaining_insert _ _ id _ hid

/-- Cancelling an id of the list takes it out of the map. -/
theorem deleteTimenode_remaining (h : t.Linked l) (hid : t.remaining id ≠ none) :
    ∃ t' l', t.deleteTimenode id = some t' ∧ t'.Linked l' ∧ (t.WellFormed l → t'.WellFormed l') ∧
      t'.remaining = Function.update t.remaining id none := by
  rw [Ne, h.remaining_none_iff, not_not] at hid
  rcases deleteTimenode_present h hid with ⟨t', us, a, vs, ht', rfl, ha, hlinked, hgiven⟩
  refine ⟨t', _, ht', hlinked, fun hwf => wellFormed_removed hwf hlinked hgiven, ?_⟩
  have hids := h.ids
  rw [← keys_entries, entries_append, entries_cons, ha] at hids
  rw [hlinked.remaining_eq, h.remaining_eq, hgiven.entries hlinked.links.nodup, entries_append,
    entries_cons, ha]
  exact remaining_remove _ _ id _ hids

/-- Every call whose carries fit ends, and leaves a well-formed list. -/
theorem exists_call (h : t.WellFormed t.nodes) (c : TimerCall) (hfits : t.Fits c) :
    ∃ t', t.call c = some t' ∧ t'.WellFormed t'.nodes := by
  suffices hcall : ∃ t' l', t.call c = some t' ∧ t'.WellFormed l' by
    rcases hcall with ⟨t', l', ht', h'⟩
    exact ⟨t', ht', h'.nodes_eq.symm ▸ h'⟩
  cases c with
  | add id dtime now =>
      by_cases hid : t.remaining id = none
      · rcases addTimenode_remaining h.toLinked hid (hfits ((h.remaining_none_iff id).mp hid)) now
          with ⟨t', l', ht', -, hwf, -⟩
        exact ⟨t', l', ht', hwf h⟩
      · rw [h.remaining_none_iff, not_not] at hid
        exact ⟨t, t.nodes, addTimenode_present h.toLinked hid dtime now, h⟩
  | delete id =>
      by_cases hid : t.remaining id = none
      · rw [h.remaining_none_iff] at hid
        exact ⟨t, t.nodes, deleteTimenode_absent h.toLinked hid, h⟩
      · rcases deleteTimenode_remaining h.toLinked hid with ⟨t', l', ht', -, hwf, -⟩
        exact ⟨t', l', ht', hwf h⟩
  | update now =>
      rcases updateTimeList_value h now hfits with ⟨t', us, vs, ht', -, -, hwf, -⟩
      refine ⟨t', vs, ?_, hwf⟩
      simp only [call, ht', Option.map_some]

end TimerList

end Cse5462
