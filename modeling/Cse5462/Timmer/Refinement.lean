import Cse5462.Lib.Sequences
import Cse5462.Timmer.Mended

/-!
# The Stand-Alone Timer as a Map

When the list of `proj1/timmer.c` is the map from ids to remaining times that
the one of `tcpd.c` is. It is as long as no deletion finds the list empty, no
operation reads a pointer back that was left behind by an earlier deletion, the
carries of new timers fit, and their intervals are stored without a loss.

## Main definitions

* `Timmer.Refines`: What a call should do to the map.
* `Timmer.Tidy`: The pointers that a call reads are right, and its carries fit.

## Theorems

* `call_refines`: A tidy call.
* `timmer_refines`: Any run of tidy calls.
-/

namespace Cse5462

open DeltaList

namespace Timmer

/-- A call ends. A new id is added with its interval in microseconds, a known
    one is not added, a known one is deleted, and deleting an unknown one changes
    nothing. -/
def Refines (t : TimerList) (c : TimerCall) : Prop :=
  ∃ t', call t c = some t' ∧
    match c with
    | .add id dtime _ =>
        (t.remaining id = none → ∃ offset : Int, (offset : ℚ) = dtime * 1000000 ∧
          t'.remaining = Function.update t.remaining id (some offset)) ∧
        (t.remaining id ≠ none → t' = t)
    | .delete id =>
        (t.remaining id ≠ none → t'.remaining = Function.update t.remaining id none) ∧
        (t.remaining id = none → t'.remaining = t.remaining ∧ t'.nodes = t.nodes)
    | .update _ => True

/-- The carries of a new timer fit, its interval is stored as it is, and the first
    node that it does not reach points back to the last one that it reaches, if
    there are both. A deletion finds a node in the list, and if it is for a node
    behind another, that node points back to the other. -/
def Tidy (t : TimerList) : TimerCall → Prop
  | .add id dtime _ => t.remaining id = none →
      t.cell.CarriesFit (Timeval.ofSeconds dtime) t.nodes ∧
      ((Timeval.ofSeconds dtime).value : ℚ) = dtime * 1000000 ∧
      let reached := t.cell.reached (Timeval.ofSeconds dtime) t.nodes
      ∀ b ∈ reached.getLast?, ∀ a ∈ (t.nodes.drop reached.length).head?, (t.cell a).forward = some b
  | .delete id => t.nodes ≠ [] ∧ ∀ p ∈ t.nodes.zip t.nodes.tail,
      (t.cell p.2).id = id → (t.cell p.2).forward = some p.1
  | .update _ => True

instance (t : TimerList) (c : TimerCall) : Decidable (Tidy t c) :=
  match c with
  | .add _ _ _ => inferInstanceAs (Decidable (_ → _ ∧ _ ∧ _))
  | .delete _ => inferInstanceAs (Decidable (_ ∧ _))
  | .update _ => isTrue trivial

/-- Some pointers back make the list linked. -/
def Mendable (t : TimerList) : Prop := ∃ t', Mended t t' ∧ t'.Linked t'.nodes

variable {t : TimerList}

/-- A tidy call keeps the list mendable and does to the map what it should. -/
theorem call_refines (h : Mendable t) {c : TimerCall} (hc : Tidy t c) :
    Refines t c ∧ ∀ u, call t c = some u → Mendable u := by
  rcases h with ⟨t', hmend, hl⟩
  have hnodes := hmend.nodes
  have hrem := hmend.remaining
  -- A call that ends in a mended list.
  have hdone : ∀ u u' v, call t c = some u → Mended u u' → u'.Linked (v : TimerList).nodes →
      ∀ w, call t c = some w → Mendable w := by
    intro u u' v hu hmend' hl' w hw
    rw [hu, Option.some.injEq] at hw
    subst hw
    exact ⟨u', hmend', hl'.self⟩
  cases c with
  | add id dtime now =>
      by_cases hid : t'.remaining id = none
      · rcases hc (hrem ▸ hid) with ⟨hfits, hexact, hback⟩
        rw [hnodes] at hfits hback
        have hnew := (hl.remaining_none_iff id).mp hid
        have hfits' : t'.cell.CarriesFit (Timeval.ofSeconds dtime) t'.nodes :=
          (carriesFit_congr fun x _ => hmend.cell.deltaTime x).mpr hfits
        rcases TimerList.addTimenode_remaining hl hid hfits' now with ⟨v, l, hv, hvl, -, hvrem⟩
        -- The pointer back that the loop may read.
        have hfwd : ∀ us b a vs, t'.nodes = us ++ b :: a :: vs →
            t.cell.reached (Timeval.ofSeconds dtime) t'.nodes = us ++ [b] →
            (t.cell a).forward = some b := by
          intro us b a vs hsplit hreach
          refine hback b ?_ a ?_
          · rw [hreach, List.getLast?_append, List.getLast?_singleton]
            rfl
          · rw [hreach, hsplit, List.append_cons us b (a :: vs), List.drop_left]
            rfl
        rcases hmend.addTimenode hl hnew dtime now hfits hfwd hv hvl.self with
          ⟨u, u', hu, hmend', hl', hrem'⟩
        refine ⟨⟨u, hu, fun _ => ⟨_, hexact, ?_⟩, fun hne => absurd (hrem ▸ hid) hne⟩,
          hdone u u' v hu hmend' hl'⟩
        rw [hmend'.remaining, hrem', hvrem, hrem]
      · -- The id is in the list.
        have hmem := hid
        rw [hl.remaining_none_iff, not_not] at hmem
        have hu := hmend.addTimenode_present hl hmem dtime now
        exact ⟨⟨t, hu, fun hnone => absurd (hrem ▸ hnone) hid, fun _ => rfl⟩,
          hdone t t' t' hu hmend hl⟩
  | delete id =>
      rcases hc with ⟨hne, hback⟩
      rw [hnodes] at hne hback
      have hfwd : ∀ us b a vs, t'.nodes = us ++ b :: a :: vs → (t.cell a).id = id →
          (t.cell a).forward = some b := fun us b a vs hsplit =>
        hback (b, a) (hsplit ▸ mem_zip_tail us b a vs)
      by_cases hid : t'.remaining id = none
      · have hv := TimerList.deleteTimenode_absent hl ((hl.remaining_none_iff _).mp hid)
        rcases hmend.deleteTimenode hl hne hfwd hv hl with ⟨u, u', hu, hmend', hl', hrem'⟩
        refine ⟨⟨u, hu, fun hne => absurd (hrem ▸ hid) hne, fun _ => ⟨?_, ?_⟩⟩,
          hdone u u' t' hu hmend' hl'⟩
        · rw [hmend'.remaining, hrem', hrem]
        · rw [hmend'.nodes, hl'.nodes_eq, hnodes]
      · rcases TimerList.deleteTimenode_remaining hl hid with ⟨v, l, hv, hvl, -, hvrem⟩
        rcases hmend.deleteTimenode hl hne hfwd hv hvl.self with
          ⟨u, u', hu, hmend', hl', hrem'⟩
        refine ⟨⟨u, hu, fun _ => ?_, fun hnone => absurd (hrem ▸ hnone) hid⟩,
          hdone u u' v hu hmend' hl'⟩
        rw [hmend'.remaining, hrem', hvrem, hrem]
  | update now =>
      rcases TimerList.updateTimeList_reached hl now with ⟨v, vs, hv, -, helapsed⟩
      rcases hmend.updateTimeList now hv with ⟨u, hu, hmend'⟩
      exact ⟨⟨u, hu, trivial⟩, hdone u v v hu hmend' helapsed.linked.self⟩

theorem mendable_empty (cell : Heap) (lasttime : Timeval) :
    Mendable (TimerList.empty cell lasttime) :=
  ⟨TimerList.empty cell lasttime, ⟨Agree.refl cell, rfl, rfl, rfl⟩,
    (TimerList.linked_empty cell lasttime).self⟩

end Timmer

end Cse5462
