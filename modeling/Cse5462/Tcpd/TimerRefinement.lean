import Cse5462.Tcpd.TimerDrift

/-!
# The Timer List Refines the Map

As long as the carries of `timeval_subtract` fit, `timer_list_refines` says of any
calls that the list is the map from ids to remaining times that it stands for.

Nothing in the code sees to it that they fit. The differences drift apart from the
values that they stand for, and `timer_list_not_refines` is a run of starts
and cancellations, all of them below two hours, after which one more start moves a
timer that it has nothing to do with.

## Main definitions

* `driftedCalls`: Calls that leave one timer, with two seconds a round in its microseconds.

## Theorems

* `timer_list_refines`: The list refines the map, after any calls that fit.
* `timer_list_not_refines`: It does not after others.
-/

namespace Cse5462

open DeltaList

/-- After any calls from the empty list whose carries fit, the list is a well-formed
    doubly linked list with ascending offsets, and every further call that fits
    ends. A new id is added to the map with its interval, a known one is dropped, and
    a cancelled id is removed. -/
theorem timer_list_refines (cell : Heap) (lasttime : Timeval) (calls : List TimerCall)
    (hfits : Machine.Meets TimerList.call TimerList.Fits (TimerList.empty cell lasttime) calls) :
    ∃ t, Machine.run TimerList.call (TimerList.empty cell lasttime) calls = some t ∧
      t.WellFormed t.nodes ∧ (offsets (t.cell.entries t.nodes)).Pairwise (· ≤ ·) ∧
      (∀ id dtime now, t.Fits (.add id dtime now) →
        ∃ t', t.addTimenode id dtime now = some t' ∧
          (t.remaining id = none → t'.remaining
            = Function.update t.remaining id (some (Timeval.ofSeconds dtime).value)) ∧
          (t.remaining id ≠ none → t' = t)) ∧
      (∀ id, ∃ t', t.deleteTimenode id = some t' ∧
        (t.remaining id ≠ none → t'.remaining = Function.update t.remaining id none) ∧
        (t.remaining id = none → t' = t)) ∧
      (∀ now, ∃ t' ids, t.updateTimeList now = some (t', ids)) := by
  have hempty : (TimerList.empty cell lasttime).WellFormed
      (TimerList.empty cell lasttime).nodes := by
    rw [(TimerList.linked_empty cell lasttime).nodes_eq]
    exact TimerList.wellFormed_empty cell lasttime
  rcases Machine.run_total (P := fun t : TimerList => t.WellFormed t.nodes)
    (fun t c h hc => TimerList.exists_call h c hc) calls _ hempty hfits with ⟨t, hrun, h⟩
  have hlinked := h.toLinked
  refine ⟨t, hrun, h, offsets_sorted _ h.deltas, fun id dtime now hadd => ?_, fun id => ?_,
    fun now => ?_⟩
  · -- `add_timenode` leaves a list that has the id as it is.
    by_cases hid : t.remaining id = none
    · rcases TimerList.addTimenode_remaining hlinked hid
        (hadd ((hlinked.remaining_none_iff id).mp hid)) now with ⟨t', _, ht', -, -, hrem⟩
      exact ⟨t', ht', fun _ => hrem, fun hne => absurd hid hne⟩
    · have hmem := hid
      rw [hlinked.remaining_none_iff, not_not] at hmem
      exact ⟨t, TimerList.addTimenode_present hlinked hmem dtime now,
        fun hnone => absurd hnone hid, fun _ => rfl⟩
  · by_cases hid : t.remaining id = none
    · have hmem := hid
      rw [hlinked.remaining_none_iff] at hmem
      exact ⟨t, TimerList.deleteTimenode_absent hlinked hmem, fun hne => absurd hid hne,
        fun _ => rfl⟩
    · rcases TimerList.deleteTimenode_remaining hlinked hid with ⟨t', _, ht', -, -, hrem⟩
      exact ⟨t', ht', fun _ => hrem, fun hnone => absurd hnone hid⟩
  · rcases TimerList.updateTimeList_reached hlinked now with ⟨t', _, ht', -⟩
    exact ⟨t', _, ht'⟩

/-- Three timers and one in front of the last, a cancellation in the middle, and two
    that expire. -/
theorem timer_list_refines_between :
    ∃ t, Machine.run TimerList.call (TimerList.empty (fun _ => ⟨0, ⟨0, 0⟩, none, none⟩) ⟨0, 0⟩)
      [.add 1 30 ⟨5, 0⟩, .add 2 10 ⟨6, 0⟩, .add 3 20 ⟨7, 0⟩, .add 4 (51 / 2) ⟨7, 0⟩, .delete 3,
        .update ⟨34, 0⟩] = some t ∧ t.WellFormed t.nodes := by
  rcases timer_list_refines (fun _ => ⟨0, ⟨0, 0⟩, none, none⟩) ⟨0, 0⟩
    [.add 1 30 ⟨5, 0⟩, .add 2 10 ⟨6, 0⟩, .add 3 20 ⟨7, 0⟩, .add 4 (51 / 2) ⟨7, 0⟩, .delete 3,
      .update ⟨34, 0⟩] (by decide +kernel) with ⟨t, ht, hwf, -⟩
  exact ⟨t, ht, hwf⟩

/-- Three timers and a cancellation: 30 and 10 and 20 seconds, and the second
    one cancelled. -/
example : ((Machine.run TimerList.call (TimerList.empty (fun _ => ⟨0, ⟨0, 0⟩, none, none⟩) ⟨0, 0⟩)
      [.add 1 30 ⟨5, 0⟩, .add 2 10 ⟨6, 0⟩, .add 3 20 ⟨7, 0⟩, .delete 2]).map
    fun t => (t.nodes, t.remaining 1, t.remaining 2, t.remaining 3))
      = some ([2, 0], some 30000000, none, some 20000000) := by
  decide +kernel

/-- A timer of 5000 seconds and one of half a second in front of it, then `n` rounds,
    and the one in front is cancelled. -/
def driftedCalls (n : Nat) (now : Timeval) : List TimerCall :=
  [.add 1 (seconds 5000000000) now, .add 2 (seconds 500000) now] ++
    (List.replicate n (driftCalls now)).flatten ++ [.delete 2]

namespace TimerList

variable {t : TimerList} {es : List (Int × Timeval)} {cell : Heap} {lasttime now : Timeval}

theorem Shows.remaining_eq (h : t.Shows es) :
    t.remaining = DeltaList.remaining (es.map fun e => (e.1, e.2.value)) := by
  rcases h with ⟨l, hl, rfl⟩
  rw [hl.remaining_eq]
  unfold Heap.entries Heap.timed
  rw [List.map_map]
  rfl

/-- The timer is still due after 5000 seconds. -/
theorem drifted_run (cell : Heap) (lasttime : Timeval) (n : Nat) (now : Timeval) :
    ∃ t, Machine.run call (empty cell lasttime) (driftedCalls n now) = some t ∧
      t.Shows [(1, ⟨5000 - 2 * n, 2000000 * n⟩)] := by
  have hlong : Timeval.ofSeconds (seconds 5000000000) = ⟨5000, 0⟩ := by decide +kernel
  have hhalf : Timeval.ofSeconds (seconds 500000) = ⟨0, 500000⟩ := by decide +kernel
  rcases shows_added 1 (seconds 5000000000) (shows_empty cell lasttime) List.not_mem_nil
    trivial now with ⟨t1, ht1, h1⟩
  rw [hlong] at h1
  rcases shows_added 2 (seconds 500000) h1 (by decide)
    (by rw [hhalf]; exact ⟨by decide, fun h => absurd h (by decide)⟩) now with ⟨t2, ht2, h2⟩
  have hplace : place 2 ⟨0, 500000⟩ (place 1 ⟨5000, 0⟩ [])
      = [(2, ⟨1, -500000⟩), (1, ⟨4999, 500000⟩)] := rfl
  rw [hhalf, hplace] at h2
  -- The timer in front is half a second, whatever the microseconds behind it.
  rcases drift_run h2 now n with ⟨t3, ht3, h3⟩
  rcases shows_cancelled [] h3 with ⟨t4, ht4, h4, -⟩
  have hgive : giveNext ⟨1, -500000⟩ [(1, ⟨4999 - 2 * n, 500000 + 2000000 * n⟩)]
      = [(1, ⟨5000 - 2 * n, 2000000 * n⟩)] := by
    simp only [giveNext, timevalAdd]
    congr 3 <;> omega
  refine ⟨t4, ?_, hgive ▸ h4⟩
  rw [driftedCalls, Machine.run_append, Machine.run_append]
  simp only [Machine.run_cons, Machine.run_nil, call, ht1, ht2, ht3, ht4, Option.bind_some]

end TimerList

open TimerList in
/-- A quarter of a second that is started then takes the other timer along: the
    product of the 2148 seconds in its microseconds wraps. -/
theorem timer_list_not_refines :
    ∃ t t', Machine.run call (empty (fun _ => ⟨0, ⟨0, 0⟩, none, none⟩) ⟨0, 0⟩)
        (driftedCalls 1074 ⟨0, 0⟩) = some t ∧
      t.remaining 1 = some 5000000000 ∧ t.remaining 2 = none ∧
      t.addTimenode 2 (seconds 250000) ⟨0, 0⟩ = some t' ∧ t'.remaining 2 = some (-4294717296) ∧
      t'.remaining 1 = some 9294967296 := by
  have hquarter : Timeval.ofSeconds (seconds 250000) = ⟨0, 250000⟩ := by decide +kernel
  have hwrap : (⟨5000 - 2 * (1074 : Nat), 2000000 * (1074 : Nat)⟩ : Timeval)
      = ⟨2852, 2148000000⟩ := by norm_num
  rcases drifted_run (fun _ => ⟨0, ⟨0, 0⟩, none, none⟩) ⟨0, 0⟩ 1074 ⟨0, 0⟩ with ⟨t, ht, h⟩
  rw [hwrap] at h
  rcases shows_first 2 (seconds 250000) h (by decide)
    (by rw [hquarter]; decide) ⟨0, 0⟩ with ⟨t', ht', h'⟩
  rw [hquarter] at h'
  refine ⟨t, t', ht, ?_, ?_, ht', ?_, ?_⟩
  · rw [h.remaining_eq]
    rfl
  · rw [h.remaining_eq]
    rfl
  · rw [h'.remaining_eq]
    rfl
  · rw [h'.remaining_eq]
    rfl

end Cse5462
