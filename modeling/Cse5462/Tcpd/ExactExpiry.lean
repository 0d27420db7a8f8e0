import Cse5462.Tcpd.TimerMap

/-!
# Exact Expiry

When `update_time_list` takes off exactly the timers that are due. As long as
the carries of the expiry fit, the offsets of the nodes that the loop passes do
not exceed the elapsed time, and those of the others are not less than it,
whatever the representation of the differences. Which side a timer comes to that
is due at that very moment is decided by the microseconds: the difference is zero,
and `timeval_subtract` calls it negative if it comes out as a whole second of
microseconds.

## Main definitions

* `TimerList.due`: The timer is due after a time.
* `TimerList.ExpiresExactly`: What an expiry should do.

## Theorems

* `expires_exactly_iff`: When it does, as long as the carries fit.
-/

namespace Cse5462

open DeltaList

namespace TimerList

/-- The timer at node `a` is due when the time `e` has passed. -/
def due (t : TimerList) (e : Int) (a : Nat) : Bool :=
  (t.remaining (t.cell a).id).any fun o => decide (o ≤ e)

/-- `update_time_list` writes a request for each timer that is due, in the order
    of the list, takes these nodes off and no other, and lowers the offset of
    every timer that stays by the elapsed time, to more than zero. -/
def ExpiresExactly (t : TimerList) (now : Timeval) : Prop :=
  ∃ t' ids, t.updateTimeList now = some (t', ids) ∧
    ids = t.cell.ids (t.nodes.filter (t.due (now.value - t.lasttime.value))) ∧
    t'.nodes = t.nodes.filter (fun a => !t.due (now.value - t.lasttime.value) a) ∧
    ∀ k, t'.remaining k
      = ((t.remaining k).map (· - (now.value - t.lasttime.value))).filter (0 < ·)

variable {t : TimerList} {l us vs : List Nat} {a : Nat}

/-- The elapsed time. -/
theorem passed_value (hlast : t.lasttime ≠ ⟨0, 0⟩) {now : Timeval}
    (hclock : CarryFits now t.lasttime) :
    (t.passed now).value = now.value - t.lasttime.value := by
  unfold passed
  rw [if_neg fun h => hlast (Timeval.ext h.1 h.2)]
  exact (timevalSubtract_spec hclock).1

theorem passed_usec (hlast : t.lasttime ≠ ⟨0, 0⟩) {now : Timeval}
    (hclock : CarryFits now t.lasttime) :
    (t.passed now).tvUsec = microsLeft now.tvUsec t.lasttime.tvUsec := by
  unfold passed
  rw [if_neg fun h => hlast (Timeval.ext h.1 h.2), ← carry_micros hclock]
  rfl

/-- A node is due once its offset has passed. -/
theorem due_of_offset (h : t.Linked (us ++ a :: vs)) (e : Int)
    (ho : total (t.cell.entries us) + (t.cell a).deltaTime.value ≤ e) : t.due e a = true := by
  have hids := h.ids
  rw [← keys_entries, entries_append, List.map_append] at hids
  have hnot : (t.cell a).id ∉ (t.cell.entries us).map Prod.fst := fun hk =>
    List.disjoint_of_nodup_append hids hk List.mem_cons_self
  unfold due
  rw [h.remaining_eq, entries_append, remaining_append _ _ _ hnot, entries_cons,
    DeltaList.remaining, if_pos rfl, Option.map_some, Option.any_some, decide_eq_true_eq]
  exact ho

/-- The nodes that are due are the first ones, if those are due and all behind
    them are not. -/
theorem filter_due (h : t.Linked (us ++ vs)) (e : Int)
    (hus : ∀ o ∈ offsets (t.cell.entries us), o ≤ e)
    (hvs : ∀ o ∈ offsets (t.cell.entries vs), e - total (t.cell.entries us) < o) :
    (us ++ vs).filter (t.due e) = us ∧ (us ++ vs).filter (fun a => !t.due e a) = vs := by
  have hids := h.ids
  rw [← keys_entries, entries_append, List.map_append] at hids
  have hdisj := List.disjoint_of_nodup_append hids
  have hkey : ∀ {l : List Nat} {a}, a ∈ l → (t.cell a).id ∈ (t.cell.entries l).map Prod.fst :=
    fun ha => List.mem_map.mpr ⟨_, List.mem_map.mpr ⟨_, ha, rfl⟩, rfl⟩
  have hdue : ∀ a ∈ us, t.due e a = true := by
    intro a ha
    rcases exists_offset _ (t.cell.entries vs) _ (hkey ha) with ⟨o, ho, hrem⟩
    unfold due
    rw [h.remaining_eq, entries_append, hrem, Option.any_some, decide_eq_true_eq]
    exact hus o ho
  have hnot : ∀ a ∈ vs, t.due e a = false := by
    intro a ha
    rcases exists_offset _ [] _ (hkey ha) with ⟨o, ho, hrem⟩
    rw [List.append_nil] at hrem
    unfold due
    rw [h.remaining_eq, entries_append, remaining_append _ _ _ fun hk => hdisj hk (hkey ha), hrem,
      Option.map_some, Option.any_some, decide_eq_false_iff_not]
    have := hvs o ho
    omega
  rw [List.filter_append, List.filter_append]
  constructor
  · rw [List.filter_eq_self.mpr hdue, List.filter_eq_nil_iff.mpr fun a ha => by
      rw [hnot a ha]
      exact Bool.false_ne_true, List.append_nil]
  · rw [List.filter_eq_nil_iff.mpr fun a ha => by
      rw [hdue a ha]
      exact Bool.false_ne_true, List.filter_eq_self.mpr fun a ha => by
      rw [hnot a ha]
      rfl, List.nil_append]

/-- The offsets of the timers that stay are lowered by the elapsed time. -/
theorem remaining_advanced (h : t.Linked (us ++ vs)) (e : Int)
    (hus : ∀ o ∈ offsets (t.cell.entries us), o ≤ e)
    (hvs : ∀ o ∈ offsets (t.cell.entries vs), e - total (t.cell.entries us) < o) (k : Int) :
    DeltaList.remaining (advance (e - total (t.cell.entries us)) (t.cell.entries vs)) k
      = ((t.remaining k).map (· - e)).filter (0 < ·) := by
  have hids := h.ids
  rw [← keys_entries, entries_append, List.map_append] at hids
  have hdisj := List.disjoint_of_nodup_append hids
  rw [h.remaining_eq, entries_append, remaining_advance]
  by_cases hk : k ∈ (t.cell.entries us).map Prod.fst
  · -- A timer that is due has no time left.
    rcases exists_offset _ (t.cell.entries vs) k hk with ⟨o, ho, hrem⟩
    have hle := hus o ho
    rw [hrem, remaining_eq_none _ _ fun hk' => hdisj hk hk', Option.map_some, Option.filter_some,
      if_neg (by rw [decide_eq_true_eq]; omega)]
    rfl
  · rw [remaining_append _ _ _ hk]
    cases hrem : DeltaList.remaining (t.cell.entries vs) k with
    | none => rfl
    | some o =>
        have hlt := hvs o (mem_offsets_of_remaining _ _ _ hrem)
        rw [Option.map_some, Option.map_some, Option.map_some, Option.filter_some,
          if_pos (by rw [decide_eq_true_eq]; omega), Option.some.injEq]
        omega

/-- The elapsed time comes to a whole second of microseconds at node `a`, when
    the microseconds of `lasttime` and of the nodes up to it are taken off those
    of the clock. -/
def WholeSecondAt (t : TimerList) (now : Timeval) (us : List Nat) (a : Nat) : Prop :=
  (t.lasttime.tvUsec :: (us ++ [a]).map fun b => (t.cell b).deltaTime.tvUsec).foldl microsLeft
    now.tvUsec = 1000000

/-- A timer that is due at this very moment is not passed if the difference
    comes to a whole second of microseconds. -/
theorem negative_iff (hlast : t.lasttime ≠ ⟨0, 0⟩) {now : Timeval}
    (hclock : CarryFits now t.lasttime)
    (hfits : t.cell.CarriesFit (t.passed now) (us ++ a :: vs))
    (hus : us <+: t.cell.reached (t.passed now) (us ++ a :: vs))
    (ho : total (t.cell.entries us) + (t.cell a).deltaTime.value
      = now.value - t.lasttime.value) :
    (timevalSubtract (t.cell.leftOver (t.passed now) us) (t.cell a).deltaTime).negative = true ↔
      t.WholeSecondAt now us a := by
  rcases Heap.carriesFit_split hfits hus with ⟨hleft, hrest⟩
  have hvalue : (t.cell.leftOver (t.passed now) us).value = (t.cell a).deltaTime.value := by
    rw [hleft, passed_value hlast hclock]
    omega
  unfold WholeSecondAt
  rw [timevalSubtract_negative_iff hrest.1, Heap.leftOver_usec hfits hus, passed_usec hlast hclock,
    hvalue, List.foldl_cons, List.foldl_map, List.foldl_append]
  exact ⟨fun h => (h.resolve_left (lt_irrefl _)).2, fun h => Or.inr ⟨rfl, h⟩⟩

/-- A node of a list that is not in the second part is in the first. -/
theorem exists_split_left {xs : List Nat} (h : us ++ vs = xs ++ a :: l) (hnot : a ∉ vs) :
    ∃ rest, us = xs ++ a :: rest := by
  rcases List.append_eq_append_iff.mp h with ⟨ys, _, hvs⟩ | ⟨ys, hus, hys⟩
  · exact absurd (hvs ▸ List.mem_append_right _ List.mem_cons_self) hnot
  · cases ys with
    | nil =>
        rw [List.nil_append] at hys
        exact absurd (hys ▸ List.mem_cons_self) hnot
    | cons y ys =>
        rw [List.cons_append, List.cons.injEq] at hys
        exact ⟨ys, hys.1 ▸ hus⟩

/-- The timers behind those that are passed are not due yet, if the first of
    them does not come to a whole second when it is due at this very moment. -/
theorem lt_of_stopped (h : t.WellFormed (us ++ vs)) (hlast : t.lasttime ≠ ⟨0, 0⟩) {now : Timeval}
    (hclock : CarryFits now t.lasttime) (hfits : t.cell.CarriesFit (t.passed now) (us ++ vs))
    (hus : t.cell.reached (t.passed now) (us ++ vs) = us)
    (hcond : ∀ b ws, vs = b :: ws → total (t.cell.entries us) + (t.cell b).deltaTime.value
      = now.value - t.lasttime.value → ¬t.WholeSecondAt now us b) :
    ∀ o ∈ offsets (t.cell.entries vs),
      now.value - t.lasttime.value - total (t.cell.entries us) < o := by
  have hdeltas := h.deltas
  rw [entries_append] at hdeltas
  refine lt_of_mem_offsets _ (fun e he => hdeltas e (List.mem_append_right _ he)) _ ?_
  cases vs with
  | nil => exact fun e he => absurd he (Option.not_mem_none e)
  | cons b ws =>
      intro e he
      rw [entries_cons, List.head?_cons, Option.mem_some_iff] at he
      subst he
      have hprefix : us <+: t.cell.reached (t.passed now) (us ++ b :: ws) := by rw [hus]
      rcases Heap.carriesFit_split hfits hprefix with ⟨hleft, hrest⟩
      -- The loop has stopped at node `b`.
      rcases t.cell.reached_prefix (t.passed now) (us ++ b :: ws) with ⟨xs, hxs, hstop⟩
      rw [hus] at hxs hstop
      rw [← List.append_cancel_left hxs] at hstop
      have hneg := hstop b (Option.mem_some_self b)
      have hle := (timevalSubtract_spec hrest.1).2.2.1 hneg
      rw [hleft, passed_value hlast hclock] at hle
      refine lt_of_le_of_ne hle ?_
      intro heq
      have ho : total (t.cell.entries us) + (t.cell b).deltaTime.value
          = now.value - t.lasttime.value := by
        dsimp only at heq
        omega
      exact hcond b ws rfl ho ((negative_iff hlast hclock hfits hprefix ho).mp hneg)

end TimerList

/-- In a list without negative differences that any calls have left, an expiry
    whose carries fit is exact if and only if the elapsed time does not come to a
    whole second of microseconds at a timer that is due at this very moment. -/
theorem expires_exactly_iff (cell : Heap) (lasttime : Timeval) (calls : List TimerCall)
    (t : TimerList)
    (hrun : Machine.run TimerList.call (TimerList.empty cell lasttime) calls = some t)
    (hlast : t.lasttime ≠ ⟨0, 0⟩) (hdeltas : ∀ e ∈ t.cell.entries t.nodes, 0 ≤ e.2) (now : Timeval)
    (hclock : CarryFits now t.lasttime) (hfits : t.cell.CarriesFit (t.passed now) t.nodes) :
    t.ExpiresExactly now ↔ ∀ us a vs, t.nodes = us ++ a :: vs →
      total (t.cell.entries us) + (t.cell a).deltaTime.value = now.value - t.lasttime.value →
      ¬t.WholeSecondAt now us a := by
  have h : t.WellFormed t.nodes := ⟨TimerList.linked_run hrun, hdeltas⟩
  have hpassed := TimerList.passed_value hlast hclock
  rcases TimerList.updateTimeList_value h now hfits with
    ⟨t', us, ws, ht', hnodes, hus, hwf, hent, hoff⟩
  rw [hpassed] at hent hoff
  unfold TimerList.ExpiresExactly
  generalize t.nodes = l at *
  subst hnodes
  constructor
  · rintro ⟨u', ids, hu', _, hstay, _⟩ vs a vs' hsplit ho hwhole
    rw [ht', Option.some.injEq, Prod.mk.injEq] at hu'
    rw [← hu'.1, hwf.nodes_eq] at hstay
    -- The timer is due, so it is not among those that stay.
    have hdue := TimerList.due_of_offset (hsplit ▸ h.toLinked) _ (Int.le_of_eq ho)
    have hnot : a ∉ ws := by
      intro ha
      rw [hstay, List.mem_filter, hdue] at ha
      exact Bool.false_ne_true ha.2
    -- It has been passed, and the difference was not called negative.
    rcases TimerList.exists_split_left hsplit hnot with ⟨rest, hrest⟩
    rw [hsplit] at hfits hus
    have hpast : vs ++ [a] <+: t.cell.reached (t.passed now) (vs ++ a :: vs') := by
      rw [← hus, hrest]
      exact ⟨rest, (List.append_cons vs a rest).symm⟩
    have hneg := (TimerList.negative_iff hlast hclock hfits
      ((List.prefix_append vs [a]).trans hpast) ho).mpr hwhole
    rw [Heap.reached_passed hpast] at hneg
    exact Bool.false_ne_true hneg
  · intro hcond
    have hlt := TimerList.lt_of_stopped h hlast hclock hfits hus.symm fun b vs hvs ho =>
      hcond us b vs (hvs ▸ rfl) ho
    rcases TimerList.filter_due h.toLinked _ hoff hlt with ⟨hdue, hnot⟩
    refine ⟨t', _, ht', ?_, ?_, fun k => ?_⟩
    · rw [hdue]
    · rw [hnot, hwf.nodes_eq]
    · rw [hwf.remaining_eq, hent]
      exact TimerList.remaining_advanced h.toLinked _ hoff hlt k

/-- Timers of 0.5 and 0.75 seconds both expire when 0.75 seconds have passed. -/
theorem expires_exactly_two :
    ∃ t, Machine.run TimerList.call (TimerList.empty (fun _ => ⟨0, ⟨0, 0⟩, none, none⟩) ⟨0, 0⟩)
      [.add 1 (1 / 2) ⟨10, 0⟩, .add 2 (3 / 4) ⟨10, 0⟩] = some t ∧ t.nodes = [0, 1] ∧
      t.ExpiresExactly ⟨10, 750000⟩ := by
  have hrun : (Machine.run TimerList.call
      (TimerList.empty (fun _ => ⟨0, ⟨0, 0⟩, none, none⟩) ⟨0, 0⟩)
      [.add 1 (1 / 2) ⟨10, 0⟩, .add 2 (3 / 4) ⟨10, 0⟩]).map (fun t => (t.nodes, t.lasttime,
        t.nodes.map fun a => (t.cell a).deltaTime, decide ((∀ e ∈ t.cell.entries t.nodes, 0 ≤ e.2) ∧
          t.cell.CarriesFit (t.passed ⟨10, 750000⟩) t.nodes)))
      = some ([0, 1], ⟨10, 0⟩, [⟨0, 500000⟩, ⟨0, 250000⟩], true) := by
    decide +kernel
  rcases Option.map_eq_some_iff.mp hrun with ⟨t, ht, heq⟩
  simp only [Prod.mk.injEq, decide_eq_true_eq] at heq
  rcases heq with ⟨hnodes, hlast, hdeltas, hnonneg, hfits⟩
  refine ⟨t, ht, hnodes,
    (expires_exactly_iff _ _ _ t ht (by rw [hlast]; decide) hnonneg _ (by rw [hlast]; decide)
      hfits).mpr ?_⟩
  rw [hnodes] at hdeltas ⊢
  simp only [List.map_cons, List.map_nil, List.cons.injEq, and_true] at hdeltas
  rw [hlast]
  intro us a vs hsplit ho
  rcases us with _ | ⟨u, _ | ⟨v, us⟩⟩
  · -- The first timer is due before.
    rw [List.nil_append, List.cons.injEq] at hsplit
    rw [← hsplit.1, hdeltas.1] at ho
    cases ho
  · simp only [List.cons_append, List.nil_append, List.cons.injEq] at hsplit
    rcases hsplit with ⟨rfl, rfl, -⟩
    unfold TimerList.WholeSecondAt
    rw [hlast, List.singleton_append, List.map_cons, List.map_cons, hdeltas.1, hdeltas.2]
    exact (by decide : (0 : Int) ≠ 1000000)
  · simp only [List.cons_append, List.cons.injEq] at hsplit
    exact absurd hsplit.2.2.symm (List.append_ne_nil_of_right_ne_nil _ (List.cons_ne_nil _ _))

/-- With a second timer behind it, the first is not passed when its 0.6 seconds
    are over: the comparison with the second has left it one second less 400000
    microseconds, and the difference to 600000 microseconds is not more than a
    second. -/
theorem due_timer_missed :
    ∃ t, Machine.run TimerList.call (TimerList.empty (fun _ => ⟨0, ⟨0, 0⟩, none, none⟩) ⟨0, 0⟩)
      [.add 1 (seconds 600000) ⟨10, 0⟩, .add 2 (seconds 1200000) ⟨10, 0⟩] = some t ∧
      t.lasttime = ⟨10, 0⟩ ∧
      t.remaining 1 = some 600000 ∧ ¬t.ExpiresExactly ⟨10, 600000⟩ := by
  have hrun : (Machine.run TimerList.call
      (TimerList.empty (fun _ => ⟨0, ⟨0, 0⟩, none, none⟩) ⟨0, 0⟩)
      [.add 1 (seconds 600000) ⟨10, 0⟩, .add 2 (seconds 1200000) ⟨10, 0⟩]).map (fun t =>
        (t.lasttime, t.remaining 1, (t.updateTimeList ⟨10, 600000⟩).map Prod.snd,
          t.cell.ids (t.nodes.filter (t.due 600000))))
      = some (⟨10, 0⟩, some 600000, some [], [1]) := by
    decide +kernel
  rcases Option.map_eq_some_iff.mp hrun with ⟨t, ht, heq⟩
  simp only [Prod.mk.injEq] at heq
  rcases heq with ⟨hlast, hrem, hwrites, hdue⟩
  refine ⟨t, ht, hlast, hrem, ?_⟩
  rintro ⟨t', ids, hu, hids, _⟩
  -- No request is written, and one should be.
  rw [hlast] at hids
  rw [hu, Option.map_some, Option.some.injEq] at hwrites
  have hone : ids = [1] := hids.trans hdue
  cases hwrites.symm.trans hone

end Cse5462
