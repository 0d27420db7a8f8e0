import Cse5462.Tcpd.TimerFrame
import Cse5462.Tcpd.TimerLoop

/-!
# Valid Timeouts

`select` fails on a timeout with negative seconds or with microseconds outside a
second, and the timer process exits. The timeout is the difference of a node, as
the comparisons have left it: a comparison with a timer of fewer microseconds
borrows a second from the head, so that the head is left with a negative number
of microseconds.

What the process keeps is that `timeout1` is the head or a node that has left
the list, and that the elapsed time is normalised. On these grounds the turns
that leave an invalid timeout are told by the microseconds of the head, as long
as the carry of a comparison with it fits.

## Main definitions

* `TimerProcess.Waiting`: The invariant.
* `HeadFits`: A new timer that leaves the head with a valid difference.
* `TimerProcess.KeepsValid`: The turn leaves a valid timeout.
* `TimerProcess.CarriesFit`: The carries of a start fit.

## Theorems

* `headFits_iff`: The difference of the head after an insertion.
* `step_waiting`: A turn keeps the invariant.
* `step_valid`, `step_valid_iff`: What a turn makes of a valid timeout.
* `timeout_valid_iff`: When all timeouts are valid.
-/

namespace Cse5462

theorem carry_tvUsec {x y : Timeval} (h : CarryFits x y) :
    (carry x y).tvUsec = x.tvUsec - microsLeft x.tvUsec y.tvUsec := by
  have := carry_micros h
  omega

/-- The timer `new` leaves a valid difference at the head of the list, whose
    difference is `head` and not negative: the microseconds of the two are the same,
    as they stand or more than a second apart, or those of the head are fewer and
    the head is not due after it. -/
def HeadFits (new head : Timeval) : Prop :=
  0 ≤ head.value ∧
    ((head.tvUsec % 1000000 = new.tvUsec ∧
      (head.tvUsec = new.tvUsec ∨ head.tvUsec ≤ new.tvUsec - 2000000)) ∨
    (head.tvUsec % 1000000 < new.tvUsec ∧ head.value ≤ new.value))

instance (new head : Timeval) : Decidable (HeadFits new head) := by
  unfold HeadFits
  exact inferInstance

/-- The new head is the new timer, carried for its subtraction from the old
    head, or the old head, carried for its subtraction from the new timer. -/
theorem headFits_iff {new head : Timeval} (hnew : new.Valid) (hfits : CarryFits new head) :
    (if (timevalSubtract new head).negative then (carry (carry new head) new).Valid
      else (carry new head).Valid) ↔ HeadFits new head := by
  have hnonneg := hnew.value_nonneg
  have hneg := timevalSubtract_negative_iff hfits
  unfold HeadFits
  by_cases hhead : 0 ≤ head.value
  · rw [and_iff_right hhead]
    unfold Timeval.Valid at hnew
    split
    · rename_i hsub
      rw [hsub] at hneg
      rw [valid_iff (by rw [carry_value (carryFits_carried hfits)]; exact hnonneg),
        carry_tvUsec (carryFits_carried hfits), carry_tvUsec hfits]
      have hcase := hneg.mp rfl
      unfold microsLeft at hcase ⊢
      split at hcase <;> split <;> omega
    · rename_i hsub
      rw [iff_false_left hsub] at hneg
      rw [valid_iff (by rw [carry_value hfits]; exact hhead), carry_tvUsec hfits]
      unfold microsLeft at hneg ⊢
      split at hneg <;> omega
  · -- The head stays in front, and stays negative.
    rw [if_neg fun hsub => by have := hneg.mp hsub; omega]
    refine iff_of_false (fun hvalid => hhead ?_) fun hor => hhead hor.1
    rw [← carry_value hfits]
    exact hvalid.value_nonneg

namespace TimerProcess

/-- `timeout1` is the head of the list or not in it, and `lasttime` is
    normalised. -/
structure Waiting (p : TimerProcess) : Prop where
  sound : p.Sound
  target : ∀ a ∈ p.timeout1, p.list.nodes.head? = some a ∨ a ∉ p.list.nodes
  clock : 0 ≤ p.list.lasttime.tvUsec ∧ p.list.lasttime.tvUsec < 1000000

/-- A start of a pending timer finds the head valid. A start of a new one is stored
    with microseconds that are part of a second, its carry with the head of the list
    fits, and it is for a timer that fits the head. A timeout that takes the head off,
    and not all of the list, finds no more microseconds in its difference than in the
    elapsed time. -/
def KeepsValid (p : TimerProcess) : TimerEvent → Prop
  | .command m left _ => p.TimeoutValid → m.operation = .start →
      if m.id ∈ p.pending then
        ∀ a ∈ p.list.nodes.head?, ((p.wake left).cell a).deltaTime.Valid
      else
        (Timeval.ofSeconds m.interval).Valid ∧ ∀ a ∈ p.list.nodes.head?,
          CarryFits (Timeval.ofSeconds m.interval) ((p.wake left).cell a).deltaTime ∧
            HeadFits (Timeval.ofSeconds m.interval) ((p.wake left).cell a).deltaTime
  | .timeout left now => p.TimeoutValid → ∀ a ∈ p.timeout1, a ∈ p.list.nodes →
      p.expiring left now.toTimeval = [] ∨ p.expiring left now.toTimeval = p.list.nodes ∨
        ((p.wake left).cell a).deltaTime.tvUsec ≤ ((p.wake left).passed now.toTimeval).tvUsec

/-- The interval of a start is stored with microseconds that are part of a second, and
    on its way to its place all carries fit. -/
def CarriesFit (p : TimerProcess) : TimerEvent → Prop
  | .command m left _ => m.operation = .start → m.id ∉ p.pending →
      (Timeval.ofSeconds m.interval).Valid ∧
        (p.wake left).cell.CarriesFit (Timeval.ofSeconds m.interval) p.list.nodes
  | .timeout _ _ => True

instance (p : TimerProcess) (e : TimerEvent) : Decidable (p.KeepsValid e) :=
  match e with
  | .command _ _ _ => inferInstanceAs (Decidable (_ → _))
  | .timeout _ _ => inferInstanceAs (Decidable (_ → _))

variable {p p' : TimerProcess} {e : TimerEvent}

/-- What `select` stores is valid. -/
theorem wake_valid (h : p.TimeoutValid) (left : Option Nat) :
    ∀ a ∈ p.timeout1, ((p.wake left).cell a).deltaTime.Valid := by
  intro a ha
  have hvalid := h a ha
  rw [Option.mem_def] at ha
  unfold wake
  rw [ha]
  cases left with
  | none => exact hvalid
  | some n =>
      dsimp only
      rw [Heap.setDelta_deltaTime, if_pos rfl]
      exact valid_ofMicros n

/-- A node that is the head or not in the list, when another one is taken out,
    or the node itself. -/
theorem head_or_gone_of_erase (us : List Nat) {vs : List Nat} {a x : Nat}
    (hnodup : (us ++ a :: vs).Nodup) (h : (us ++ a :: vs).head? = some x ∨ x ∉ us ++ a :: vs) :
    (us ++ vs).head? = some x ∨ x ∉ us ++ vs := by
  rcases h with hhead | hnot
  · cases us with
    | nil =>
        -- The head has gone.
        rw [List.nil_append, List.head?_cons, Option.some.injEq] at hhead
        exact Or.inr (hhead ▸ (List.nodup_cons.mp hnodup).1)
    | cons u us => exact Or.inl hhead
  · refine Or.inr ?_
    intro hmem
    refine hnot ?_
    rw [List.mem_append, List.mem_cons]
    exact (List.mem_append.mp hmem).imp_right Or.inr

/-- The same when the front of the list is taken off. -/
theorem head_or_gone_of_drop {us vs : List Nat} {x : Nat} (hnodup : (us ++ vs).Nodup)
    (h : (us ++ vs).head? = some x ∨ x ∉ us ++ vs) : vs.head? = some x ∨ x ∉ vs := by
  induction us with
  | nil => exact h
  | cons u us ih => exact ih (List.nodup_cons.mp hnodup).2 (head_or_gone_of_erase [] hnodup h)

theorem waiting_init (cell : Heap) (now : ClockReading) : (init cell now.toTimeval).Waiting where
  sound := sound_init cell now.toTimeval
  target := fun a ha => absurd ha (Option.not_mem_none a)
  clock := ⟨now.usec_nonneg, now.usec_lt⟩

/-- The elapsed time is normalised. -/
theorem passed_micros (h : p.Waiting) (left : Option Nat) (now : ClockReading) :
    0 ≤ ((p.wake left).passed now.toTimeval).tvUsec ∧
      ((p.wake left).passed now.toTimeval).tvUsec < 1000000 := by
  have hclock := h.clock
  have hnow := now.usec_nonneg
  have hlt := now.usec_lt
  rw [← (wake_links p left).2.2.1] at hclock
  unfold TimerList.passed
  split
  · exact hclock
  · have hmicros := carry_micros (x := now.toTimeval) (y := (p.wake left).lasttime)
      ⟨by omega, by omega⟩
    unfold timevalSubtract
    dsimp only
    rw [hmicros]
    unfold microsLeft
    split <;> omega

/-- A turn keeps the invariant. -/
theorem step_waiting (h : p.Waiting) (hstep : p.step e = some p') : p'.Waiting := by
  have hsound := step_sound h.sound hstep
  cases e with
  | command m left now =>
      rcases wake_spec h.sound left with ⟨hlinked, hids⟩
      have hclock := h.clock
      rw [← (wake_links p left).2.2.1] at hclock
      cases hm : m.operation with
      | start =>
          rcases command_start hm hstep with ⟨t, ht, rfl⟩
          refine ⟨hsound, fun a ha => Or.inl (hsound.head_eq ▸ ha), ?_⟩
          -- The clock is read for the first timer only.
          by_cases hnil : p.list.nodes = []
          · rw [hnil] at hlinked
            rw [TimerList.addTimenode_empty hlinked, Option.some.injEq] at ht
            subst ht
            exact ⟨now.usec_nonneg, now.usec_lt⟩
          · dsimp only
            rw [TimerList.addTimenode_lasttime hlinked hnil ht]
            exact hclock
      | cancel =>
          rcases command_cancel hm hstep with ⟨t, ht, rfl⟩
          refine ⟨hsound, fun a ha => ?_, ?_⟩
          · dsimp only at ha ⊢
            by_cases hid : m.id ∈ p.pending
            · rcases TimerList.deleteTimenode_present hlinked (hids ▸ hid) with
                ⟨t', us, b, vs, ht', hsplit, -, hlinked', -⟩
              rw [ht, Option.some.injEq] at ht'
              subst ht'
              have hnodup := h.sound.links.nodup
              have htarget := h.target a ha
              rw [hsplit] at hnodup htarget
              rw [hlinked'.nodes_eq]
              exact head_or_gone_of_erase us hnodup htarget
            · rw [TimerList.deleteTimenode_absent hlinked (hids ▸ hid), Option.some.injEq] at ht
              subst ht
              rw [hlinked.nodes_eq]
              exact h.target a ha
          · dsimp only
            rw [TimerList.deleteTimenode_lasttime ht]
            exact hclock
  | timeout left now =>
      rcases wake_spec h.sound left with ⟨hlinked, -⟩
      rcases Option.map_eq_some_iff.mp hstep with ⟨⟨q, ids⟩, hq, rfl⟩
      rcases timeout_eq hq with ⟨-, -, t, ht, rfl⟩
      rcases TimerList.updateTimeList_reached hlinked now.toTimeval with
        ⟨t', vs, ht', hvs, helapsed⟩
      rw [ht, Option.some.injEq, Prod.mk.injEq] at ht'
      rcases ht' with ⟨rfl, -⟩
      generalize (p.wake left).cell.reached ((p.wake left).passed now.toTimeval) p.list.nodes
        = us at *
      refine ⟨hsound, fun a ha => ?_, ?_⟩
      · dsimp only at ha ⊢
        split at ha
        · exact absurd ha (Option.not_mem_none a)
        · rw [helapsed.linked.nodes_eq]
          have hnodup := h.sound.links.nodup
          have htarget := h.target a ha
          rw [hvs] at hnodup htarget
          exact head_or_gone_of_drop hnodup htarget
      · dsimp only
        rw [helapsed.lasttime]
        exact ⟨now.usec_nonneg, now.usec_lt⟩

/-- A start leaves the head with a valid difference, pending or not. -/
theorem start_valid (h : p.Sound) {m : Message} (hm : m.operation = .start) {left : Option Nat}
    {now : ClockReading} (hkeeps : p.KeepsValid (.command m left now))
    (hstep : p.step (.command m left now) = some p') : p'.TimeoutValid := by
  rcases wake_spec h left with ⟨hlinked, hids⟩
  have hhead : (p.wake left).head = p.list.nodes.head? := hlinked.links.head_eq
  have hv := command_valid hstep
  rcases command_start hm hstep with ⟨t, ht, rfl⟩
  replace hkeeps := hkeeps hv hm
  by_cases hid : m.id ∈ p.pending
  · -- The list is as it was.
    rw [TimerList.addTimenode_present hlinked (hids ▸ hid), Option.some.injEq] at ht
    rw [if_pos hid, ← hhead] at hkeeps
    subst ht
    exact hkeeps
  · rw [if_neg hid] at hkeeps
    cases hnodes : p.list.nodes with
    | nil =>
        rw [hnodes] at hlinked
        rw [TimerList.addTimenode_empty hlinked, Option.some.injEq] at ht
        subst ht
        intro a ha
        rw [Option.mem_some_iff] at ha
        subst ha
        dsimp only
        rw [(TimerList.malloc_spec hlinked m.id m.interval).1]
        exact hkeeps.1
    | cons a vs =>
        rw [hnodes] at hlinked hids hkeeps
        rcases hkeeps.2 a rfl with ⟨hcarry, hfits⟩
        have hfirst := TimerList.addTimenode_head hlinked (hids ▸ hid) hcarry ht
        have hiff := headFits_iff hkeeps.1 hcarry
        intro b hb
        dsimp only at hb
        split at hfirst
        · rename_i hneg
          rw [if_pos hneg] at hiff
          rw [hfirst.1, Option.mem_some_iff] at hb
          subst hb
          rw [hfirst.2]
          exact hiff.mpr hfits
        · rename_i hneg
          rw [if_neg hneg] at hiff
          rw [hfirst.1, Option.mem_some_iff] at hb
          subst hb
          rw [hfirst.2]
          exact hiff.mpr hfits

/-- Where the carries fit, a start that leaves a valid timeout has met the
    condition. -/
theorem start_keeps (h : p.Sound) {m : Message} {left : Option Nat} {now : ClockReading}
    (hfits : p.CarriesFit (.command m left now))
    (hnext : ∀ p', p.step (.command m left now) = some p' → p'.TimeoutValid) :
    p.KeepsValid (.command m left now) := by
  intro hv hm
  rcases wake_spec h left with ⟨hlinked, hids⟩
  have hhead : (p.wake left).head = p.list.nodes.head? := hlinked.links.head_eq
  rw [step_start hv hm] at hnext
  split
  · rename_i hid
    rw [TimerList.addTimenode_present hlinked (hids ▸ hid), Option.map_some] at hnext
    rw [← hhead]
    exact hnext _ rfl
  · rename_i hid
    rcases hfits hm hid with ⟨hvalid, hcarries⟩
    refine ⟨hvalid, fun a ha => ?_⟩
    rcases List.head?_eq_some_iff.mp ha with ⟨vs, hvs⟩
    rw [hvs] at hlinked hids hcarries
    refine ⟨hcarries.1, (headFits_iff hvalid hcarries.1).mp ?_⟩
    rcases TimerList.addTimenode_new hlinked (hids ▸ hid) hcarries now.toTimeval with
      ⟨t, _, _, ht, -⟩
    have hfirst := TimerList.addTimenode_head hlinked (hids ▸ hid) hcarries.1 ht
    rw [ht, Option.map_some] at hnext
    have hhead' := hnext _ rfl
    unfold TimeoutValid at hhead'
    dsimp only at hhead'
    -- Either the new node is the head, or the old head with its microseconds carried.
    split
    · rename_i hneg
      rw [if_pos hneg] at hfirst
      rw [← hfirst.2]
      exact hhead' _ (hfirst.1 ▸ Option.mem_some_self _)
    · rename_i hneg
      rw [if_neg hneg] at hfirst
      rw [← hfirst.2]
      exact hhead' _ (hfirst.1 ▸ Option.mem_some_self _)

/-- A cancellation leaves the timeout alone. -/
theorem cancel_valid (h : p.Waiting) (hv : p.TimeoutValid) (m : Message)
    (hm : m.operation = .cancel) (left : Option Nat) (now : ClockReading)
    (hstep : p.step (.command m left now) = some p') : p'.TimeoutValid := by
  rcases wake_spec h.sound left with ⟨hlinked, -⟩
  rcases command_cancel hm hstep with ⟨t, ht, rfl⟩
  intro a ha
  -- Only nodes behind the head are written to.
  have hnot : a ∉ p.list.nodes.tail := by
    rcases h.target a ha with hhead | hnot
    · rcases List.head?_eq_some_iff.mp hhead with ⟨vs, hvs⟩
      have hnodup := h.sound.links.nodup
      rw [hvs] at hnodup ⊢
      exact (List.nodup_cons.mp hnodup).1
    · exact fun hmem => hnot (List.mem_of_mem_tail hmem)
  dsimp only
  rw [TimerList.deleteTimenode_frame hlinked ht hnot]
  exact wake_valid hv left a ha

/-- The microseconds of the head after the elapsed time has been taken off it. -/
theorem microsLeft_head {d u : Int} (hd : 0 ≤ d ∧ d < 1000000) (hu : 0 ≤ u ∧ u < 1000000) :
    0 ≤ microsLeft (d - microsLeft d u) d ∧ microsLeft (d - microsLeft d u) d < 1000000 := by
  unfold microsLeft
  split <;> split <;> omega

/-- The microseconds of a node that has expired. -/
theorem microsLeft_expired {d u : Int} (hd : 0 ≤ d ∧ d < 1000000) (hu : 0 ≤ u ∧ u < 1000000) :
    (0 ≤ d - microsLeft d u ∧ d - microsLeft d u < 1000000) ↔ u ≤ d := by
  unfold microsLeft
  split <;> omega

/-- A timeout that takes the head off and leaves other timers leaves the process
    with the carried difference of the old head. -/
theorem timeout_keeps_iff (h : p.Waiting) (hv : p.TimeoutValid) (left : Option Nat)
    (now : ClockReading) :
    (∀ p', p.step (.timeout left now) = some p' → p'.TimeoutValid) ↔
      p.KeepsValid (.timeout left now) := by
  rcases wake_spec h.sound left with ⟨hlinked, -⟩
  have hd := passed_micros h left now
  have hvalid := wake_valid hv left
  simp only [KeepsValid, hv, true_imp_iff]
  unfold expiring
  cases hout : p.timeout1 with
  | none =>
      rw [step_forever hout]
      exact iff_of_true (fun p' hp' => absurd hp'.symm (Option.some_ne_none p'))
        fun a ha => absurd ha (Option.not_mem_none a)
  | some a =>
      have hne : p.timeout1 ≠ none := hout ▸ Option.some_ne_none a
      have htarget := h.target a hout
      have hu := hvalid a hout
      rcases TimerList.updateTimeList_reached hlinked now.toTimeval with
        ⟨t', vs, ht', hvs, helapsed⟩
      rcases (p.wake left).cell.reached_prefix ((p.wake left).passed now.toTimeval) p.list.nodes
        with ⟨ws, hws, hstop⟩
      have hhead' : t'.head = vs.head? := helapsed.linked.links.head_eq
      have hfirst := helapsed.first
      have hnew := helapsed.head
      have hrest := helapsed.frame
      rw [step_timeout hv hne, ht', Option.map_some]
      unfold TimeoutValid
      simp only [Option.some.injEq, forall_eq', Option.mem_some_iff, hhead', hout]
      generalize (p.wake left).passed now.toTimeval = d at *
      generalize (p.wake left).cell.reached d p.list.nodes = us at *
      rw [hvs] at htarget hws ⊢
      rw [← List.append_cancel_left hws] at hstop
      -- The carry of a normalised time and the timeout fits.
      have hfits : CarryFits d ((p.wake left).cell a).deltaTime := by
        unfold Timeval.Valid at hu
        exact ⟨by omega, by omega⟩
      cases vs with
      | nil =>
          -- There is no timeout then.
          rw [List.append_nil]
          exact iff_of_true (fun b hb => absurd hb (Option.not_mem_none b))
            fun _ => Or.inr (Or.inl rfl)
      | cons b vs =>
          simp only [List.head?_cons, reduceCtorEq, if_false, Option.mem_some_iff, forall_eq']
          rcases htarget with hhead | hnot
          · cases us with
            | nil =>
                -- The head stays, and the elapsed time is taken off it.
                rw [List.nil_append, List.head?_cons, Option.some.injEq] at hhead
                subst hhead
                refine iff_of_true ?_ fun _ => Or.inl rfl
                have hle := (timevalSubtract_spec hfits).2.2.1 (hstop b (Option.mem_some_self b))
                have hcarried := carryFits_carried hfits
                have hvalue := (timevalSubtract_spec hcarried).1
                rw [carry_value hfits] at hvalue
                rw [hnew b (Option.mem_some_self b)]
                refine (valid_iff ?_).mpr ?_
                · rw [Heap.leftOver, hvalue]
                  omega
                · unfold Heap.leftOver timevalSubtract
                  dsimp only
                  rw [carry_micros hcarried, carry_tvUsec hfits]
                  exact microsLeft_head hd hu.2
            | cons c us =>
                rw [List.cons_append, List.head?_cons, Option.some.injEq] at hhead
                subst hhead
                have hlong : c :: us ≠ c :: us ++ b :: vs := fun heq =>
                  List.cons_ne_nil b vs (List.self_eq_append_right.mp heq)
                rw [hfirst c (Option.mem_some_self c), carry_again hfits,
                  valid_iff (by rw [carry_value hfits]; exact hu.value_nonneg), carry_tvUsec hfits,
                  microsLeft_expired hd hu.2]
                refine ⟨fun hle _ => Or.inr (Or.inr hle), ?_⟩
                intro hor
                rcases hor (List.mem_append_left _ List.mem_cons_self) with hnil | hall | hle
                · cases hnil
                · exact absurd hall hlong
                · exact hle
          · have hnotus : a ∉ us := fun hmem => hnot (List.mem_append_left _ hmem)
            have hnotvs : a ∉ (b :: vs).head? := fun hmem =>
              hnot (List.mem_append_right _ (List.mem_of_head? hmem))
            rw [hrest a hnotus hnotvs]
            exact iff_of_true hu fun hmem => absurd hmem hnot

/-- A turn keeps the timeout valid under the condition. -/
theorem step_valid (h : p.Waiting) (hv : p.TimeoutValid) (hkeeps : p.KeepsValid e)
    (hstep : p.step e = some p') : p'.TimeoutValid := by
  cases e with
  | command m left now =>
      cases hm : m.operation with
      | start => exact start_valid h.sound hm hkeeps hstep
      | cancel => exact cancel_valid h hv m hm left now hstep
  | timeout left now => exact (timeout_keeps_iff h hv left now).mpr hkeeps p' hstep

/-- Where the carries fit, only such turns do. -/
theorem step_valid_iff (h : p.Waiting) (hv : p.TimeoutValid) (hfits : p.CarriesFit e) :
    (∀ p', p.step e = some p' → p'.TimeoutValid) ↔ p.KeepsValid e := by
  refine ⟨fun hnext => ?_, fun hkeeps p' => step_valid h hv hkeeps⟩
  cases e with
  | command m left now => exact start_keeps h.sound hfits hnext
  | timeout left now => exact (timeout_keeps_iff h hv left now).mp hnext

end TimerProcess

open TimerProcess in
/-- Every timeout that the process hands to `select` is valid in a run whose turns all
    meet the condition and, if the carries of its starts fit, in no others. -/
theorem timeout_valid_iff (cell : Heap) (now : ClockReading) (events : List TimerEvent) :
    (Machine.Meets step KeepsValid (init cell now.toTimeval) events →
      Machine.Throughout step TimeoutValid (init cell now.toTimeval) events) ∧
    (Machine.Meets step CarriesFit (init cell now.toTimeval) events →
      (Machine.Throughout step TimeoutValid (init cell now.toTimeval) events ↔
        Machine.Meets step KeepsValid (init cell now.toTimeval) events)) := by
  have hinit : (init cell now.toTimeval).Waiting ∧ (init cell now.toTimeval).TimeoutValid :=
    ⟨waiting_init cell now, fun a ha => absurd ha (Option.not_mem_none a)⟩
  have hmain : Machine.Meets step KeepsValid (init cell now.toTimeval) events →
      Machine.Throughout step TimeoutValid (init cell now.toTimeval) events :=
    Machine.throughout_of_meets (P := fun p => p.Waiting ∧ p.TimeoutValid) (R := TimeoutValid)
      (fun p e p' h hkeeps hp => ⟨step_waiting h.1 hp, step_valid h.1 h.2 hkeeps hp⟩)
      (fun p h => h.2) events _ hinit
  refine ⟨hmain, fun hfits => ⟨fun hthrough => ?_, hmain⟩⟩
  rw [Machine.throughout_iff_meets] at hthrough
  -- Each turn leaves a valid timeout, and its carries fit.
  exact Machine.meets_of_invariant (P := fun p => p.Waiting ∧ p.TimeoutValid)
    (fun p e p' h hboth hp => ⟨step_waiting h.1 hp, hboth.2 p' hp⟩)
    (fun p e h hboth => (step_valid_iff h.1 h.2 hboth.1).mp hboth.2) events _ hinit
    (Machine.meets_and hfits hthrough.2)

open TimerProcess in
/-- A timer of 10 seconds expires before one of 20.25 seconds, and then a timer is
    started that goes in front of that one. -/
theorem timeouts_valid_in_front :
    Machine.Throughout step TimeoutValid (init (fun _ => ⟨0, ⟨0, 0⟩, none, none⟩) ⟨100, 0⟩)
      [.command (starttimer 10 1) none ⟨⟨100, 0⟩, by decide, by decide⟩,
        .command (starttimer (81 / 4) 2) (some 5000000) ⟨⟨105, 0⟩, by decide, by decide⟩,
        .timeout none ⟨⟨110, 0⟩, by decide, by decide⟩,
        .command (starttimer (21 / 4) 3) none ⟨⟨111, 0⟩, by decide, by decide⟩] :=
  (timeout_valid_iff _ ⟨⟨100, 0⟩, by decide, by decide⟩ _).1 (by decide +kernel)

open TimerProcess in
/-- A timer of 10.5 seconds is started, and then one of 20 seconds. The
    comparison leaves the first, which is the timeout, at 11 seconds less half a
    second. -/
theorem timeout_not_valid :
    ¬Machine.Throughout step TimeoutValid (init (fun _ => ⟨0, ⟨0, 0⟩, none, none⟩) ⟨100, 0⟩)
      [.command (starttimer (21 / 2) 1) none ⟨⟨100, 0⟩, by decide, by decide⟩,
        .command (starttimer 20 2) none ⟨⟨100, 0⟩, by decide, by decide⟩] := by
  intro h
  have hrun : (Machine.run step (init (fun _ => ⟨0, ⟨0, 0⟩, none, none⟩) ⟨100, 0⟩)
      [.command (starttimer (21 / 2) 1) none ⟨⟨100, 0⟩, by decide, by decide⟩,
        .command (starttimer 20 2) none ⟨⟨100, 0⟩, by decide, by decide⟩]).map
      (fun p => (p.timeout1, (p.list.cell 0).deltaTime)) = some (some 0, ⟨11, -500000⟩) := by
    decide +kernel
  rcases Option.map_eq_some_iff.mp hrun with ⟨p, hp, heq⟩
  rw [Prod.mk.injEq] at heq
  have hvalid := h _ p (List.prefix_refl _) hp 0 heq.1
  rw [heq.2] at hvalid
  exact absurd hvalid.2.1 (by decide)

end Cse5462
