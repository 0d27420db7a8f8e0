import Cse5462.Tcpd.TimerProcess
import Cse5462.Tcpd.TimerReach

/-!
# The Loop of the Timer Process

The timer process turn by turn. Every turn begins with `select`, which waits for
as long as `timeout1` points to, and `timeout1` should be the head of the list.
It is set to the head when a timer is started, and to null when a timeout leaves
the list empty. A cancellation of the head and a timeout that takes some timers
off and leaves others do not set it.

## Main definitions

* `ClockReading`: A time as the clock gives it.
* `TimerEvent`: What `select` comes back for.
* `TimerProcess.step`: A turn of the loop.
* `TimerProcess.WaitsOnHead`: `timeout1` is the head of the list.
* `TimerProcess.KeepsHead`: The turn does not take the head away from it.

## Theorems

* `step_sound`: A turn keeps the list linked.
* `step_waits_iff`: What a turn makes of `timeout1`.
* `waits_on_head_iff`: When the process always waits on the head.
-/

namespace Cse5462

/-- What `gettimeofday` stores. -/
structure ClockReading extends Timeval where
  usec_nonneg : 0 ≤ tvUsec
  usec_lt : tvUsec < 1000000

/-- `select` comes back with a command to read, or because the time is up. It
    may store the microseconds `left` in its timeout, and `now` is the clock
    reading that is taken then. -/
inductive TimerEvent where
  | command (m : Message) (left : Option Nat) (now : ClockReading)
  | timeout (left : Option Nat) (now : ClockReading)

/-- Taking the head off the list, and nothing else, changes the head. -/
theorem TimerList.deleteTimenode_head_iff {t t' : TimerList} {l : List Nat} {id : Int}
    (h : t.Linked l) (ht : t.deleteTimenode id = some t') :
    t'.head = t.head ↔ ∀ a ∈ t.head, (t.cell a).id ≠ id := by
  have hhead : t.head = l.head? := h.links.head_eq
  by_cases hid : id ∈ t.cell.ids l
  · rcases deleteTimenode_present h hid with ⟨u, us, a, vs, hu, rfl, ha, hlinked, -⟩
    rw [ht, Option.some.injEq] at hu
    subst hu
    have hhead' : t'.head = (us ++ vs).head? := hlinked.links.head_eq
    cases us with
    | nil =>
        -- The head is another node now, or null.
        have hav := (List.nodup_cons.mp h.links.nodup).1
        rw [hhead, hhead', List.nil_append, List.nil_append, List.head?_cons]
        refine ⟨fun heq => ?_, fun hne => absurd ha (hne a (Option.mem_some_self a))⟩
        exact absurd (List.mem_of_head? heq) hav
    | cons u us =>
        have hids := h.ids
        rw [List.cons_append, ids_cons, List.nodup_cons, ids_append, ids_cons] at hids
        rw [hhead, hhead', List.cons_append, List.cons_append, List.head?_cons, List.head?_cons]
        refine ⟨fun _ x hx hxid => ?_, fun _ => rfl⟩
        rw [Option.mem_some_iff] at hx
        subst hx
        refine hids.1 (List.mem_append_right _ ?_)
        rw [ha, ← hxid]
        exact List.mem_cons_self
  · rw [deleteTimenode_absent h hid, Option.some.injEq] at ht
    subst ht
    refine ⟨fun _ a ha heq => hid ?_, fun _ => rfl⟩
    rw [hhead] at ha
    exact heq ▸ mem_ids.mpr ⟨a, List.mem_of_head? ha, rfl⟩

namespace TimerProcess

/-- A turn of the loop. -/
def step (p : TimerProcess) : TimerEvent → Option TimerProcess
  | .command m left now => p.command m left now.toTimeval
  | .timeout left now => (p.timeout left now.toTimeval).map Prod.fst

/-- `timeout1` is the difference of the head, and null if the list is empty. -/
def WaitsOnHead (p : TimerProcess) : Prop := p.timeout1 = p.list.nodes.head?

/-- The nodes that a timeout reaches. -/
def expiring (p : TimerProcess) (left : Option Nat) (now : Timeval) : List Nat :=
  (p.wake left).cell.reached ((p.wake left).passed now) p.list.nodes

/-- A cancellation is not for the head, and a timeout reaches no node or all, if the
    process comes to the turn at all. -/
def KeepsHead (p : TimerProcess) : TimerEvent → Prop
  | .command m _ _ => p.TimeoutValid → m.operation = .cancel →
      ∀ a ∈ p.list.nodes.head?, (p.list.cell a).id ≠ m.id
  | .timeout left now => p.TimeoutValid →
      p.expiring left now.toTimeval = [] ∨ p.expiring left now.toTimeval = p.list.nodes

variable {p p' : TimerProcess} {e : TimerEvent}

theorem Sound.head_eq (h : p.Sound) : p.list.head = p.list.nodes.head? := h.links.head_eq

section Turns

variable {m : Message} {left : Option Nat} {now : ClockReading}

/-- On a timeout that is not valid the process exits. -/
theorem step_exit (hv : ¬ p.TimeoutValid) (e : TimerEvent) : p.step e = none := by
  cases e with
  | command m left now => exact if_neg hv
  | timeout left now =>
      unfold step timeout
      dsimp only
      rw [if_neg fun hok => hv hok.2, Option.map_none]

theorem step_start (hv : p.TimeoutValid) (hm : m.operation = .start) :
    p.step (.command m left now)
      = ((p.wake left).addTimenode m.id m.interval now.toTimeval).map
        fun t => { list := t, timeout1 := t.head } := by
  unfold step command
  dsimp only
  rw [if_pos hv, hm]

theorem step_cancel (hv : p.TimeoutValid) (hm : m.operation = .cancel) :
    p.step (.command m left now)
      = ((p.wake left).deleteTimenode m.id).map fun t => { p with list := t } := by
  unfold step command
  dsimp only
  rw [if_pos hv, hm]

theorem step_timeout (hv : p.TimeoutValid) (hout : p.timeout1 ≠ none) :
    p.step (.timeout left now) = ((p.wake left).updateTimeList now.toTimeval).map fun r =>
      { list := r.1, timeout1 := if r.1.head = none then none else p.timeout1 } := by
  unfold step timeout
  dsimp only
  rw [if_pos ⟨hout, hv⟩, Option.map_map]
  rfl

/-- Without a timeout `select` waits for a command. -/
theorem step_forever (hout : p.timeout1 = none) : p.step (.timeout left now) = none := by
  unfold step timeout
  dsimp only
  rw [if_neg fun hok => hok.1 hout, Option.map_none]

end Turns

/-- A turn keeps the list linked. -/
theorem step_sound (h : p.Sound) (hstep : p.step e = some p') : p'.Sound := by
  cases e with
  | command m left now =>
      cases hm : m.operation with
      | start => exact (started h hm hstep).sound
      | cancel => exact (cancelled h hm hstep).1
  | timeout left now =>
      rcases Option.map_eq_some_iff.mp hstep with ⟨⟨q, ids⟩, hq, rfl⟩
      exact (expired h hq).1

/-- A turn leaves `timeout1` at the head if it does not take the head away. -/
theorem step_waits_iff (h : p.Sound) (hw : p.WaitsOnHead) (e : TimerEvent) :
    (∀ p', p.step e = some p' → p'.WaitsOnHead) ↔ p.KeepsHead e := by
  unfold WaitsOnHead at hw
  have hhead := h.head_eq
  by_cases hv : p.TimeoutValid
  swap
  · -- There is no such turn.
    rw [step_exit hv]
    refine iff_of_true (fun p' hp' => absurd hp'.symm (Option.some_ne_none p')) ?_
    cases e with
    | command m left now => exact fun hvalid => absurd hvalid hv
    | timeout left now => exact fun hvalid => absurd hvalid hv
  cases e with
  | command m left now =>
      rcases wake_spec h left with ⟨hlinked, -⟩
      rcases wake_links p left with ⟨hsame, hwake, -⟩
      simp only [KeepsHead, hv, true_imp_iff]
      cases hm : m.operation with
      | start =>
          -- `timeout1` is set to the head.
          refine iff_of_true (fun p' hp' => ?_) fun hcancel => Operation.noConfusion hcancel
          have hsound := step_sound h hp'
          rw [step_start hv hm] at hp'
          rcases Option.map_eq_some_iff.mp hp' with ⟨t, _, rfl⟩
          exact hsound.head_eq
      | cancel =>
          rcases exists_cancelled h hv hm left now.toTimeval with ⟨p', hp'⟩
          have hhead' := (cancelled h hm hp').1.head_eq
          have hp : p.step (.command m left now) = some p' := hp'
          rw [step_cancel hv hm] at hp
          rcases Option.map_eq_some_iff.mp hp with ⟨t, ht, rfl⟩
          have hiff := TimerList.deleteTimenode_head_iff hlinked ht
          simp only [hwake, hhead, hsame.id] at hiff
          rw [step_cancel hv hm, ht, Option.map_some]
          simp only [Option.some.injEq, forall_eq', true_imp_iff, ← hiff]
          unfold WaitsOnHead
          rw [← hhead', hw]
          exact eq_comm
  | timeout left now =>
      rcases wake_spec h left with ⟨hlinked, -⟩
      simp only [KeepsHead, hv, true_imp_iff]
      unfold expiring
      by_cases hout : p.timeout1 = none
      · -- Without a timeout there is none, and the list is empty.
        rw [hout] at hw
        rw [List.head?_eq_none_iff.mp hw.symm, step_forever hout]
        exact iff_of_true (fun p' hp' => absurd hp'.symm (Option.some_ne_none p')) (Or.inl rfl)
      · rcases TimerList.updateTimeList_reached hlinked now.toTimeval with
          ⟨t', vs, ht', hvs, helapsed⟩
        have hhead' : t'.head = vs.head? := helapsed.linked.links.head_eq
        have hnodup := h.links.nodup
        rw [step_timeout hv hout, ht', Option.map_some]
        simp only [Option.some.injEq, forall_eq']
        unfold WaitsOnHead
        rw [helapsed.linked.nodes_eq, hhead', hw]
        generalize (p.wake left).cell.reached ((p.wake left).passed now.toTimeval) p.list.nodes
          = us at *
        rw [hvs] at hnodup ⊢
        cases vs with
        | nil =>
            rw [List.append_nil]
            exact iff_of_true rfl (Or.inr rfl)
        | cons b vs =>
            cases us with
            | nil => exact iff_of_true rfl (Or.inl rfl)
            | cons a us =>
                -- Node `a` has expired, and node `b` is the head.
                have hab : a ≠ b := fun heq => (List.nodup_append'.mp hnodup).2.2
                  List.mem_cons_self (heq ▸ List.mem_cons_self)
                refine iff_of_false (fun heq => ?_) fun hor => ?_
                · rw [List.head?_cons, if_neg (Option.some_ne_none b), List.cons_append,
                    List.head?_cons, Option.some.injEq] at heq
                  exact hab heq
                · rcases hor with hnil | hall
                  · cases hnil
                  · exact List.cons_ne_nil b vs (List.self_eq_append_right.mp hall)

end TimerProcess

open TimerProcess in
/-- The process waits on the head of the list at every call of `select` if and
    only if no cancellation that it reads is for the head and no timeout takes some
    timers off and leaves others. -/
theorem waits_on_head_iff (cell : Heap) (now : ClockReading) (events : List TimerEvent) :
    Machine.Throughout step WaitsOnHead (init cell now.toTimeval) events ↔
      Machine.Meets step KeepsHead (init cell now.toTimeval) events :=
  Machine.throughout_iff (P := Sound) (fun _ _ _ h _ hp => step_sound h hp)
    (fun _ e h hw => step_waits_iff h hw e) events _ (sound_init cell now.toTimeval) rfl

open TimerProcess in
/-- Two timers are started and the first one, which is the head, is cancelled.
    The process goes on waiting on the node that has left the list. -/
theorem waits_on_cancelled :
    ¬Machine.Throughout step WaitsOnHead (init (fun _ => ⟨0, ⟨0, 0⟩, none, none⟩) ⟨100, 0⟩)
      [.command (starttimer 10 1) none ⟨⟨100, 0⟩, by decide, by decide⟩,
        .command (starttimer 20 2) none ⟨⟨100, 0⟩, by decide, by decide⟩,
        .command (canceltimer 1) none ⟨⟨101, 0⟩, by decide, by decide⟩] := by
  intro h
  have hrun : (Machine.run step (init (fun _ => ⟨0, ⟨0, 0⟩, none, none⟩) ⟨100, 0⟩)
      [.command (starttimer 10 1) none ⟨⟨100, 0⟩, by decide, by decide⟩,
        .command (starttimer 20 2) none ⟨⟨100, 0⟩, by decide, by decide⟩,
        .command (canceltimer 1) none ⟨⟨101, 0⟩, by decide, by decide⟩]).map
      (fun p => (p.timeout1, p.list.nodes)) = some (some 0, [1]) := by
    decide +kernel
  rcases Option.map_eq_some_iff.mp hrun with ⟨p, hp, heq⟩
  rw [Prod.mk.injEq] at heq
  have hwaits := h _ p (List.prefix_refl _) hp
  unfold WaitsOnHead at hwaits
  rw [heq.1, heq.2] at hwaits
  cases hwaits

end Cse5462
