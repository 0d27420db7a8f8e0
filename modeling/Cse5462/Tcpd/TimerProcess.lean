import Cse5462.Tcpd.Command
import Cse5462.Tcpd.TimerMap

/-!
# The Timer Process

One turn of the loop of the timer process: `select` comes back because a command
can be read, or because the time of `timeout1` is up. On a timeout that is not
valid `select` fails and the process exits, so that there is no turn.

`timeout1` is a pointer into the list. It is set to the difference of the head
by every start, it is not moved when that node is unlinked, and it is null
before the first start and when an expiry leaves the list empty. `select` may
store the time that is left where it points, so a turn begins with a difference
overwritten (`TimerProcess.wake`). None of this matters for which ids are
pending, and that is what the lemmas are about.

A start makes its id pending, unless a carry wraps at the head of the list. Then
the node may be lost, but the process does not outlive this: the head is left with
microseconds that `select` refuses.

## Main definitions

* `TimerProcess`: The list and `timeout1`.
* `TimerProcess.TimeoutValid`: `select` accepts the timeout.
* `TimerProcess.wake`: The list after `select`.
* `TimerProcess.command`: A command read and carried out.
* `TimerProcess.timeout`: The time is up.
* `TimerProcess.pending`: The ids in the list.
* `TimerProcess.StartFits`: The carry of a start fits at the head.

## Theorems

* `started`, `cancelled`: What a command does to the pending ids.
* `expired`: Due ids leave the list as resend requests.
* `exists_started`, `exists_cancelled`, `exists_expired`: Turns that can be taken.
-/

namespace Cse5462

/-- `head` and `timeout1`. -/
structure TimerProcess where
  list : TimerList
  timeout1 : Option Nat

namespace TimerProcess

/-- The timer process when it enters its loop. -/
def init (cell : Heap) (now : Timeval) : TimerProcess :=
  { list := TimerList.empty cell now, timeout1 := none }

/-- The timeout that `select` gets is null or valid. -/
def TimeoutValid (p : TimerProcess) : Prop := ∀ a ∈ p.timeout1, (p.list.cell a).deltaTime.Valid

instance (p : TimerProcess) : Decidable p.TimeoutValid := by
  unfold TimeoutValid
  exact inferInstance

/-- The list when `select` has come back and, if it does so, has stored the
    microseconds `left` of its timeout. -/
def wake (p : TimerProcess) (left : Option Nat) : TimerList :=
  match p.timeout1, left with
  -- Linux writes the time that is left to the timeout.
  | some a, some n => { p.list with cell := p.list.cell.setDelta a (Timeval.ofMicros n) }
  | _, _ => p.list

/-- A command has been read. -/
def command (p : TimerProcess) (m : Message) (left : Option Nat) (now : Timeval) :
    Option TimerProcess :=
  -- `select` fails on any other timeout, and the process exits.
  if p.TimeoutValid then
    match m.operation with
    | .start =>
        -- `timeout1` is set to the head, whether the node is new or not.
        ((p.wake left).addTimenode m.id m.interval now).map fun t =>
          { list := t, timeout1 := t.head }
    | .cancel => ((p.wake left).deleteTimenode m.id).map fun t => { p with list := t }
  else none

/-- `select` has come back without anything to read, which it does not without
    a timeout. The ids are the resend requests written to the driver. -/
def timeout (p : TimerProcess) (left : Option Nat) (now : Timeval) :
    Option (TimerProcess × List Int) :=
  if p.timeout1 ≠ none ∧ p.TimeoutValid then
    ((p.wake left).updateTimeList now).map fun r =>
      ({ list := r.1, timeout1 := if r.1.head = none then none else p.timeout1 }, r.2)
  else none

/-- The ids in the list. -/
def pending (p : TimerProcess) : List Int := p.list.cell.ids p.list.nodes

/-- The list is linked. -/
def Sound (p : TimerProcess) : Prop := p.list.Linked p.list.nodes

/-- Id `n` is due when the clock stands at `now`: the time that has passed reaches
    it. -/
def Due (t : TimerList) (now : Timeval) (n : Int) : Prop :=
  n ∈ t.cell.ids (t.cell.reached (t.passed now) t.nodes)

/-- The carry of a start fits: for a new id, that of its comparison with the head
    of the list. -/
def StartFits (p : TimerProcess) (m : Message) (left : Option Nat) : Prop :=
  m.operation = .start → m.id ∉ p.pending → ∀ a ∈ p.list.nodes.head?,
    CarryFits (Timeval.ofSeconds m.interval) ((p.wake left).cell a).deltaTime

instance (p : TimerProcess) (m : Message) (left : Option Nat) : Decidable (p.StartFits m left) := by
  unfold StartFits
  exact inferInstance

theorem sound_init (cell : Heap) (now : Timeval) : (init cell now).Sound :=
  (TimerList.linked_empty cell now).self

variable {p : TimerProcess}

theorem sound_of {l : List Nat} (h : p.list.Linked l) :
    p.Sound ∧ p.pending = p.list.cell.ids l := by
  unfold Sound pending
  rw [h.nodes_eq]
  exact ⟨h, rfl⟩

/-- What `select` stores does not touch the links or the ids. -/
theorem wake_links (p : TimerProcess) (left : Option Nat) :
    SameLinks p.list.cell (p.wake left).cell ∧ (p.wake left).head = p.list.head ∧
      (p.wake left).lasttime = p.list.lasttime ∧ (p.wake left).brk = p.list.brk := by
  unfold wake
  split
  · exact ⟨sameLinks_setDelta _ _ _, rfl, rfl, rfl⟩
  · exact ⟨sameLinks_refl _, rfl, rfl, rfl⟩

theorem wake_none (p : TimerProcess) : p.wake none = p.list := by
  unfold wake
  split
  · rename_i hnone
    cases hnone
  · rfl

theorem wake_spec (h : p.Sound) (left : Option Nat) :
    (p.wake left).Linked p.list.nodes ∧ (p.wake left).cell.ids p.list.nodes = p.pending := by
  rcases wake_links p left with ⟨hsame, hhead, -, hbrk⟩
  have hids : (p.wake left).cell.ids p.list.nodes = p.pending := hsame.ids_eq
  refine ⟨⟨?_, fun a ha => ?_, ?_, fun a ha q hq => ?_⟩, hids⟩
  · rw [hhead]
    exact hsame.links h.links
  · rw [hbrk]
    exact h.allocated a ha
  · rw [hids]
    exact h.ids
  · rw [hsame.forward] at hq
    rw [hbrk]
    exact h.back a ha q hq

section Outcome

variable {p' : TimerProcess} {m : Message} {left : Option Nat} {now : Timeval}

/-- A process that takes a turn has had a valid timeout. -/
theorem command_valid (hp : p.command m left now = some p') : p.TimeoutValid := by
  unfold command at hp
  split at hp
  · assumption
  · cases hp

/-- A start that has been carried out. -/
theorem command_start (hm : m.operation = .start) (hp : p.command m left now = some p') :
    ∃ t, (p.wake left).addTimenode m.id m.interval now = some t ∧
      p' = { list := t, timeout1 := t.head } := by
  unfold command at hp
  rw [hm] at hp
  split at hp
  · rcases Option.map_eq_some_iff.mp hp with ⟨t, ht, rfl⟩
    exact ⟨t, ht, rfl⟩
  · cases hp

/-- A cancellation that has been carried out. -/
theorem command_cancel (hm : m.operation = .cancel) (hp : p.command m left now = some p') :
    ∃ t, (p.wake left).deleteTimenode m.id = some t ∧ p' = { p with list := t } := by
  unfold command at hp
  rw [hm] at hp
  split at hp
  · rcases Option.map_eq_some_iff.mp hp with ⟨t, ht, rfl⟩
    exact ⟨t, ht, rfl⟩
  · cases hp

/-- A timeout that has come. -/
theorem timeout_eq {ids : List Int} (hp : p.timeout left now = some (p', ids)) :
    p.timeout1 ≠ none ∧ p.TimeoutValid ∧ ∃ t, (p.wake left).updateTimeList now = some (t, ids) ∧
      p' = { list := t, timeout1 := if t.head = none then none else p.timeout1 } := by
  unfold timeout at hp
  split at hp
  · rename_i hok
    rcases Option.map_eq_some_iff.mp hp with ⟨⟨t, ids'⟩, ht, heq⟩
    cases heq
    exact ⟨hok.1, hok.2, t, ht, rfl⟩
  · cases hp

/-- What a start does to the pending ids. -/
structure Started (p : TimerProcess) (m : Message) (left : Option Nat) (p' : TimerProcess) :
    Prop where
  sound : p'.Sound
  kept : ∀ k ∈ p.pending, k ∈ p'.pending
  only : ∀ k ∈ p'.pending, k ∈ p.pending ∨ k = m.id
  added : p.StartFits m left ∨ p'.TimeoutValid → m.id ∈ p'.pending

/-- A start makes its id pending, if it is not already, as long as the carry fits
    or the process goes on. -/
theorem started (h : p.Sound) (hm : m.operation = .start) (hp : p.command m left now = some p') :
    Started p m left p' := by
  rcases wake_spec h left with ⟨hlinked, hids⟩
  rcases command_start hm hp with ⟨t, ht, rfl⟩
  by_cases hid : m.id ∈ p.pending
  · -- The duplicate is dropped.
    rw [TimerList.addTimenode_present hlinked (hids ▸ hid), Option.some.injEq] at ht
    subst ht
    rcases sound_of (p := { list := p.wake left, timeout1 := (p.wake left).head }) hlinked with
      ⟨hsound, hpend⟩
    rw [show (p.wake left).cell.ids p.list.nodes = p.pending from hids] at hpend
    exact ⟨hsound, fun k hk => hpend ▸ hk, fun k hk => Or.inl (hpend ▸ hk), fun _ => hpend ▸ hid⟩
  · rcases TimerList.addTimenode_linked hlinked (hids ▸ hid) ht with ⟨hold, hnew, hcases⟩
    have hkept : t.cell.ids p.list.nodes = p.pending := by
      rw [← hids]
      exact ids_congr fun x hx => hold x (Nat.ne_of_lt (hlinked.allocated x hx))
    rcases hcases with ⟨us, vs, hsplit, hlinked'⟩ | ⟨hlinked', a, ha, hwraps, delta, hfar, hdelta⟩
    · -- The new id is between those before it and those behind it.
      rcases sound_of (p := { list := t, timeout1 := t.head }) hlinked' with ⟨hsound, hpend⟩
      have hiff : ∀ k, k ∈ t.cell.ids (us ++ (p.wake left).brk :: vs) ↔
          k ∈ p.pending ∨ k = m.id := by
        intro k
        rw [← hkept, hsplit, ids_append, ids_append, ids_cons, hnew, List.mem_append,
          List.mem_append, List.mem_cons, or_left_comm, or_comm]
      rw [← hpend] at hiff
      exact ⟨hsound, fun k hk => (hiff k).mpr (Or.inl hk), fun k hk => (hiff k).mp hk,
        fun _ => (hiff m.id).mpr (Or.inr rfl)⟩
    · -- The node is lost, and the head is left with what `select` refuses.
      rcases sound_of (p := { list := t, timeout1 := t.head }) hlinked' with ⟨hsound, hpend⟩
      rw [show t.cell.ids p.list.nodes = p.pending from hkept] at hpend
      refine ⟨hsound, fun k hk => hpend ▸ hk, fun k hk => Or.inl (hpend ▸ hk), fun hor => ?_⟩
      rcases hor with hfits | hvalid
      · exact absurd (hfits hm hid a ha) hwraps
      · have hhead : t.head = some a := hlinked'.links.head_eq.trans ha
        have := hvalid a (hhead ▸ Option.mem_some_self a)
        rw [hdelta] at this
        exact absurd this hfar.not_valid

/-- A cancellation takes its id out of the pending ones. -/
theorem cancelled (h : p.Sound) (hm : m.operation = .cancel)
    (hp : p.command m left now = some p') :
    p'.Sound ∧ ∀ k, k ∈ p'.pending ↔ k ∈ p.pending ∧ k ≠ m.id := by
  rcases wake_spec h left with ⟨hlinked, hids⟩
  rcases command_cancel hm hp with ⟨t, ht, rfl⟩
  by_cases hid : m.id ∈ p.pending
  · rcases TimerList.deleteTimenode_present hlinked (hids ▸ hid) with
      ⟨t', us, a, vs, ht', hsplit, ha, hlinked', hgiven⟩
    rw [ht, Option.some.injEq] at ht'
    subst ht'
    rcases sound_of (p := { p with list := t }) hlinked' with ⟨hsound, hpend⟩
    refine ⟨hsound, fun k => ?_⟩
    -- The ids are distinct, so the one that goes does not stay elsewhere.
    have hnodup := hlinked.ids
    rw [hsplit, ids_append, ids_cons, ha] at hids hnodup
    have hnot := (List.nodup_cons.mp (List.nodup_middle.mp hnodup)).1
    rw [hpend, ids_congr (m := (p.wake left).cell) fun x _ => hgiven.id x, ids_append, ← hids,
      List.mem_append, List.mem_append, List.mem_cons]
    rw [List.mem_append, not_or] at hnot
    constructor
    · rintro (hk | hk)
      · exact ⟨Or.inl hk, fun heq => hnot.1 (heq ▸ hk)⟩
      · exact ⟨Or.inr (Or.inr hk), fun heq => hnot.2 (heq ▸ hk)⟩
    · rintro ⟨hk, hne⟩
      exact hk.imp_right fun hk => hk.resolve_left hne
  · rw [TimerList.deleteTimenode_absent hlinked (hids ▸ hid), Option.some.injEq] at ht
    subst ht
    rcases sound_of (p := { p with list := p.wake left }) hlinked with ⟨hsound, hpend⟩
    refine ⟨hsound, fun k => ?_⟩
    rw [hpend, hids]
    exact ⟨fun hk => ⟨hk, fun heq => hid (heq ▸ hk)⟩, fun hk => hk.1⟩

/-- An expiry takes the ids off the list that are due, and requests to resend
    them. -/
theorem expired {ids : List Int} (h : p.Sound) (hp : p.timeout left now = some (p', ids)) :
    p'.Sound ∧ p.pending = ids ++ p'.pending ∧ ∀ n ∈ ids, Due (p.wake left) now n := by
  rcases wake_spec h left with ⟨hlinked, hids⟩
  rcases timeout_eq hp with ⟨-, -, t, ht, rfl⟩
  rcases TimerList.updateTimeList_reached hlinked now with ⟨t', vs, ht', hsplit, helapsed⟩
  rw [ht, Option.some.injEq, Prod.mk.injEq] at ht'
  rcases ht' with ⟨rfl, rfl⟩
  rcases sound_of (p := { list := t, timeout1 := if t.head = none then none else p.timeout1 })
    helapsed.linked with ⟨hsound, hpend⟩
  refine ⟨hsound, ?_, fun n hn => ?_⟩
  · rw [hpend, ids_congr (m := (p.wake left).cell) fun x _ => helapsed.id x, ← ids_append, ← hsplit,
      hids]
  · unfold Due
    rwa [hlinked.nodes_eq]

/-- A start into an empty list can be carried out. -/
theorem exists_started (h : p.Sound) (hv : p.TimeoutValid) (hempty : p.list.nodes = [])
    (hm : m.operation = .start) (left : Option Nat) (now : Timeval) :
    ∃ p', p.command m left now = some p' := by
  have hlinked := (wake_spec h left).1
  rw [hempty] at hlinked
  unfold command
  rw [if_pos hv, hm]
  dsimp only
  rw [TimerList.addTimenode_eq hlinked List.not_mem_nil, show (p.wake left).head = none from
    hlinked.links.head_eq]
  exact ⟨_, rfl⟩

theorem exists_cancelled (h : p.Sound) (hv : p.TimeoutValid) (hm : m.operation = .cancel)
    (left : Option Nat) (now : Timeval) : ∃ p', p.command m left now = some p' := by
  have hlinked := (wake_spec h left).1
  unfold command
  rw [if_pos hv, hm]
  dsimp only
  by_cases hid : m.id ∈ (p.wake left).cell.ids p.list.nodes
  · rcases TimerList.deleteTimenode_present hlinked hid with ⟨t, _, _, _, ht, -⟩
    exact ⟨_, by rw [ht, Option.map_some]⟩
  · exact ⟨_, by rw [TimerList.deleteTimenode_absent hlinked hid, Option.map_some]⟩

theorem exists_expired (h : p.Sound) (hv : p.TimeoutValid) (hout : p.timeout1 ≠ none)
    (left : Option Nat) (now : Timeval) : ∃ p', p.timeout left now = some (p', (p.wake left).cell.ids
      ((p.wake left).cell.reached ((p.wake left).passed now) p.list.nodes)) := by
  rcases TimerList.updateTimeList_reached (wake_spec h left).1 now with ⟨t, vs, ht, -⟩
  unfold timeout
  rw [if_pos ⟨hout, hv⟩, ht, Option.map_some]
  exact ⟨_, rfl⟩

end Outcome

end TimerProcess

end Cse5462
