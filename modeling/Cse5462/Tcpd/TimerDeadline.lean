import Cse5462.Tcpd.TimerValid

/-!
# Deadlines

When the timer process requests to resend a packet, compared with when its timer
was started. A ghost record holds the deadline of each id: the clock time at which
the start was carried out plus the interval, rounded up to a clock reading.

The offsets of the list count from `lasttime`, which is the clock reading of the
first start or of the last timeout. A timer that is put into a list with an older
`lasttime` is counted from there, and so it is due too early. The same happens
to all timers behind the head when `select` stores the time that is left in the
difference of the head: the time that has passed is taken off once by `select`
and once more by `update_time_list`. And `add_timenode` may store less than the
interval, of which it cuts off what is not a whole microsecond. The condition excludes
all this, and carries that wrap. What the turns keep then is that no deadline lies
behind the offset of its timer, or that there is a single timer, whose difference
counts from the call of `select`.

## Main definitions

* `TimedProcess`: The timer process with clock and deadlines.
* `TimedEvent`: What `select` comes back for, and when.
* `TimedProcess.Careful`: The turns that count from the right time.
* `TimedProcess.Punctual`: The invariant.

## Theorems

* `updateTimeList_timed`: Elapsed time lowers what remains.
* `wake_bound`: The invariant when `select` has come back.
* `step_punctual`: A turn keeps the invariant and requests nothing early.
* `no_timer_early`: No timer fires early in a careful run.
-/

namespace Cse5462

open DeltaList

/-- The timer process, the clock at the end of its last turn, the deadline of
    the last start of each id, and the requests written in that turn. -/
structure TimedProcess where
  process : TimerProcess
  clock : Int
  deadline : Int → Int
  requests : List Int

/-- `select` is called and returns, because of a command or of its timeout, and
    may store what is left of the timeout. Then the clock is read. -/
inductive TimedEvent where
  | command (m : Message) (called returned : Int) (stores : Bool) (now : ClockReading)
  | timeout (called returned : Int) (stores : Bool) (now : ClockReading)

namespace TimedProcess

/-- The timer process when it enters its loop. -/
def init (cell : Heap) (now : ClockReading) : TimedProcess :=
  { process := TimerProcess.init cell now.toTimeval, clock := now.toTimeval.value,
    deadline := fun _ => 0, requests := [] }

/-- What `select` stores when it has waited from `called` to `returned`. -/
def left (s : TimedProcess) (called returned : Int) (stores : Bool) : Option Nat :=
  if stores then
    s.process.timeout1.map fun a =>
      ((s.process.list.cell a).deltaTime.value - (returned - called)).toNat
  else none

/-- A turn, at times that do not go back. With nothing to read, `select` does
    not return before its timeout has elapsed. -/
def step (s : TimedProcess) : TimedEvent → Option TimedProcess
  | .command m called returned stores now =>
      if s.clock ≤ called ∧ called ≤ returned ∧ returned ≤ now.toTimeval.value then
        (s.process.command m (s.left called returned stores) now.toTimeval).map fun p =>
          { process := p, clock := now.toTimeval.value
            deadline :=
              -- The start is accepted unless its id is pending.
              if m.operation = .start ∧ m.id ∉ s.process.pending then
                Function.update s.deadline m.id (now.toTimeval.value + micros m.interval)
              else s.deadline
            requests := [] }
      else none
  | .timeout called returned stores now =>
      if s.clock ≤ called ∧ called ≤ returned ∧ returned ≤ now.toTimeval.value ∧
          ∀ a ∈ s.process.timeout1,
            called + (s.process.list.cell a).deltaTime.value ≤ returned then
        (s.process.timeout (s.left called returned stores) now.toTimeval).map fun r =>
          { process := r.1, clock := now.toTimeval.value, deadline := s.deadline,
            requests := r.2 }
      else none

/-- `select` stores nothing new in the head, or the head is the only timer. -/
def StoresNothing (s : TimedProcess) (called returned : Int) (stores : Bool) : Prop :=
  ∀ a ∈ s.process.timeout1, a ∈ s.process.list.nodes → s.process.list.nodes = [a] ∨
    ∀ n ∈ s.left called returned stores, (s.process.list.cell a).deltaTime.value = n

/-- A new timer finds the list empty or brought up to the clock, and none of its
    interval is cut off. `select` stores nothing new in the head of a list of several
    timers. The carries fit. -/
def Careful (s : TimedProcess) : TimedEvent → Prop
  | .command m called returned stores now =>
      (m.operation = .start → m.id ∉ s.process.pending →
        (s.process.list.nodes = [] ∨
          now.toTimeval.value ≤ s.process.list.lasttime.value) ∧
        micros m.interval ≤ (Timeval.ofSeconds m.interval).value ∧
        (s.process.wake (s.left called returned stores)).cell.CarriesFit
          (Timeval.ofSeconds m.interval) s.process.list.nodes) ∧
      s.StoresNothing called returned stores
  | .timeout called returned stores now =>
      s.StoresNothing called returned stores ∧
        (s.process.wake (s.left called returned stores)).cell.CarriesFit
          ((s.process.wake (s.left called returned stores)).passed now.toTimeval)
          s.process.list.nodes

instance (s : TimedProcess) (called returned : Int) (stores : Bool) :
    Decidable (s.StoresNothing called returned stores) := by
  unfold StoresNothing
  exact inferInstance

instance (s : TimedProcess) (e : TimedEvent) : Decidable (s.Careful e) :=
  match e with
  | .command _ _ _ _ _ => inferInstanceAs (Decidable (_ ∧ _))
  | .timeout _ _ _ _ => inferInstanceAs (Decidable (_ ∧ _))

/-- No deadline lies behind what remains of its timer, counted from `lasttime`. -/
def Kept (deadline : Int → Int) (t : TimerList) : Prop :=
  ∀ k o, t.remaining k = some o → deadline k ≤ t.lasttime.value + o

/-- The list has a single timer, which `select` waits on, and its deadline does
    not lie behind its difference, counted from `clock`. -/
def Single (deadline : Int → Int) (t : TimerList) (timeout1 : Option Nat) (clock : Int) : Prop :=
  ∃ a, t.nodes = [a] ∧ timeout1 = some a ∧
    deadline (t.cell a).id ≤ clock + (t.cell a).deltaTime.value

/-- The deadlines are kept by the offsets or, of a single timer, by `select`. -/
structure Punctual (s : TimedProcess) : Prop where
  waiting : s.process.Waiting
  wellFormed : s.process.list.WellFormed s.process.list.nodes
  past : s.process.list.lasttime.value ≤ s.clock
  bound : Kept s.deadline s.process.list ∨
    Single s.deadline s.process.list s.process.timeout1 s.clock

end TimedProcess

namespace TimerList

variable {t t' : TimerList} {l : List Nat} {ids : List Int}

/-- Timers that are requested have no more time left than has passed, and what
    remains of the others is lowered by it. -/
theorem updateTimeList_timed (h : t.WellFormed l) {now : Timeval}
    (hfits : t.cell.CarriesFit (t.passed now) l) (ht : t.updateTimeList now = some (t', ids)) :
    t'.WellFormed t'.nodes ∧ t'.lasttime = now ∧
      (∀ k ∈ ids, ∃ o, t.remaining k = some o ∧ o ≤ (t.passed now).value) ∧
      ∀ k o, t'.remaining k = some o →
        0 ≤ o ∧ t.remaining k = some (o + (t.passed now).value) := by
  rcases updateTimeList_reached h.toLinked now with ⟨u, vs, hu, hvs, helapsed⟩
  have hoff := Heap.reached_offsets hfits
  generalize hus : t.cell.reached (t.passed now) l = us at *
  rw [ht, Option.some.injEq, Prod.mk.injEq] at hu
  rcases hu with ⟨rfl, rfl⟩
  subst hvs
  rcases helapsed.value h hfits hus with ⟨hwf, hent⟩
  refine ⟨hwf.nodes_eq.symm ▸ hwf, helapsed.lasttime, fun k hk => ?_, fun k o hk => ?_⟩
  · rw [← keys_entries] at hk
    rcases exists_offset _ (t.cell.entries vs) k hk with ⟨o, ho, hrem⟩
    rw [← entries_append, ← h.remaining_eq] at hrem
    exact ⟨o, hrem, hoff o ho⟩
  · have hids := h.ids
    rw [← keys_entries, entries_append, List.map_append] at hids
    have hrem := hk
    rw [hwf.remaining_eq] at hrem
    refine ⟨offsets_nonneg _ hwf.deltas o (mem_offsets_of_remaining _ _ _ hrem), ?_⟩
    rw [hent, remaining_advance] at hrem
    rcases Option.map_eq_some_iff.mp hrem with ⟨x, hx, rfl⟩
    -- The key is behind the nodes that have gone.
    have hmem : k ∈ (t.cell.entries vs).map Prod.fst := by
      by_contra hnot
      rw [remaining_eq_none _ _ hnot] at hx
      cases hx
    have hnot : k ∉ (t.cell.entries us).map Prod.fst := fun hk' =>
      List.disjoint_of_nodup_append hids hk' hmem
    rw [h.remaining_eq, entries_append, remaining_append _ _ _ hnot, hx, Option.map_some,
      Option.some.injEq]
    omega

/-- The elapsed time ends at the clock reading, or before. -/
theorem passed_le {now : Timeval} (hfits : CarryFits now t.lasttime)
    (h : t.lasttime.value ≤ now.value) : t.lasttime.value + (t.passed now).value ≤ now.value := by
  unfold passed
  split
  · rename_i hzero
    have : t.lasttime.value = 0 := by
      unfold Timeval.value
      rw [hzero.1, hzero.2]
      rfl
    omega
  · rw [(timevalSubtract_spec hfits).1]
    omega

/-- What remains for the only timer of a list. -/
theorem remaining_single {a : Nat} (h : t.Linked [a]) (k : Int) :
    t.remaining k = if (t.cell a).id = k then some (t.cell a).deltaTime.value else none := by
  rw [h.remaining_eq]
  rfl

end TimerList

namespace TimedProcess

open TimerProcess

variable {s s' : TimedProcess} {called returned now : Int} {stores : Bool}

/-- A difference that `select` stores is the time that is left. -/
theorem wake_value (p : TimerProcess) (left : Option Nat) (x : Nat) :
    ((p.wake left).cell x).deltaTime.value = (p.list.cell x).deltaTime.value ∨
      ∃ n ∈ left, p.timeout1 = some x ∧ ((p.wake left).cell x).deltaTime.value = n := by
  unfold wake
  split
  · rename_i a n hout
    rw [Heap.setDelta_deltaTime]
    split
    · rename_i hx
      exact Or.inr ⟨n, rfl, hx ▸ hout, ofMicros_value n⟩
    · exact Or.inl rfl
  · exact Or.inl rfl

/-- What `select` stores is not negative. -/
theorem wake_wellFormed {p : TimerProcess} (h : p.list.WellFormed p.list.nodes)
    (left : Option Nat) : (p.wake left).WellFormed p.list.nodes := by
  refine ⟨(wake_spec h.toLinked left).1, forall_entries.mpr fun x hx => ?_⟩
  rcases wake_value p left x with hval | ⟨n, -, -, hval⟩
  · rw [hval]
    exact forall_entries.mp h.deltas x hx
  · rw [hval]
    exact Int.natCast_nonneg n

/-- The single timer when `select` has come back: what is left of its difference
    is counted from now on. If the timeout has elapsed, the deadline has passed. -/
theorem wake_single (h : s.Punctual) (hcalled : s.clock ≤ called) (hret : called ≤ returned)
    (hnow : returned ≤ now) {a : Nat} (hone : s.process.list.nodes = [a])
    (hout : s.process.timeout1 = some a)
    (hle : s.deadline (s.process.list.cell a).id
      ≤ s.clock + (s.process.list.cell a).deltaTime.value) :
    Single s.deadline (s.process.wake (s.left called returned stores)) s.process.timeout1 now ∧
      ((∀ a ∈ s.process.timeout1, called + (s.process.list.cell a).deltaTime.value ≤ returned) →
        ∀ k ∈ s.process.pending, s.deadline k ≤ now) := by
  have hnodes := (wake_spec h.waiting.sound (s.left called returned stores)).1.nodes_eq
  have hid := (wake_links s.process (s.left called returned stores)).1.id
  constructor
  · refine ⟨a, hnodes.trans hone, hout, ?_⟩
    rw [hid]
    rcases wake_value s.process (s.left called returned stores) a with hval | ⟨n, hn, _, hval⟩
    · rw [hval]
      omega
    · -- What is left is the difference less the time that has been waited.
      unfold left at hn
      split at hn
      · rw [hout, Option.map_some, Option.mem_some_iff] at hn
        rw [hval]
        omega
      · exact absurd hn (Option.not_mem_none n)
  · intro helapsed k hk
    unfold pending Heap.ids at hk
    rw [hone, List.map_cons, List.map_nil, List.mem_singleton] at hk
    have := helapsed a hout
    rw [hk]
    omega

/-- The bound when `select` has come back: what it stores leaves all differences
    alone, or is the time that is left of the only one. -/
theorem wake_bound (h : s.Punctual) (hcalled : s.clock ≤ called) (hret : called ≤ returned)
    (hnow : returned ≤ now) (hstores : s.StoresNothing called returned stores) :
    Kept s.deadline (s.process.wake (s.left called returned stores)) ∨
      Single s.deadline (s.process.wake (s.left called returned stores)) s.process.timeout1 now ∧
        ((∀ a ∈ s.process.timeout1,
          called + (s.process.list.cell a).deltaTime.value ≤ returned) →
          ∀ k ∈ s.process.pending, s.deadline k ≤ now) := by
  have hwf := (wake_spec h.waiting.sound (s.left called returned stores)).1
  rcases wake_links s.process (s.left called returned stores) with ⟨hsame, -, hlast, -⟩
  rcases h.bound with hkept | ⟨a, hone, hout, hle⟩
  · by_cases hval : ∀ x ∈ s.process.list.nodes,
        ((s.process.wake (s.left called returned stores)).cell x).deltaTime.value
          = (s.process.list.cell x).deltaTime.value
    · -- If no difference of the list changes, neither does what remains.
      refine Or.inl ?_
      intro k o hk
      rw [hlast]
      rw [hwf.remaining_eq, entries_congr (fun x _ => hsame.id x) hval,
        ← h.waiting.sound.remaining_eq] at hk
      exact hkept k o hk
    · simp only [not_forall] at hval
      rcases hval with ⟨a, ha, hne⟩
      rcases wake_value s.process (s.left called returned stores) a with hval | ⟨n, hn, hout, hval⟩
      · exact absurd hval hne
      · rcases hstores a hout ha with hone | hsame
        · -- The only timer is one that `select` waits on.
          refine Or.inr (wake_single h hcalled hret hnow hone hout ?_)
          have hsound := h.waiting.sound
          unfold Sound at hsound
          rw [hone] at hsound
          have hle := hkept _ _ ((TimerList.remaining_single hsound _).trans (if_pos rfl))
          have hpast := h.past
          omega
        · exact absurd (hval.trans (hsame n hn).symm) hne
  · exact Or.inr (wake_single h hcalled hret hnow hone hout hle)

/-- A list whose deadlines are kept, or kept of its single timer, when the list
    has been brought up to the clock. -/
theorem kept_of_single {deadline : Int → Int} {t : TimerList} {timeout1 : Option Nat} {clock : Int}
    (hwf : t.Linked t.nodes) (hclock : clock ≤ t.lasttime.value)
    (h : Single deadline t timeout1 clock) : Kept deadline t := by
  rcases h with ⟨a, hone, _, hle⟩
  rw [hone] at hwf
  intro k o hk
  rw [TimerList.remaining_single hwf] at hk
  split at hk
  · rename_i hid
    rw [Option.some.injEq] at hk
    rw [← hid]
    omega
  · cases hk

/-- The deadlines after a new timer has been added to a list that is not behind
    the clock. -/
theorem kept_update {deadline : Int → Int} {t t' : TimerList} {id clock d : Int} {stored : Timeval}
    (hrem : t'.remaining = Function.update t.remaining id (some stored.value))
    (hstored : d ≤ stored.value) (hclock : clock ≤ t'.lasttime.value)
    (hkept : ∀ k o, t.remaining k = some o → deadline k ≤ t'.lasttime.value + o) :
    Kept (Function.update deadline id (clock + d)) t' := by
  intro k o hk
  rw [hrem] at hk
  by_cases hkid : k = id
  · rw [hkid, Function.update_self, Option.some.injEq] at hk
    rw [hkid, Function.update_self]
    omega
  · rw [Function.update_of_ne hkid] at hk ⊢
    exact hkept k o hk

/-- A turn with a command is one of the timer process, at times that do not go
    back. -/
theorem step_command {m : Message} {now : ClockReading}
    (hstep : s.step (.command m called returned stores now) = some s') :
    (s.clock ≤ called ∧ called ≤ returned ∧ returned ≤ now.toTimeval.value) ∧
      ∃ p, s.process.step (.command m (s.left called returned stores) now) = some p ∧
        s' = { process := p, clock := now.toTimeval.value
               deadline :=
                 if m.operation = .start ∧ m.id ∉ s.process.pending then
                   Function.update s.deadline m.id (now.toTimeval.value + micros m.interval)
                 else s.deadline
               requests := [] } := by
  dsimp only [step] at hstep
  split at hstep
  · rename_i htimes
    rcases Option.map_eq_some_iff.mp hstep with ⟨p, hp, hs⟩
    exact ⟨htimes, p, hp, hs.symm⟩
  · cases hstep

/-- A start keeps the invariant. -/
theorem start_punctual (h : s.Punctual) {m : Message} (hm : m.operation = .start)
    {now : ClockReading} (hc : s.Careful (.command m called returned stores now))
    (hstep : s.step (.command m called returned stores now) = some s') : s'.Punctual := by
  rcases step_command hstep with ⟨⟨hcalled, hret, hnow⟩, p, hp, rfl⟩
  have hwaiting := step_waiting h.waiting hp
  have hbound := wake_bound h hcalled hret hnow hc.2
  have hwf := wake_wellFormed h.wellFormed (s.left called returned stores)
  have hkeys := (wake_spec h.waiting.sound (s.left called returned stores)).2
  have hnodes := hwf.nodes_eq
  rcases wake_links s.process (s.left called returned stores) with ⟨-, hhead, hlast, -⟩
  have hpast := h.past
  have hnew := hc.1 hm
  rw [← hlast] at hpast hnew
  rcases command_start hm hp with ⟨t', ht', rfl⟩
  generalize s.process.wake (s.left called returned stores) = t at *
  simp only [hm, true_and]
  by_cases hid : m.id ∈ s.process.pending
  · -- The list is as it was.
    rw [TimerList.addTimenode_present hwf.toLinked (hkeys ▸ hid), Option.some.injEq] at ht'
    subst ht'
    rw [if_neg (not_not_intro hid)]
    refine ⟨hwaiting, hnodes.symm ▸ hwf, by dsimp only; omega, hbound.imp_right ?_⟩
    intro hsingle
    rcases hsingle.1 with ⟨a, hone, _, hle⟩
    refine ⟨a, hone, ?_, hle⟩
    dsimp only
    rw [hhead, h.waiting.sound.head_eq, ← hnodes, hone]
    rfl
  · have hnone : t.remaining m.id = none := (hwf.remaining_none_iff _).mpr (hkeys ▸ hid)
    rcases hnew hid with ⟨hclock, hstored, hfits⟩
    rw [if_pos hid]
    rcases TimerList.addTimenode_remaining hwf.toLinked hnone hfits now.toTimeval with
      ⟨t1, _, ht1, _, hwf1, hrem⟩
    rw [ht', Option.some.injEq] at ht1
    subst ht1
    have hwf' := hwf1 hwf
    rw [← hwf'.nodes_eq] at hwf'
    by_cases hnil : s.process.list.nodes = []
    · -- The clock is read for the first timer.
      rw [hnil] at hwf
      rw [TimerList.addTimenode_empty hwf.toLinked, Option.some.injEq] at ht'
      have hlast' : t'.lasttime = now.toTimeval := by
        rw [← ht']
      refine ⟨hwaiting, hwf', Int.le_of_eq (by rw [hlast']),
        Or.inl (kept_update hrem hstored ?_ ?_)⟩
      · exact Int.le_of_eq (by rw [hlast'])
      · intro k o hk
        rw [hwf.remaining_eq] at hk
        cases hk
    · have hlast' := TimerList.addTimenode_lasttime hwf.toLinked hnil ht'
      replace hclock := hclock.resolve_left hnil
      have hkept : Kept s.deadline t := hbound.elim id fun hsingle =>
        kept_of_single (hnodes.symm ▸ hwf.toLinked) hclock hsingle.1
      refine ⟨hwaiting, hwf', ?_, Or.inl (kept_update hrem hstored ?_ ?_)⟩
      · dsimp only
        rw [hlast']
        omega
      · rw [hlast']
        exact hclock
      · rw [hlast']
        exact hkept

/-- A cancellation keeps the invariant. -/
theorem cancel_punctual (h : s.Punctual) {m : Message} (hm : m.operation = .cancel)
    {now : ClockReading} (hc : s.Careful (.command m called returned stores now))
    (hstep : s.step (.command m called returned stores now) = some s') : s'.Punctual := by
  rcases step_command hstep with ⟨⟨hcalled, hret, hnow⟩, p, hp, rfl⟩
  have hwaiting := step_waiting h.waiting hp
  have hbound := wake_bound h hcalled hret hnow hc.2
  have hwf := wake_wellFormed h.wellFormed (s.left called returned stores)
  have hnodes := hwf.nodes_eq
  rcases wake_links s.process (s.left called returned stores) with ⟨-, -, hlast, -⟩
  have hpast := h.past
  rw [← hlast] at hpast
  rcases command_cancel hm hp with ⟨t', ht', rfl⟩
  generalize s.process.wake (s.left called returned stores) = t at *
  have hlast' := TimerList.deleteTimenode_lasttime ht'
  simp only [hm, reduceCtorEq, false_and, if_false]
  have hclock : t'.lasttime.value ≤ now.toTimeval.value := by
    rw [hlast']
    omega
  by_cases hnone : t.remaining m.id = none
  · rw [TimerList.deleteTimenode_absent hwf.toLinked ((hwf.remaining_none_iff _).mp hnone),
      Option.some.injEq] at ht'
    subst ht'
    exact ⟨hwaiting, hnodes.symm ▸ hwf, hclock, hbound.imp_right And.left⟩
  · rcases TimerList.deleteTimenode_remaining hwf.toLinked hnone with ⟨t1, _, ht1, _, hwf1, hrem⟩
    rw [ht', Option.some.injEq] at ht1
    subst ht1
    have hwf' := hwf1 hwf
    rw [← hwf'.nodes_eq] at hwf'
    refine ⟨hwaiting, hwf', hclock, Or.inl ?_⟩
    intro k o hk
    dsimp only at hk ⊢
    rw [hrem] at hk
    rw [hlast']
    by_cases hkid : k = m.id
    · rw [hkid, Function.update_self] at hk
      cases hk
    · rw [Function.update_of_ne hkid] at hk
      rcases hbound with hkept | ⟨⟨a, hone, _, _⟩, _⟩
      · exact hkept k o hk
      · -- The single timer is the one that is cancelled.
        rw [← hnodes, hone] at hwf
        rw [TimerList.remaining_single hwf.toLinked] at hk hnone
        split at hk
        · rename_i hak
          rw [if_neg fun ham => hkid (hak.symm.trans ham)] at hnone
          exact absurd rfl hnone
        · cases hk

/-- A timeout requests nothing early and keeps the invariant. -/
theorem timeout_punctual (h : s.Punctual) {now : ClockReading}
    (hc : s.Careful (.timeout called returned stores now))
    (hstep : s.step (.timeout called returned stores now) = some s') :
    s'.Punctual ∧ ∀ k ∈ s'.requests, s'.deadline k ≤ s'.clock := by
  dsimp only [step] at hstep
  split at hstep
  · rename_i htimes
    rcases htimes with ⟨hcalled, hret, hnow, helapsed⟩
    rcases Option.map_eq_some_iff.mp hstep with ⟨⟨p, ids⟩, hp, rfl⟩
    have hturn : s.process.step (.timeout (s.left called returned stores) now) = some p := by
      unfold TimerProcess.step
      dsimp only
      rw [hp, Option.map_some]
    have hwaiting := step_waiting h.waiting hturn
    have hbound := wake_bound h hcalled hret hnow hc.1
    have hwf := wake_wellFormed h.wellFormed (s.left called returned stores)
    have hkeys := (wake_spec h.waiting.sound (s.left called returned stores)).2
    have hlast := (wake_links s.process (s.left called returned stores)).2.2.1
    have hpast := h.past
    have hclock := h.waiting.clock
    have hfits := hc.2
    rw [← hlast] at hpast hclock
    rcases timeout_eq hp with ⟨-, -, t', ht', rfl⟩
    generalize s.process.wake (s.left called returned stores) = t at *
    -- Clock readings are normalised.
    have husec := now.usec_nonneg
    have hlt := now.usec_lt
    have hpassed : t.lasttime.value + (t.passed now.toTimeval).value ≤ now.toTimeval.value :=
      TimerList.passed_le ⟨by omega, by omega⟩ (by omega)
    rcases TimerList.updateTimeList_timed hwf hfits ht' with ⟨hwf', hlast', hdue, hrem⟩
    -- The deadline of a pending timer has passed, or is kept by its offset.
    have hdeadline : ∀ k o, t.remaining k = some o →
        s.deadline k ≤ now.toTimeval.value ∨ s.deadline k ≤ t.lasttime.value + o :=
      fun k o hk => by
        have hmem : k ∈ s.process.pending := by
          rw [← hkeys]
          by_contra hnot
          rw [(hwf.remaining_none_iff k).mpr hnot] at hk
          cases hk
        exact hbound.symm.imp (fun hsingle => hsingle.2 helapsed k hmem) fun hkept => hkept k o hk
    refine ⟨⟨hwaiting, hwf', ?_, Or.inl fun k o hk => ?_⟩, fun k hk => ?_⟩
    · dsimp only
      rw [hlast']
    · rcases hrem k o hk with ⟨ho, hk'⟩
      have := hdeadline k _ hk'
      dsimp only
      rw [hlast']
      omega
    · rcases hdue k hk with ⟨o, hk', ho⟩
      have := hdeadline k o hk'
      dsimp only
      omega
  · cases hstep

/-- A careful turn keeps the invariant. -/
theorem step_punctual {e : TimedEvent} (h : s.Punctual) (hc : s.Careful e)
    (hstep : s.step e = some s') :
    s'.Punctual ∧ ∀ k ∈ s'.requests, s'.deadline k ≤ s'.clock := by
  cases e with
  | command m called returned stores now =>
      -- A command requests nothing.
      have hnone : s'.requests = [] := by
        rcases step_command hstep with ⟨_, p, _, rfl⟩
        rfl
      refine ⟨?_, fun k hk => absurd (hnone ▸ hk) List.not_mem_nil⟩
      cases hm : m.operation with
      | start => exact start_punctual h hm hc hstep
      | cancel => exact cancel_punctual h hm hc hstep
  | timeout called returned stores now => exact timeout_punctual h hc hstep

theorem punctual_init (cell : Heap) (now : ClockReading) : (init cell now).Punctual where
  waiting := waiting_init cell now
  wellFormed := by
    have hwf := TimerList.wellFormed_empty cell now.toTimeval
    exact hwf.nodes_eq.symm ▸ hwf
  past := le_refl _
  bound := Or.inl fun k o hk => by
    have hlinked := TimerList.linked_empty cell now.toTimeval
    have hnone : (init cell now).process.list.remaining k = none :=
      (hlinked.remaining_none_iff k).mpr List.not_mem_nil
    rw [hnone] at hk
    cases hk

end TimedProcess

open TimedProcess in
/-- In a run whose turns are all careful, no request is written before the
    deadline of its timer. -/
theorem no_timer_early (cell : Heap) (now : ClockReading) (events : List TimedEvent)
    (hcareful : Machine.Meets step Careful (init cell now) events) :
    Machine.Throughout step (fun s => ∀ k ∈ s.requests, s.deadline k ≤ s.clock)
      (init cell now) events :=
  Machine.throughout_of_meets
    (P := fun s => s.Punctual ∧ ∀ k ∈ s.requests, s.deadline k ≤ s.clock)
    (fun _ _ _ h hc hs => step_punctual h.1 hc hs) (fun _ h => h.2) events _
    ⟨punctual_init cell now, fun _ hk => absurd hk List.not_mem_nil⟩ hcareful

open TimedProcess in
/-- Timers of 10 and 12 seconds are started at 100 seconds. When the first one is
    requested, at 110 seconds, one of 5 seconds is started, and the second one is
    requested when it is due. -/
theorem overlapping_timers_punctual :
    Machine.Throughout step (fun s => ∀ k ∈ s.requests, s.deadline k ≤ s.clock)
        (init (fun _ => ⟨0, ⟨0, 0⟩, none, none⟩) ⟨⟨99, 0⟩, by decide, by decide⟩)
        [.command (starttimer 10 1) 100000000 100000000 false ⟨⟨100, 0⟩, by decide, by decide⟩,
          .command (starttimer 12 2) 100000000 100000000 false ⟨⟨100, 0⟩, by decide, by decide⟩,
          .timeout 100000000 110000000 false ⟨⟨110, 0⟩, by decide, by decide⟩,
          .command (starttimer 5 3) 110000000 110000000 false ⟨⟨110, 0⟩, by decide, by decide⟩,
          .timeout 110000000 112000000 false ⟨⟨112, 0⟩, by decide, by decide⟩] ∧
      (Machine.run step (init (fun _ => ⟨0, ⟨0, 0⟩, none, none⟩) ⟨⟨99, 0⟩, by decide, by decide⟩)
        [.command (starttimer 10 1) 100000000 100000000 false ⟨⟨100, 0⟩, by decide, by decide⟩,
          .command (starttimer 12 2) 100000000 100000000 false ⟨⟨100, 0⟩, by decide, by decide⟩,
          .timeout 100000000 110000000 false ⟨⟨110, 0⟩, by decide, by decide⟩,
          .command (starttimer 5 3) 110000000 110000000 false ⟨⟨110, 0⟩, by decide, by decide⟩,
          .timeout 110000000 112000000 false ⟨⟨112, 0⟩, by decide, by decide⟩]).map
        (fun s => (s.requests, s.process.pending)) = some ([2], [3]) :=
  ⟨no_timer_early _ _ _ (by decide +kernel), by decide +kernel⟩

open TimedProcess in
/-- A timer of 10 seconds is started at 100 seconds, and one of 12 seconds at
    105. Both are requested at 115 seconds, two before the second is due. -/
theorem second_timer_early :
    ¬Machine.Throughout step (fun s => ∀ k ∈ s.requests, s.deadline k ≤ s.clock)
      (init (fun _ => ⟨0, ⟨0, 0⟩, none, none⟩) ⟨⟨99, 0⟩, by decide, by decide⟩)
      [.command (starttimer 10 1) 100000000 100000000 false
          ⟨⟨100, 0⟩, by decide, by decide⟩,
        .command (starttimer 12 2) 100000000 105000000 false
          ⟨⟨105, 0⟩, by decide, by decide⟩,
        .timeout 105000000 115000000 false ⟨⟨115, 0⟩, by decide, by decide⟩] := by
  intro h
  have hrun : (Machine.run step
      (init (fun _ => ⟨0, ⟨0, 0⟩, none, none⟩) ⟨⟨99, 0⟩, by decide, by decide⟩)
      [.command (starttimer 10 1) 100000000 100000000 false
          ⟨⟨100, 0⟩, by decide, by decide⟩,
        .command (starttimer 12 2) 100000000 105000000 false
          ⟨⟨105, 0⟩, by decide, by decide⟩,
        .timeout 105000000 115000000 false ⟨⟨115, 0⟩, by decide, by decide⟩]).map
      (fun s => (s.requests, s.deadline 2, s.clock)) = some ([1, 2], 117000000, 115000000) := by
    decide +kernel
  rcases Option.map_eq_some_iff.mp hrun with ⟨s, hs, heq⟩
  simp only [Prod.mk.injEq] at heq
  rcases heq with ⟨hreq, hdeadline, hclock⟩
  have hle := h _ s (List.prefix_refl _) hs 2 (hreq ▸ List.mem_cons_of_mem _ List.mem_cons_self)
  rw [hdeadline, hclock] at hle
  exact absurd hle (by decide)

end Cse5462
