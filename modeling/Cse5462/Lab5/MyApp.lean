import Cse5462.Lib.Machine
import Mathlib.Algebra.Group.Nat.Defs

/-!
# An Application that Sends at a Constant Rate

`MyApp` of `tcpchain.cc` sends packets of one size. Sending a packet schedules the
next one, as long as there are packets left and the application is running, and
stopping the application cancels the event that was scheduled last.

The simulator runs events in the order of their times. So the packets leave one
interval after the other, counted from the start: `constant_rate` says that at any
time all packets that are due have been sent and no others, and that nothing is
left to be sent once the application has been stopped.

All of this rests on there being one chain of events. `StartApplication` sends a
packet without looking whether one is scheduled, so a start that comes while an
event is pending makes a second chain, and then `m_sendEvent` names only one of the
two events. `one_chain_iff` says that nothing else does.

## Main definitions

* `Simulation`: The application, and the events that the simulator keeps for it.
* `Simulation.sendPacket`, `Simulation.scheduleTx`: The functions that call each other.
* `Simulation.step`: A call of the simulator.
* `Simulation.StartsIdle`: No start comes while a packet is scheduled.
* `Simulation.Paced`: The packets left at their times, and one event is scheduled
  if there are more.

## Theorems

* `paced_step`: What a call does to a chain of events.
* `stoppable_step`: What it does to what stopping would cancel.
* `constant_rate`: Which packets have been sent.
* `one_chain_iff`: When stopping cancels all that is scheduled.
-/

namespace Cse5462

namespace Lab5

/-- An event of the simulator: its number, and the time at which it runs. -/
structure EventId where
  uid : Nat
  ts : Nat
  deriving DecidableEq, Repr

/-- The application. `interval` is the time that a packet takes at its data rate,
    in ticks of the simulator. -/
structure MyApp where
  nPackets : Nat
  interval : Nat
  running : Bool
  packetsSent : Nat
  sendEvent : Option EventId
  deriving DecidableEq, Repr

/-- The application in the simulator, with the calls of `SendPacket` that are
    scheduled. `sent` are the times at which packets went into the socket since the
    application was `started`. -/
structure Simulation where
  app : MyApp
  now : Nat
  nextUid : Nat
  events : List EventId
  started : Nat
  sent : List Nat
  deriving DecidableEq, Repr

/-- What the simulator does with the application. -/
inductive Call where
  | startApplication (t : Nat)
  | stopApplication (t : Nat)
  /-- A scheduled event is run. -/
  | sendPacket (e : EventId)
  deriving DecidableEq, Repr

namespace Simulation

/-- The application after `Setup`. -/
def setup (nPackets interval : Nat) : Simulation :=
  { app := { nPackets := nPackets, interval := interval, running := false, packetsSent := 0,
             sendEvent := none }
    now := 0, nextUid := 0, events := [], started := 0, sent := [] }

/-- The simulator may come to this time: no event is to run before it. -/
def Next (s : Simulation) (t : Nat) : Prop := s.now ≤ t ∧ ∀ e ∈ s.events, t ≤ e.ts

instance (s : Simulation) (t : Nat) : Decidable (s.Next t) := by
  unfold Next
  exact inferInstance

def scheduleTx (s : Simulation) : Simulation :=
  if s.app.running then
    { s with
      app := { s.app with sendEvent := some ⟨s.nextUid, s.now + s.app.interval⟩ }
      nextUid := s.nextUid + 1
      events := ⟨s.nextUid, s.now + s.app.interval⟩ :: s.events }
  else s

/-- The counter has 32 bits. -/
def sendPacket (s : Simulation) : Simulation :=
  let s := { s with
    app := { s.app with packetsSent := (s.app.packetsSent + 1) % 2 ^ 32 }
    sent := s.sent ++ [s.now] }
  if s.app.packetsSent < s.app.nPackets then s.scheduleTx else s

/-- An event that has run or was cancelled is no longer scheduled. -/
def remove (s : Simulation) (e : EventId) : Simulation :=
  { s with events := s.events.filter (· ≠ e) }

def startApplication (s : Simulation) : Simulation :=
  sendPacket { s with
    app := { s.app with running := true, packetsSent := 0 }
    started := s.now, sent := [] }

def stopApplication (s : Simulation) : Simulation :=
  let s := { s with app := { s.app with running := false } }
  match s.app.sendEvent with
  | none => s
  | some e => if e ∈ s.events then s.remove e else s

/-- A call of the simulator, unless it is not the time for it. -/
def step (s : Simulation) : Call → Option Simulation
  | .startApplication t => if s.Next t then some (startApplication { s with now := t }) else none
  | .stopApplication t => if s.Next t then some (stopApplication { s with now := t }) else none
  | .sendPacket e =>
      if e ∈ s.events ∧ s.Next e.ts then some (sendPacket { s.remove e with now := e.ts }) else none

/-- No start comes while a packet is scheduled. -/
def StartsIdle (s : Simulation) : Call → Prop
  | .startApplication t => s.Next t → s.events = []
  | _ => True

instance (s : Simulation) (c : Call) : Decidable (s.StartsIdle c) := by
  cases c <;> unfold StartsIdle <;> exact inferInstance

/-- One chain of events, or none. -/
inductive Chain (s : Simulation) : Prop
  | idle (hevents : s.events = [])
      (hall : s.app.running = true → s.app.nPackets ≤ s.app.packetsSent)
  | sending (e : EventId) (hevents : s.events = [e]) (hsend : s.app.sendEvent = some e)
      (hrunning : s.app.running = true) (hleft : s.app.packetsSent < s.app.nPackets)
      (hts : e.ts = s.started + s.app.packetsSent * s.app.interval) (hnow : s.now ≤ e.ts)

/-- The packets that have left did so one interval after the other. -/
structure Paced (s : Simulation) : Prop where
  fits : s.app.nPackets < 2 ^ 32
  le_max : s.app.packetsSent ≤ max 1 s.app.nPackets
  pos : s.app.running = true → 0 < s.app.packetsSent
  sent_eq : s.sent = (List.range s.app.packetsSent).map fun i => s.started + i * s.app.interval
  left : ∀ t ∈ s.sent, t ≤ s.now
  chain : s.Chain

theorem paced_setup {nPackets : Nat} (hfits : nPackets < 2 ^ 32) (interval : Nat) :
    (setup nPackets interval).Paced where
  fits := hfits
  le_max := Nat.zero_le _
  pos := fun h => absurd h Bool.false_ne_true
  sent_eq := rfl
  left := List.forall_mem_nil _
  chain := .idle rfl fun h => absurd h Bool.false_ne_true

/-- Sending the packet that is due, when no other is scheduled. -/
theorem paced_sendPacket {s : Simulation} (hfits : s.app.nPackets < 2 ^ 32)
    (hrunning : s.app.running = true) (hevents : s.events = [])
    (hleft : s.app.packetsSent < max 1 s.app.nPackets)
    (hsent : s.sent = (List.range s.app.packetsSent).map fun i => s.started + i * s.app.interval)
    (hbefore : ∀ t ∈ s.sent, t ≤ s.now)
    (hdue : s.now = s.started + s.app.packetsSent * s.app.interval) : s.sendPacket.Paced := by
  have hmod : (s.app.packetsSent + 1) % 2 ^ 32 = s.app.packetsSent + 1 :=
    Nat.mod_eq_of_lt (by omega)
  have hsent' : s.sent ++ [s.now]
      = (List.range (s.app.packetsSent + 1)).map fun i => s.started + i * s.app.interval := by
    rw [List.range_succ, List.map_append, ← hsent, hdue]
    rfl
  have hbefore' : ∀ t ∈ s.sent ++ [s.now], t ≤ s.now := by
    intro t ht
    rcases List.mem_append.mp ht with ht | ht
    · exact hbefore t ht
    · exact Nat.le_of_eq (List.mem_singleton.mp ht)
  unfold sendPacket
  dsimp only
  rw [hmod]
  split_ifs with hmore
  · -- The next packet is due one interval from now.
    unfold scheduleTx
    dsimp only
    rw [if_pos hrunning, hevents]
    refine ⟨hfits, ?_, fun _ => Nat.succ_pos _, hsent', hbefore', ?_⟩
    · exact Nat.le_trans (Nat.le_of_lt hmore) (Nat.le_max_right _ _)
    · refine .sending _ rfl rfl hrunning hmore ?_ (Nat.le_add_right _ _)
      dsimp only
      rw [hdue, Nat.succ_mul, Nat.add_assoc]
  · exact ⟨hfits, hleft, fun _ => Nat.succ_pos _, hsent', hbefore',
      .idle hevents fun _ => Nat.not_lt.mp hmore⟩

/-- Stopping cancels the event that was scheduled last. -/
theorem stopApplication_eq (s : Simulation) : s.stopApplication =
    { s with
      app := { s.app with running := false }
      events := s.events.filter fun e => s.app.sendEvent ≠ some e } := by
  unfold stopApplication
  dsimp only
  cases hsend : s.app.sendEvent with
  | none => simp
  | some e =>
      have hfilter : (s.events.filter fun e' => some e ≠ some e') = s.events.filter (· ≠ e) := by
        simp [eq_comm]
      rw [hfilter]
      dsimp only
      split_ifs with hmem
      · rfl
      · rw [List.filter_eq_self.mpr fun e' he' => by
          rw [decide_eq_true_eq]
          rintro rfl
          exact hmem he']

theorem paced_stopApplication {s : Simulation} {t : Nat} (hs : s.Paced) (hnext : s.Next t) :
    (stopApplication { s with now := t }).Paced := by
  rw [stopApplication_eq]
  refine ⟨hs.fits, hs.le_max, fun h => absurd h Bool.false_ne_true, hs.sent_eq,
    fun t' ht' => Nat.le_trans (hs.left t' ht') hnext.1,
    .idle ?_ fun h => absurd h Bool.false_ne_true⟩
  cases hs.chain with
  | idle hevents _ => simp [hevents]
  | sending e hevents hsend _ _ _ _ => simp [hevents, hsend]

/-- What a call does to a chain of events. -/
theorem paced_step (s : Simulation) (c : Call) (s' : Simulation) (hs : s.Paced)
    (hc : s.StartsIdle c) (hstep : s.step c = some s') : s'.Paced := by
  cases c with
  | startApplication t =>
      rw [step, Option.ite_none_right_eq_some, Option.some.injEq] at hstep
      rcases hstep with ⟨hnext, rfl⟩
      exact paced_sendPacket hs.fits rfl (hc hnext) (Nat.lt_of_lt_of_le Nat.one_pos
        (Nat.le_max_left _ _)) rfl (List.forall_mem_nil _) (by simp)
  | stopApplication t =>
      rw [step, Option.ite_none_right_eq_some, Option.some.injEq] at hstep
      rcases hstep with ⟨hnext, rfl⟩
      exact paced_stopApplication hs hnext
  | sendPacket e =>
      rw [step, Option.ite_none_right_eq_some, Option.some.injEq] at hstep
      rcases hstep with ⟨⟨hmem, hnext⟩, rfl⟩
      cases hs.chain with
      | idle hevents _ => exact absurd (hevents ▸ hmem) List.not_mem_nil
      | sending e' hevents _ hrunning hleft hts hnow =>
          rw [hevents, List.mem_singleton] at hmem
          subst hmem
          refine paced_sendPacket hs.fits hrunning ?_ (Nat.lt_of_lt_of_le hleft
            (Nat.le_max_right _ _)) hs.sent_eq ?_ hts
          · simp [remove, hevents]
          · exact fun t ht => Nat.le_trans (hs.left t ht) hnow

/-- What sending a packet does to the events. -/
theorem sendPacket_cases (s : Simulation) (hrunning : s.app.running = true) :
    (s.sendPacket.events = s.events ∧ s.sendPacket.nextUid = s.nextUid ∧
      s.app.nPackets ≤ (s.app.packetsSent + 1) % 2 ^ 32) ∨
    ((s.app.packetsSent + 1) % 2 ^ 32 < s.app.nPackets ∧ ∃ e : EventId, e.uid = s.nextUid ∧
      s.sendPacket.events = e :: s.events ∧ s.sendPacket.nextUid = s.nextUid + 1 ∧
      s.sendPacket.app.sendEvent = some e) := by
  unfold sendPacket scheduleTx
  dsimp only
  rw [if_pos hrunning]
  split_ifs with hmore
  · exact Or.inr ⟨hmore, _, rfl, rfl, rfl, rfl⟩
  · exact Or.inl ⟨rfl, rfl, Nat.not_lt.mp hmore⟩

theorem sendPacket_app (s : Simulation) : s.sendPacket.app.nPackets = s.app.nPackets ∧
    s.sendPacket.app.interval = s.app.interval ∧ s.sendPacket.app.running = s.app.running := by
  unfold sendPacket scheduleTx
  dsimp only
  split_ifs <;> exact ⟨rfl, rfl, rfl⟩

theorem step_app (s : Simulation) (c : Call) (s' : Simulation) (hstep : s.step c = some s') :
    s'.app.nPackets = s.app.nPackets ∧ s'.app.interval = s.app.interval := by
  cases c with
  | startApplication t =>
      rw [step, Option.ite_none_right_eq_some, Option.some.injEq] at hstep
      rcases hstep with ⟨-, rfl⟩
      exact ⟨(sendPacket_app _).1, (sendPacket_app _).2.1⟩
  | stopApplication t =>
      rw [step, Option.ite_none_right_eq_some, Option.some.injEq] at hstep
      rcases hstep with ⟨-, rfl⟩
      rw [stopApplication_eq]
      exact ⟨rfl, rfl⟩
  | sendPacket e =>
      rw [step, Option.ite_none_right_eq_some, Option.some.injEq] at hstep
      rcases hstep with ⟨-, rfl⟩
      exact ⟨(sendPacket_app _).1, (sendPacket_app _).2.1⟩

/-- What calls preserve, in any order. -/
structure Valid (s : Simulation) : Prop where
  lt_nextUid : ∀ e ∈ s.events, e.uid < s.nextUid
  /-- Events are scheduled by a start that has more than one packet to send, and
      stopping takes them away. -/
  more : s.events ≠ [] → 1 < s.app.nPackets ∧ s.app.running = true

/-- Stopping leaves nothing behind if `m_sendEvent` names all that is scheduled. -/
theorem events_stopApplication (s : Simulation) :
    s.stopApplication.events = [] ↔ ∀ e ∈ s.events, s.app.sendEvent = some e := by
  rw [stopApplication_eq]
  simp [List.filter_eq_nil_iff]

/-- An event that stopping would have cancelled is the only one. -/
theorem events_remove {s : Simulation} (hstop : s.stopApplication.events = []) {e : EventId}
    (he : e ∈ s.events) : (s.remove e).events = [] := by
  rw [events_stopApplication] at hstop
  refine List.filter_eq_nil_iff.mpr fun e' he' => ?_
  have heq : e' = e := Option.some.inj ((hstop e' he').symm.trans (hstop e he))
  simp [heq]

theorem valid_sendPacket {s : Simulation} (hrunning : s.app.running = true)
    (hlt : ∀ e ∈ s.events, e.uid < s.nextUid)
    (hmore : 1 < s.app.nPackets ∨ s.app.packetsSent = 0 ∧ s.events = []) : s.sendPacket.Valid := by
  have hrunning' := s.sendPacket_app.2.2.trans hrunning
  rcases s.sendPacket_cases hrunning with ⟨hevents, huid, -⟩ | ⟨hleft, e, he, hevents, huid, -⟩
  · refine ⟨by rw [hevents, huid]; exact hlt, ?_⟩
    rw [hevents, s.sendPacket_app.1]
    rcases hmore with hmore | ⟨-, hnil⟩
    · exact fun _ => ⟨hmore, hrunning'⟩
    · exact fun hne => absurd hnil hne
  · refine ⟨?_, fun _ => ⟨?_, hrunning'⟩⟩
    · rw [hevents, huid]
      exact List.forall_mem_cons.mpr ⟨by omega, fun e' he' => Nat.lt_succ_of_lt (hlt e' he')⟩
    · rw [s.sendPacket_app.1]
      rcases hmore with hmore | ⟨hzero, -⟩
      · exact hmore
      · rw [hzero] at hleft
        exact hleft

theorem valid_setup (nPackets interval : Nat) : (setup nPackets interval).Valid :=
  ⟨List.forall_mem_nil _, fun h => absurd rfl h⟩

/-- A packet that is sent when nothing is scheduled schedules one event at most. -/
theorem stoppable_sendPacket {s : Simulation} (hrunning : s.app.running = true)
    (hevents : s.events = []) : s.sendPacket.stopApplication.events = [] := by
  rw [events_stopApplication]
  rcases s.sendPacket_cases hrunning with ⟨heq, -, -⟩ | ⟨-, e, -, heq, -, hsend⟩
  · rw [heq, hevents]
    exact List.forall_mem_nil _
  · rw [heq, hevents, hsend]
    exact List.forall_mem_singleton.mpr rfl

/-- A start adds an event to those that are scheduled. -/
theorem stoppable_start {s : Simulation} (hs : s.Valid) (t : Nat) :
    (startApplication { s with now := t }).stopApplication.events = [] ↔ s.events = [] := by
  refine ⟨fun hstop => ?_, fun hevents => stoppable_sendPacket rfl hevents⟩
  by_contra hne
  have hmore := (hs.more hne).1
  rw [events_stopApplication] at hstop
  unfold startApplication at hstop
  rcases sendPacket_cases { s with
      app := { s.app with running := true, packetsSent := 0 }
      now := t, started := t, sent := [] } rfl with ⟨-, -, hle⟩ | ⟨-, e, he, hevents, -, hsend⟩
  · exact absurd hle (Nat.not_le.mpr hmore)
  · rw [hevents, hsend, List.forall_mem_cons] at hstop
    rcases List.exists_mem_of_ne_nil s.events hne with ⟨e', he'⟩
    -- The new event is not the one that was scheduled before.
    have heq : e = e' := Option.some.inj (hstop.2 e' he')
    exact absurd (heq ▸ hs.lt_nextUid e' he') (he ▸ Nat.lt_irrefl _)

/-- A call out of a state in which stopping cancels everything. -/
theorem valid_step (s : Simulation) (c : Call) (s' : Simulation) (hs : s.Valid)
    (hstop : s.stopApplication.events = []) (hstep : s.step c = some s') : s'.Valid := by
  cases c with
  | startApplication t =>
      rw [step, Option.ite_none_right_eq_some, Option.some.injEq] at hstep
      rcases hstep with ⟨-, rfl⟩
      refine valid_sendPacket rfl hs.lt_nextUid ?_
      by_cases hevents : s.events = []
      · exact Or.inr ⟨rfl, hevents⟩
      · exact Or.inl (hs.more hevents).1
  | stopApplication t =>
      rw [step, Option.ite_none_right_eq_some, Option.some.injEq] at hstep
      rcases hstep with ⟨-, rfl⟩
      have hevents : (stopApplication { s with now := t }).events = [] := by
        rw [events_stopApplication] at hstop ⊢
        exact hstop
      exact ⟨by rw [hevents]; exact List.forall_mem_nil _, fun hne => absurd hevents hne⟩
  | sendPacket e =>
      rw [step, Option.ite_none_right_eq_some, Option.some.injEq] at hstep
      rcases hstep with ⟨⟨hmem, -⟩, rfl⟩
      have hmore := hs.more (List.ne_nil_of_mem hmem)
      refine valid_sendPacket hmore.2 (fun e' he' => ?_) (Or.inl hmore.1)
      exact hs.lt_nextUid e' (List.mem_of_mem_filter he')

/-- A start while an event is scheduled is the only call after which stopping does
    not cancel everything. -/
theorem stoppable_step (s : Simulation) (c : Call) (hs : s.Valid)
    (hstop : s.stopApplication.events = []) :
    (∀ s', s.step c = some s' → s'.stopApplication.events = []) ↔ s.StartsIdle c := by
  cases c with
  | startApplication t =>
      have hstart := stoppable_start hs t
      refine ⟨fun h hnext => hstart.mp (h _ (if_pos hnext)), fun h s' hstep => ?_⟩
      rw [step, Option.ite_none_right_eq_some, Option.some.injEq] at hstep
      rcases hstep with ⟨hnext, rfl⟩
      exact hstart.mpr (h hnext)
  | stopApplication t =>
      refine ⟨fun _ => trivial, fun _ s' hstep => ?_⟩
      rw [step, Option.ite_none_right_eq_some, Option.some.injEq] at hstep
      rcases hstep with ⟨-, rfl⟩
      rw [stopApplication_eq] at hstop
      simp only [stopApplication_eq] at hstop ⊢
      rw [hstop, List.filter_nil]
  | sendPacket e =>
      refine ⟨fun _ => trivial, fun _ s' hstep => ?_⟩
      rw [step, Option.ite_none_right_eq_some, Option.some.injEq] at hstep
      rcases hstep with ⟨⟨hmem, -⟩, rfl⟩
      exact stoppable_sendPacket (hs.more (List.ne_nil_of_mem hmem)).2 (events_remove hstop hmem)

end Simulation

open Machine

/-- At any time while the application runs, every packet that is due has been sent,
    one interval after the other, and none has been sent early. After a stop nothing
    is left to be sent. -/
theorem constant_rate (nPackets interval : Nat) (hfits : nPackets < 2 ^ 32) (cs : List Call)
    (s : Simulation)
    (hidle : Meets Simulation.step Simulation.StartsIdle (Simulation.setup nPackets interval) cs)
    (hrun : run Simulation.step (Simulation.setup nPackets interval) cs = some s) :
    s.sent = ((List.range s.app.packetsSent).map fun i => s.started + i * interval) ∧
      (s.app.running = true → ∀ i < max 1 nPackets,
        (s.started + i * interval < s.now → i < s.app.packetsSent) ∧
          (i < s.app.packetsSent → s.started + i * interval ≤ s.now)) ∧
      s.app.packetsSent ≤ max 1 nPackets ∧ (s.app.running = false → s.events = []) := by
  have hs := run_induction Simulation.paced_step cs _ s (Simulation.paced_setup hfits interval)
    hidle hrun
  have happ := run_invariant (P := fun s => s.app.nPackets = nPackets ∧ s.app.interval = interval)
    (fun s c s' h hstep => ⟨(s.step_app c s' hstep).1.trans h.1,
      (s.step_app c s' hstep).2.trans h.2⟩) cs _ s ⟨rfl, rfl⟩ hrun
  rcases happ with ⟨hn, hw⟩
  have hsent := hs.sent_eq
  have hmax := hs.le_max
  rw [hw] at hsent
  rw [hn] at hmax
  refine ⟨hsent, fun hrunning i hi => ⟨fun hdue => ?_, fun hlt => ?_⟩, hmax, fun hstopped => ?_⟩
  · have hpos := hs.pos hrunning
    cases hs.chain with
    | idle _ hall =>
        have hle := hall hrunning
        rw [hn] at hle
        omega
    | sending e _ _ _ _ hts hnow =>
        rw [hw] at hts
        exact Nat.lt_of_mul_lt_mul_right (a := interval) (by omega)
  · refine hs.left _ ?_
    rw [hsent]
    exact List.mem_map.mpr ⟨i, List.mem_range.mpr hlt, rfl⟩
  · cases hs.chain with
    | idle hevents _ => exact hevents
    | sending _ _ _ hrunning _ _ _ => exact absurd (hrunning.symm.trans hstopped) Bool.noConfusion

/-- The application is stopped before the last one of three packets. -/
def stoppedEarly : List Call := [.startApplication 1, .sendPacket ⟨0, 9⟩, .stopApplication 12]

theorem constant_rate_three :
    ∃ s, run Simulation.step (Simulation.setup 3 8) stoppedEarly = some s ∧
      s.sent = ((List.range s.app.packetsSent).map fun i => s.started + i * 8) ∧
        (s.app.running = true → ∀ i < max 1 3,
          (s.started + i * 8 < s.now → i < s.app.packetsSent) ∧
            (i < s.app.packetsSent → s.started + i * 8 ≤ s.now)) ∧
        s.app.packetsSent ≤ max 1 3 ∧ (s.app.running = false → s.events = []) :=
  ⟨_, rfl, constant_rate 3 8 (by decide) stoppedEarly _ (by decide) rfl⟩

/-- Stopping the application at any moment of a run would cancel every packet that is
    scheduled, if no start comes while one is, and only then. -/
theorem one_chain_iff (nPackets interval : Nat) (cs : List Call) :
    Throughout Simulation.step (fun s => s.stopApplication.events = [])
        (Simulation.setup nPackets interval) cs ↔
      Meets Simulation.step Simulation.StartsIdle (Simulation.setup nPackets interval) cs :=
  throughout_iff Simulation.valid_step Simulation.stoppable_step cs _
    (Simulation.valid_setup nPackets interval) rfl

end Lab5

end Cse5462
