import Cse5462.Tcpd.Tracking

/-!
# Retransmissions

What the driver sends when the timer process asks it to send a frame again. It
takes what is in the slot of the number, without looking whether the frame is
still without an acknowledgement. The acknowledgement cancels the timer and
clears the slot, but the timer may have expired before the cancellation arrives,
and a request that is in the pipe is not taken back. Then the driver sends a
block of zeros, or the block of a later frame that has not been sent.

`resend_faithful` says that these are the only ways to go wrong, together with a
refill that overwrites a frame without an acknowledgement. The invariant ties
the slots to the record, and the numbers that are not in the record to the
commands: the last command for such a number is its cancellation, or there is
none and the timer list does not have it.

## Main definitions

* `Tracked.Timely`: The step does not overtake a request or a cancellation.
* `Tracked.Faithful`: A resent packet is the first transmission again.
* `Tracked.Kept`: The invariant.

## Theorems

* `kept_step`: A timely step keeps the invariant.
* `resend_faithful`: In runs of timely steps retransmissions are faithful.
* `resend_stale`: A run with a retransmission that is not.
-/

namespace Cse5462

namespace Tracked

/-- If the step resends a packet, its number is that of a frame that has been
    sent and not been acknowledged since, and its body is the block that was
    sent first. -/
def Faithful (top : Int) (t : Tracked) (e : ClientEvent) : Prop :=
  ∀ now c' p, e = .resend now → t.client.step top e = some (c', some p) →
    t.live p.seq = some p.body

/-- No acknowledgement is processed while a request for its number is in the
    pipe, and none whose offset does not fit an `int`; no timer is due whose
    cancellation is on its way; and no refill overwrites the slot of a frame without
    an acknowledgement. -/
def Timely (t : Tracked) (e : ClientEvent) : Prop :=
  (∀ n stamp now, e = .ack n stamp now → n ∉ t.client.requests ∧ Driver.OffsetFits n) ∧
  (∀ left now, e = .timeout left now → ∀ n, lastCommand n t.client.commands = some .cancel →
    ¬ TimerProcess.Due (t.client.timer.wake left) now n) ∧
  (∀ body length, e = .refill body length → t.live t.client.driver.cursors.bufpos = none)

/-- Only the numbers of commands in the pipe have a last one. -/
theorem exists_of_lastCommand {n : Int} {ms : List Message} {o : Operation}
    (h : lastCommand n ms = some o) : ∃ m ∈ ms, m.id = n := by
  induction ms with
  | nil => cases h
  | cons m ms ih =>
      rw [lastCommand_cons, Option.or_eq_some_iff] at h
      rcases h with hrest | ⟨-, hm⟩
      · rcases ih hrest with ⟨x, hx, hid⟩
        exact ⟨x, List.mem_cons_of_mem _ hx, hid⟩
      · rw [Option.ite_none_right_eq_some] at hm
        exact ⟨m, List.mem_cons_self, hm.1⟩

instance (t : TimerList) (now : Timeval) (n : Int) : Decidable (TimerProcess.Due t now n) := by
  unfold TimerProcess.Due
  exact inferInstance

instance (t : Tracked) (e : ClientEvent) : Decidable (t.Timely e) :=
  match e with
  | .ack n _ _ => decidable_of_iff (n ∉ t.client.requests ∧ Driver.OffsetFits n)
      ⟨fun h => ⟨fun _ _ _ heq => (ClientEvent.ack.inj heq).1 ▸ h, nofun, nofun⟩,
        fun h => h.1 n _ _ rfl⟩
  | .timeout left now => decidable_of_iff (∀ m ∈ t.client.commands,
        lastCommand m.id t.client.commands = some .cancel →
          ¬ TimerProcess.Due (t.client.timer.wake left) now m.id)
      ⟨fun h => ⟨nofun, fun _ _ heq n hn => by
          cases heq
          rcases exists_of_lastCommand hn with ⟨m, hm, rfl⟩
          exact h m hm hn, nofun⟩,
        fun h m _ hm => h.2.1 left now rfl m.id hm⟩
  | .refill _ _ => decidable_of_iff (t.live t.client.driver.cursors.bufpos = none)
      ⟨fun h => ⟨nofun, nofun, fun _ _ _ => h⟩, fun h => h.2.2 _ _ rfl⟩
  | .select | .resend _ | .noRefill | .noAck | .send _ | .command _ _ | .memory _ _ =>
      isTrue ⟨nofun, nofun, nofun⟩

/-- The invariant: the slots hold what has been sent, requests are for frames
    without an acknowledgement, and the timers of all others are cancelled. -/
structure Kept (t : Tracked) : Prop where
  regular : t.Regular
  slot : ∀ n b, t.live n = some b → t.client.driver.sendbuf n = b
  asked : ∀ n ∈ t.client.requests, t.live n ≠ none
  answered : ∀ n, t.client.driver.phase = .resending n → t.live n ≠ none
  disarmed : ∀ n, t.live n = none → lastCommand n t.client.commands = some .cancel ∨
    (lastCommand n t.client.commands = none ∧ n ∉ t.client.timer.pending)

theorem kept_init (sendbuf : Int → Block) (cell : Heap) (start : Timeval) :
    (init sendbuf cell start).Kept where
  regular := regular_init sendbuf cell start
  slot := fun n b h => by cases h
  asked := fun n hn => absurd hn List.not_mem_nil
  answered := fun n h => Phase.noConfusion h
  disarmed := fun n _ => Or.inr ⟨rfl, List.not_mem_nil⟩

/-- A packet that is resent is faithful to the record. -/
theorem faithful_of_kept (top : Int) (t : Tracked) (e : ClientEvent) (h : t.Kept) :
    t.Faithful top e := by
  rintro now c' p rfl hstep
  generalize hout : some p = out at hstep
  generalize he : ClientEvent.resend now = e at hstep
  cases Client.step_cases top t.client c' e out hstep with
  | resent id now' hphase =>
      cases hout
      -- The request is for a frame of the record, and its slot holds what was sent.
      cases hlive : t.live id with
      | none => exact absurd hlive (h.answered id hphase)
      | some b =>
          have hslot := h.slot id b hlive
          dsimp only [Driver.packet]
          rw [hlive, hslot]
  | _ => cases he

/-- The timer process reads a command, and the timers of frames that are not in
    the record stay cancelled. -/
theorem disarmed_of_read {c : Client} {n : Int} {m : Message} {ms : List Message}
    {left : Option Nat} {now : Timeval} {p : TimerProcess} (hsound : c.timer.Sound)
    (h : lastCommand n c.commands = some .cancel ∨
      (lastCommand n c.commands = none ∧ n ∉ c.timer.pending))
    (hcmd : c.commands = m :: ms) (hp : c.timer.command m left now = some p) :
    lastCommand n ms = some .cancel ∨ (lastCommand n ms = none ∧ n ∉ p.pending) := by
  rw [hcmd, lastCommand_cons] at h
  -- A later command for the number decides, or the one that is read.
  cases hlast : lastCommand n ms with
  | some o =>
      rw [hlast, Option.some_or, Option.some.injEq] at h
      rcases h with hcancel | ⟨hnone, _⟩
      · exact Or.inl (congrArg some hcancel)
      · cases hnone
  | none =>
      rw [hlast, Option.none_or] at h
      refine Or.inr ⟨rfl, ?_⟩
      by_cases hid : m.id = n
      · -- The command is the last one for the number, so it cancels it.
        rw [if_pos hid, Option.some.injEq] at h
        rcases h with hcancel | ⟨hnone, _⟩
        · rcases TimerProcess.cancelled hsound hcancel hp with ⟨_, hiff⟩
          exact fun hmem => ((hiff n).mp hmem).2 hid.symm
        · cases hnone
      · rw [if_neg hid] at h
        rcases h with hcancel | ⟨_, hmem⟩
        · cases hcancel
        · cases hm : m.operation with
          | start =>
              have hstarted := TimerProcess.started hsound hm hp
              exact fun hn => (hstarted.only n hn).elim hmem fun heq => hid heq.symm
          | cancel =>
              rcases TimerProcess.cancelled hsound hm hp with ⟨_, hiff⟩
              exact fun hn => hmem ((hiff n).mp hn).1

/-- A start written for another number. -/
theorem disarmed_of_started {n id : Int} {interval : ℚ≥0} {ms : List Message}
    {pending : List Int} (hid : id ≠ n)
    (h : lastCommand n ms = some .cancel ∨ (lastCommand n ms = none ∧ n ∉ pending)) :
    lastCommand n (ms ++ [starttimer interval id]) = some .cancel ∨
      (lastCommand n (ms ++ [starttimer interval id]) = none ∧ n ∉ pending) := by
  have hne : (starttimer interval id).id ≠ n := hid
  rw [lastCommand_concat, if_neg hne]
  exact h

/-- The slots of the recorded frames are not touched by writing to another
    slot. -/
theorem slots_update {live : Int → Option Block} {sendbuf : Int → Block} {i : Int} {c : Block}
    (hslot : ∀ n b, live n = some b → sendbuf n = b) (hi : live i = none) :
    ∀ n b, live n = some b → Function.update sendbuf i c n = b := by
  intro n b hn
  have hne : n ≠ i := by
    rintro rfl
    rw [hi] at hn
    cases hn
  rw [Function.update_of_ne hne]
  exact hslot n b hn

/-- A frame that leaves the record. -/
theorem slots_erase {live : Int → Option Block} {sendbuf : Int → Block} (k : Int)
    (hslot : ∀ n b, live n = some b → sendbuf n = b) :
    ∀ n b, Function.update live k none n = some b → sendbuf n = b := by
  intro n b hn
  by_cases hnk : n = k
  · rw [hnk, Function.update_self] at hn
    cases hn
  · rw [Function.update_of_ne hnk] at hn
    exact hslot n b hn

theorem kept_step (top : Int) (t : Tracked) (e : ClientEvent) (t' : Tracked) (h : t.Kept)
    (htimely : t.Timely e) (hstep : t.step top e = some t') : t'.Kept := by
  have hreg' := regular_step top t e t' h.regular hstep
  rcases h with ⟨hreg, hslot, hasked, hans, hdis⟩
  rcases Option.map_eq_some_iff.mp hstep with ⟨⟨c', out⟩, hc, rfl⟩
  cases Client.step_cases top t.client c' e out hc with
  | nothingAsked hphase hreq => exact ⟨hreg', hslot, hasked, fun n hn => Phase.noConfusion hn, hdis⟩
  | asked id requests hphase hreq =>
      rw [hreq] at hasked
      refine ⟨hreg', hslot, fun n hn => hasked n (List.mem_cons_of_mem _ hn), fun n hn => ?_, hdis⟩
      exact Phase.resending.inj hn ▸ hasked id List.mem_cons_self
  | resent id now hphase =>
      refine ⟨hreg', hslot, hasked, fun n hn => Phase.noConfusion hn, ?_⟩
      intro n hn
      -- The driver answers only for frames of the record.
      have hid : id ≠ n := fun heq => hans id hphase (heq ▸ hn)
      exact disarmed_of_started hid (hdis n hn)
  | refilled body length hphase hguard hlen =>
      -- The slot that is written is not that of a recorded frame.
      have hfree := htimely.2.2 body length rfl
      exact ⟨hreg', slots_update hslot hfree, hasked, fun n hn => Phase.noConfusion hn, hdis⟩
  | notRefilled hphase => exact ⟨hreg', hslot, hasked, fun n hn => Phase.noConfusion hn, hdis⟩
  | acked k stamp now lar hphase hscan =>
      -- No request for the number is on its way.
      rcases htimely.1 k stamp now rfl with ⟨hfree, hfits⟩
      have herased : Function.update t.live k none k = none := Function.update_self k none t.live
      refine ⟨hreg', ?_, fun n hn => ?_, fun n hn => Phase.noConfusion hn, fun n hn => ?_⟩
      · dsimp only
        rw [Driver.clear_eq _ hfits]
        exact slots_update (slots_erase k hslot) herased
      · have hnk : n ≠ k := fun heq => hfree (heq ▸ hn)
        dsimp only [record]
        rw [Function.update_of_ne hnk]
        exact hasked n hn
      · dsimp only [record] at hn
        dsimp only
        rw [lastCommand_concat]
        by_cases hid : (canceltimer k).id = n
        · rw [if_pos hid]
          exact Or.inl rfl
        · rw [if_neg hid]
          -- A cancellation decoded as another number is not for a slot.
          have hold : t.live n = none := by
            by_cases hnk : n = k
            · by_contra hlive
              rcases hreg.live_slot n hlive with ⟨h0, h64⟩
              exact hid (by rw [← hnk, canceltimer_id n h0 (by omega)])
            · rwa [Function.update_of_ne hnk] at hn
          exact hdis n hold
  | notAcked hphase => exact ⟨hreg', hslot, hasked, fun n hn => Phase.noConfusion hn, hdis⟩
  | sent now hphase hguard =>
      refine ⟨hreg', fun n b hn => ?_, fun n hn => ?_, fun n hn => Phase.noConfusion hn,
        fun n hn => ?_⟩
      · dsimp only [record, Driver.packet] at hn
        by_cases hseq : n = t.client.driver.cursors.lfs + 1
        · rw [hseq, Function.update_self, Option.some.injEq] at hn
          rw [hseq]
          exact hn
        · rw [Function.update_of_ne hseq] at hn
          exact hslot n b hn
      · dsimp only [record, Driver.packet]
        by_cases hseq : n = t.client.driver.cursors.lfs + 1
        · rw [hseq, Function.update_self]
          exact Option.some_ne_none _
        · rw [Function.update_of_ne hseq]
          exact hasked n hn
      · dsimp only [record, Driver.packet] at hn
        have hseq : n ≠ t.client.driver.cursors.lfs + 1 := by
          intro heq
          rw [heq, Function.update_self] at hn
          cases hn
        rw [Function.update_of_ne hseq] at hn
        exact disarmed_of_started (Ne.symm hseq) (hdis n hn)
  | notSent now hphase hguard =>
      exact ⟨hreg', hslot, hasked, fun n hn => Phase.noConfusion hn, hdis⟩
  | commanded left now m commands p hcmd hp =>
      exact ⟨hreg', hslot, hasked, hans,
        fun n hn => disarmed_of_read hreg.timer (hdis n hn) hcmd hp⟩
  | expired left now p ids hp =>
      rcases TimerProcess.expired hreg.timer hp with ⟨_, hsplit, hdue⟩
      refine ⟨hreg', hslot, fun n hn => ?_, hans, fun n hn => ?_⟩
      · rcases List.mem_append.mp hn with hn | hn
        · exact hasked n hn
        · -- The timer of a frame that is not in the record would be cancelled.
          intro hnone
          rcases hdis n hnone with hcancel | ⟨_, hnot⟩
          · exact htimely.2.1 left now rfl n hcancel (hdue n hn)
          · exact hnot (hsplit ▸ List.mem_append_left _ hn)
      · refine (hdis n hn).imp_right fun hnone => ⟨hnone.1, fun hmem => hnone.2 ?_⟩
        exact hsplit ▸ List.mem_append_right _ hmem
  | changed i b hout =>
      have hfree : t.live i = none := by
        by_contra hlive
        exact hout (hreg.live_slot i hlive)
      exact ⟨hreg', slots_update hslot hfree, hasked, hans, hdis⟩

end Tracked

/-- In every run of timely steps each packet that is resent is the first
    transmission of a frame without an acknowledgement again. -/
theorem resend_faithful (top : Int) (sendbuf : Int → Block) (cell : Heap) (start : Timeval)
    (es : List ClientEvent)
    (h : Machine.Meets (Tracked.step top) Tracked.Timely (Tracked.init sendbuf cell start) es) :
    Machine.Meets (Tracked.step top) (Tracked.Faithful top) (Tracked.init sendbuf cell start) es :=
  Machine.meets_of_invariant (Tracked.kept_step top)
    (fun t e hkept _ => Tracked.faithful_of_kept top t e hkept) es _
    (Tracked.kept_init sendbuf cell start) h

/-- The first block is sent, its timer expires, and the request is read. -/
def resendEvents : List ClientEvent :=
  [.select, .refill (Block.single 1) buffSize, .noAck, .send ⟨1, 0⟩, .command none ⟨1, 0⟩, .select,
    .noRefill, .timeout none ⟨2, 0⟩, .noAck, .send ⟨2, 0⟩, .select]

/-- Frame 0 is sent again. -/
theorem resend_faithful_first :
    Machine.Meets (Tracked.step 64) (Tracked.Faithful 64) Tracked.fresh
      (resendEvents ++ [.resend ⟨3, 0⟩]) :=
  resend_faithful 64 _ _ _ _ (by decide +kernel)

/-- The same, but frame 0 is acknowledged while the request is in the pipe. -/
def staleEvents : List ClientEvent :=
  [.select, .refill (Block.single 1) buffSize, .noAck, .send ⟨1, 0⟩, .command none ⟨1, 0⟩, .select,
    .noRefill, .timeout none ⟨2, 0⟩, .ack 0 ⟨1, 0⟩ ⟨2, 0⟩, .send ⟨2, 0⟩, .select]

/-- The driver is about to send frame 0 again, which has been acknowledged. What
    it sends is a block of zeros. -/
theorem resend_stale :
    ∃ t, Machine.run (Tracked.step 64) Tracked.fresh staleEvents = some t ∧
      ¬ t.Faithful 64 (.resend ⟨3, 0⟩) := by
  have hrun : (Machine.run (Tracked.step 64) Tracked.fresh staleEvents).map
      (fun t => (decide (t.live 0 = none), t.client.driver.phase)) = some (true, .resending 0) := by
    decide +kernel
  rcases Option.map_eq_some_iff.mp hrun with ⟨t, ht, hval⟩
  rw [Prod.mk.injEq, decide_eq_true_eq] at hval
  refine ⟨t, ht, ?_⟩
  intro h
  have hstep : t.client.step 64 (.resend ⟨3, 0⟩) = some
      ({ t.client with
        driver := { t.client.driver.estimate with phase := .ftpc }
        commands := t.client.commands ++ [starttimer (seconds t.client.driver.estimate.rto) 0] },
      some (t.client.driver.packet 0 ⟨3, 0⟩)) := by
    simp only [Client.step, Client.resend, hval.2]
    rfl
  have hlive := h _ _ _ rfl hstep
  dsimp only [Driver.packet] at hlive
  rw [hval.1] at hlive
  cases hlive

end Cse5462
