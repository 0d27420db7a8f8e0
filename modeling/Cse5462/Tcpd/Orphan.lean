import Cse5462.Tcpd.Runaway

/-!
# No Frame is Orphaned

A frame that has been sent and not been acknowledged is lost for good if nothing
is left that will make the driver send it again. What can be left is a start
command on its way to the timer process, a node in the timer list, a request on
its way to the driver, or the request that the driver is answering.

The invariant keeps track of the last command for a number only. If that is a
start, the timer process will have the number in its list when it has read it,
whether the list has it already or not. If there is no command for the number,
the list has it. Reading a command moves a frame from the first kind to the
second, an expiry moves it from the list to the pipe of requests, and the answer
of the driver puts it back to the start.

One thing can break this: a start that the timer process reads may lose its node, if
the carry wraps when it is compared with the head of the list. The process does not
get further than that, because of the timeout it is left with. It does get there, in
the run `runaway`.

## Main definitions

* `Tracked.Covered`: Something is left that will send the frame again.
* `Tracked.Armed`: The same, by the last command in the pipe.
* `Tracked.StartsFit`: A start that is read does not lose its node.

## Theorems

* `armed_step`: Every step keeps the frames armed.
* `no_orphan`: When every frame without an acknowledgement is covered.
* `no_orphan_lost`: A run in which one is not.
-/

namespace Cse5462

/-- The command cancels the timer of number `n`. -/
def Message.Cancels (m : Message) (n : Int) : Prop := m.operation = .cancel ∧ m.id = n

/-- If the last command for a number is a start, no cancellation of the number
    is behind it in the pipe. -/
theorem exists_start_of_lastCommand (n : Int) (ms : List Message)
    (h : lastCommand n ms = some .start) :
    ∃ before m after, ms = before ++ m :: after ∧ m.operation = .start ∧ m.id = n ∧
      ∀ m' ∈ after, ¬ m'.Cancels n := by
  -- Induction on the commands in front of the last one for the number.
  induction ms with
  | nil => cases h
  | cons m ms ih =>
      rw [lastCommand_cons] at h
      cases hlast : lastCommand n ms with
      | some o =>
          rw [hlast, Option.some_or, Option.some.injEq] at h
          rcases ih (h ▸ hlast) with ⟨before, x, after, rfl, hx⟩
          exact ⟨m :: before, x, after, rfl, hx⟩
      | none =>
          rw [hlast, Option.none_or, Option.ite_none_right_eq_some, Option.some.injEq] at h
          refine ⟨[], m, ms, rfl, h.2, h.1, ?_⟩
          -- Behind the last command for the number there is none for it.
          clear ih
          induction ms with
          | nil => exact fun x hx => absurd hx List.not_mem_nil
          | cons y ms ih =>
              rw [lastCommand_cons, Option.or_eq_none_iff] at hlast
              intro x hx hcancel
              rcases List.mem_cons.mp hx with rfl | hx
              · rw [if_pos hcancel.2] at hlast
                cases hlast.2
              · exact ih hlast.1 x hx hcancel

/-- Without any command for a number, none of the commands cancels it. -/
theorem not_cancels_of_lastCommand (n : Int) (ms : List Message) (h : lastCommand n ms = none) :
    ∀ m ∈ ms, ¬ m.Cancels n := by
  induction ms with
  | nil => exact fun m hm => absurd hm List.not_mem_nil
  | cons m ms ih =>
      rw [lastCommand_cons, Option.or_eq_none_iff] at h
      intro x hx hcancel
      rcases List.mem_cons.mp hx with rfl | hx
      · rw [if_pos hcancel.2] at h
        cases h.2
      · exact ih h.1 x hx hcancel

namespace Tracked

/-- Frame number `n` will be sent again: a start for it is in the pipe behind
    every cancellation of it, or it is in the timer list and no cancellation is
    on its way, or a request for it is in the pipe or being answered. -/
def Covered (t : Tracked) (n : Int) : Prop :=
  (∃ before m after, t.client.commands = before ++ m :: after ∧ m.operation = .start ∧
      m.id = n ∧ ∀ m' ∈ after, ¬ m'.Cancels n) ∨
    (n ∈ t.client.timer.pending ∧ ∀ m ∈ t.client.commands, ¬ m.Cancels n) ∨
    n ∈ t.client.requests ∨ t.client.driver.phase = .resending n

/-- The same, by the last command for the number. -/
def Armed (c : Client) (n : Int) : Prop :=
  lastCommand n c.commands = some .start ∨
    (lastCommand n c.commands = none ∧ n ∈ c.timer.pending) ∨
    n ∈ c.requests ∨ c.driver.phase = .resending n

theorem covered_of_armed (t : Tracked) (n : Int) (h : Armed t.client n) : t.Covered n := by
  rcases h with hstart | ⟨hnone, hpend⟩ | hreq
  · exact Or.inl (exists_start_of_lastCommand n _ hstart)
  · exact Or.inr (Or.inl ⟨hpend, not_cancels_of_lastCommand n _ hnone⟩)
  · exact Or.inr (Or.inr hreq)

/-- A frame stays armed as long as the last command for it is the same, if the
    driver was not about to answer a request for it. -/
theorem armed_of_moved (c c' : Client) (n : Int) (h : Armed c n)
    (hcmd : lastCommand n c'.commands = lastCommand n c.commands) (htimer : c'.timer = c.timer)
    (hreq : c'.requests = c.requests) (hphase : c.driver.phase ≠ .resending n) :
    Armed c' n := by
  unfold Armed at h ⊢
  rw [hcmd, htimer, hreq]
  rcases h with hstart | hlist | hreq' | hphase'
  · exact Or.inl hstart
  · exact Or.inr (Or.inl hlist)
  · exact Or.inr (Or.inr (Or.inl hreq'))
  · exact absurd hphase' hphase

/-- So it does when a command for another number is written. -/
theorem armed_of_written (c c' : Client) (n : Int) (m : Message) (h : Armed c n)
    (hm : m.id ≠ n) (hcmd : c'.commands = c.commands ++ [m]) (htimer : c'.timer = c.timer)
    (hreq : c'.requests = c.requests) (hphase : c.driver.phase ≠ .resending n) :
    Armed c' n := by
  refine armed_of_moved c c' n h ?_ htimer hreq hphase
  rw [hcmd, lastCommand_concat, if_neg hm]

/-- A start written for a number arms it. -/
theorem armed_of_started (c : Client) (n : Int) (interval : ℚ≥0) (ms : List Message)
    (hcmd : c.commands = ms ++ [starttimer interval n]) : Armed c n := by
  refine Or.inl ?_
  rw [hcmd, lastCommand_concat]
  exact if_pos rfl

/-- The timer process reads a command: the frame goes over to the list, or is
    not concerned. -/
theorem armed_of_read (c : Client) (n : Int) (m : Message) (ms : List Message)
    (left : Option Nat) (now : Timeval) (p : TimerProcess) (hsound : c.timer.Sound)
    (h : Armed c n) (hcmd : c.commands = m :: ms) (hp : c.timer.command m left now = some p)
    (hfits : c.timer.StartFits m left ∨ p.TimeoutValid) :
    Armed { c with timer := p, commands := ms } n := by
  -- A start puts its number into the list, a cancellation takes only its own out.
  have hpend : (m.operation = .start ∧ m.id = n → n ∈ p.pending) ∧
      (m.id ≠ n → n ∈ c.timer.pending → n ∈ p.pending) := by
    cases hm : m.operation with
    | start =>
        have hstarted := TimerProcess.started hsound hm hp
        exact ⟨fun heq => heq.2 ▸ hstarted.added hfits, fun _ hmem => hstarted.kept n hmem⟩
    | cancel =>
        rcases TimerProcess.cancelled hsound hm hp with ⟨_, hiff⟩
        exact ⟨fun heq => absurd heq.1 (by exact Operation.noConfusion),
          fun hne hmem => (hiff n).mpr ⟨hmem, Ne.symm hne⟩⟩
  unfold Armed at h ⊢
  rw [hcmd, lastCommand_cons] at h
  dsimp only
  -- The last command for the number is behind, or is the one that is read, or there is none.
  rcases h with hstart | ⟨hnone, hmem⟩ | hreq
  · cases hlast : lastCommand n ms with
    | some o =>
        rw [hlast, Option.some_or] at hstart
        exact Or.inl hstart
    | none =>
        rw [hlast, Option.none_or, Option.ite_none_right_eq_some, Option.some.injEq] at hstart
        exact Or.inr (Or.inl ⟨rfl, hpend.1 ⟨hstart.2, hstart.1⟩⟩)
  · rw [Option.or_eq_none_iff] at hnone
    have hne : m.id ≠ n := by
      intro heq
      rw [if_pos heq] at hnone
      cases hnone.2
    exact Or.inr (Or.inl ⟨hnone.1, hpend.2 hne hmem⟩)
  · exact Or.inr (Or.inr hreq)

/-- Every frame without an acknowledgement is armed. -/
def AllArmed (t : Tracked) : Prop := ∀ n, t.live n ≠ none → Armed t.client n

/-- An acknowledgement carries the number of a slot. -/
def NumbersSlots (e : ClientEvent) : Prop :=
  ∀ n stamp now, e = .ack n stamp now → 0 ≤ n ∧ n < 64

instance (e : ClientEvent) : Decidable (NumbersSlots e) :=
  match e with
  | .ack n _ _ => decidable_of_iff (0 ≤ n ∧ n < 64)
      ⟨fun h _ _ _ heq => ClientEvent.ack.inj heq |>.1 ▸ h, fun h => h n _ _ rfl⟩
  | .select | .resend _ | .refill _ _ | .noRefill | .noAck | .send _ | .command _ _ | .timeout _ _
  | .memory _ _ => isTrue fun _ _ _ heq => ClientEvent.noConfusion heq

/-- The carry of a start that is read fits at the head of the list. -/
def StartsFit (t : Tracked) : ClientEvent → Prop
  | .command left _ => ∀ m ∈ t.client.commands.head?, t.client.timer.StartFits m left
  | _ => True

instance (t : Tracked) (e : ClientEvent) : Decidable (t.StartsFit e) := by
  unfold StartsFit
  split <;> exact inferInstance

/-- Every step keeps the frames armed, as long as starts fit or the timer process goes
    on. -/
theorem armed_step (top : Int) (t : Tracked) (e : ClientEvent) (t' : Tracked) (hreg : t.Regular)
    (harm : t.AllArmed) (he : NumbersSlots e)
    (hfits : t.StartsFit e ∨ t'.client.timer.TimeoutValid) (hstep : t.step top e = some t') :
    t'.AllArmed := by
  rcases Option.map_eq_some_iff.mp hstep with ⟨⟨c', out⟩, hc, rfl⟩
  cases Client.step_cases top t.client c' e out hc with
  | nothingAsked hphase hreq =>
      exact fun n hn => armed_of_moved _ _ n (harm n hn) rfl rfl rfl
        (fun heq => Phase.noConfusion (hphase.symm.trans heq))
  | asked id requests hphase hreq =>
      intro n hn
      rcases harm n hn with hstart | hlist | hreq' | hphase'
      · exact Or.inl hstart
      · exact Or.inr (Or.inl hlist)
      · -- The request that is read is now being answered.
        rw [hreq] at hreq'
        rcases List.mem_cons.mp hreq' with rfl | hrest
        · exact Or.inr (Or.inr (Or.inr rfl))
        · exact Or.inr (Or.inr (Or.inl hrest))
      · rw [hphase] at hphase'
        cases hphase'
  | resent id now hphase =>
      intro n hn
      -- The answer starts the timer of its own number.
      by_cases hid : id = n
      · subst hid
        exact armed_of_started _ id _ _ rfl
      · have hne : t.client.driver.phase ≠ .resending n := by
          intro heq
          rw [hphase] at heq
          exact hid (Phase.resending.inj heq)
        exact armed_of_written t.client _ n (starttimer _ id) (harm n hn) hid rfl rfl rfl hne
  | refilled body length hphase hguard hlen =>
      exact fun n hn => armed_of_moved _ _ n (harm n hn) rfl rfl rfl
        (fun heq => Phase.noConfusion (hphase.symm.trans heq))
  | notRefilled hphase =>
      exact fun n hn => armed_of_moved _ _ n (harm n hn) rfl rfl rfl
        (fun heq => Phase.noConfusion (hphase.symm.trans heq))
  | acked k stamp now lar hphase hscan =>
      intro n hn
      dsimp only [record] at hn
      -- The number that is acknowledged leaves the record.
      have hnk : n ≠ k := by
        intro heq
        rw [heq, Function.update_self] at hn
        exact hn rfl
      rw [Function.update_of_ne hnk] at hn
      rcases he k stamp now rfl with ⟨h0, h64⟩
      have hid : (canceltimer k).id ≠ n := by
        rw [canceltimer_id k h0 (by omega)]
        exact Ne.symm hnk
      exact armed_of_written t.client _ n (canceltimer k) (harm n hn) hid rfl rfl rfl
        (fun heq => Phase.noConfusion (hphase.symm.trans heq))
  | notAcked hphase =>
      exact fun n hn => armed_of_moved _ _ n (harm n hn) rfl rfl rfl
        (fun heq => Phase.noConfusion (hphase.symm.trans heq))
  | sent now hphase hguard =>
      intro n hn
      dsimp only [record, Driver.packet] at hn
      -- The frame that is sent, or another one.
      by_cases hseq : n = t.client.driver.cursors.lfs + 1
      · rw [hseq]
        exact armed_of_started _ _ _ _ rfl
      · rw [Function.update_of_ne hseq] at hn
        exact armed_of_written t.client _ n (starttimer _ _) (harm n hn) (Ne.symm hseq) rfl rfl rfl
          (fun heq => Phase.noConfusion (hphase.symm.trans heq))
  | notSent now hphase hguard =>
      exact fun n hn => armed_of_moved _ _ n (harm n hn) rfl rfl rfl
        (fun heq => Phase.noConfusion (hphase.symm.trans heq))
  | commanded left now m commands p hcmd hp =>
      intro n hn
      refine armed_of_read t.client n m commands left now p hreg.timer (harm n hn) hcmd hp ?_
      exact hfits.imp_left fun hstarts => hstarts m (by rw [hcmd, List.head?_cons]; rfl)
  | expired left now p ids hp =>
      rcases TimerProcess.expired hreg.timer hp with ⟨_, hsplit, _⟩
      intro n hn
      rcases harm n hn with hstart | ⟨hnone, hmem⟩ | hreq' | hphase'
      · exact Or.inl hstart
      · -- The node stays in the list, or its number goes to the driver.
        rw [hsplit] at hmem
        rcases List.mem_append.mp hmem with hids | hpend
        · exact Or.inr (Or.inr (Or.inl (List.mem_append_right _ hids)))
        · exact Or.inr (Or.inl ⟨hnone, hpend⟩)
      · exact Or.inr (Or.inr (Or.inl (List.mem_append_left _ hreq')))
      · exact Or.inr (Or.inr (Or.inr hphase'))
  | changed i b hout => exact harm

/-- Acknowledgements carry numbers of slots, and starts fit. -/
def KeepsArmed (t : Tracked) (e : ClientEvent) : Prop := NumbersSlots e ∧ t.StartsFit e

instance (t : Tracked) (e : ClientEvent) : Decidable (t.KeepsArmed e) :=
  inferInstanceAs (Decidable (_ ∧ _))

end Tracked

/-- In every run in which acknowledgements carry numbers of slots and no start loses its
    node, every frame that has been sent and not been acknowledged since will be sent
    again, at any moment. -/
theorem no_orphan (top : Int) (sendbuf : Int → Block) (cell : Heap) (start : Timeval)
    (es : List ClientEvent)
    (hkeeps : Machine.Meets (Tracked.step top) Tracked.KeepsArmed
      (Tracked.init sendbuf cell start) es) :
    Machine.Throughout (Tracked.step top) (fun t => ∀ n, t.live n ≠ none → t.Covered n)
      (Tracked.init sendbuf cell start) es :=
  Machine.throughout_of_meets (P := fun t => t.Regular ∧ t.AllArmed)
    (fun t e t' h he hs => ⟨Tracked.regular_step top t e t' h.1 hs,
      Tracked.armed_step top t e t' h.1 h.2 he.1 (Or.inl he.2) hs⟩)
    (fun t h n hn => t.covered_of_armed n (h.2 n hn)) es _
    ⟨Tracked.regular_init sendbuf cell start, fun _ hn => absurd rfl hn⟩ hkeeps

/-- The first block is read and sent. -/
def firstSend : List ClientEvent :=
  [.select, .refill (Block.single 1) buffSize, .noAck, .send ⟨1, 0⟩]

/-- Two frames are sent and their timers started, the timers expire, and the first frame
    is sent again and the second one acknowledged. -/
def secondSend : List ClientEvent :=
  firstSend ++ firstSend ++ [.command none ⟨1, 0⟩, .command none ⟨2, 0⟩, .timeout none ⟨9, 0⟩,
    .select, .resend ⟨9, 0⟩, .noRefill, .ack 1 ⟨1, 0⟩ ⟨9, 0⟩]

theorem no_orphan_second :
    Machine.Throughout (Tracked.step 64) (fun t => ∀ n, t.live n ≠ none → t.Covered n)
        (Tracked.init (fun _ => Block.zero) (fun _ => ⟨0, ⟨0, 0⟩, none, none⟩) ⟨0, 1⟩)
        secondSend ∧
      (Machine.run (Tracked.step 64)
        (Tracked.init (fun _ => Block.zero) (fun _ => ⟨0, ⟨0, 0⟩, none, none⟩) ⟨0, 1⟩)
        secondSend).map (fun t => (decide (t.live 0 ≠ none), t.client.requests))
          = some (true, [1]) :=
  ⟨no_orphan 64 _ _ _ _ (by decide +kernel), by decide +kernel⟩

/-- A start of `runaway` does lose its node: frame 3 has been sent, and nothing is left
    that would send it again. -/
theorem no_orphan_lost :
    (∀ e ∈ runaway, Tracked.NumbersSlots e) ∧
      ∃ t, Machine.run (Tracked.step 65)
          (Tracked.init emptyBuffer (fun _ => ⟨0, ⟨0, 0⟩, none, none⟩) ⟨1, 0⟩) runaway = some t ∧
        t.live 3 ≠ none ∧ ¬ t.Covered 3 := by
  refine ⟨fun e he n stamp now heq => runaway_slots (heq ▸ he), ?_⟩
  rcases runaway_run (fun _ => ⟨0, ⟨0, 0⟩, none, none⟩) ⟨1, 0⟩ with
    ⟨t, ht, hlive, hcommands, hrequests, hphase, hpending⟩
  refine ⟨t, ht, by rw [hlive]; exact Option.some_ne_none _, ?_⟩
  rintro (⟨before, m, rest, hsplit, -⟩ | ⟨hmem, -⟩ | hmem | hresend)
  · rw [hcommands] at hsplit
    exact absurd hsplit.symm (List.append_ne_nil_of_right_ne_nil _ (List.cons_ne_nil _ _))
  · rw [hpending] at hmem
    exact absurd hmem (by decide)
  · rw [hrequests] at hmem
    exact List.not_mem_nil hmem
  · rw [hphase] at hresend
    cases hresend

end Cse5462
