import Cse5462.Lib.Machine
import Cse5462.Tcpd.Cursors
import Cse5462.Tcpd.ReceiveWindow

/-!
# The Send Window and the Circular Buffer

The driver loop with acknowledgements taken abstractly: an acknowledgement
moves `lar` forward to some frame that has been sent.

`Pacing` lets refills, acknowledgements, resends and sends come in any order,
and asks how many frames can be outstanding. The two shapes of the window are
counted by two formulas. The one for a window that crosses slot 63 is one too
low, so from a full window of that shape a twenty-first frame is sent, and a
server that has everything up to `lar` and nothing more refuses it.

`Buffering` keeps the order of the source, at most one refill, at most one
acknowledgement and then the send step in every iteration, and records which
block is in which slot. Under that discipline the circular buffer is safe: the
guards never let a refill overwrite a block that is still needed, and the send
step takes the blocks in order.

## Main definitions

* `Pacing`: The cursors with the counts they stand for.
* `Pacing.InWindow`: A step keeps to the window and to what a server accepts.
* `Pacing.NotOverdrawn`: The step does not send out of a miscounted full window.
* `Buffering`: The cursors with the blocks in the slots and a record.
* `Buffering.Disciplined`: Nothing is overwritten, and frames go out in order.

## Theorems

* `send_window_iff`: When the driver keeps to the window.
* `buffer_discipline`: The circular buffer is used safely in every run.
-/

namespace Cse5462

/-- What can happen to the cursors. -/
inductive PacingEvent where
  | refill
  | ack (frame : Nat)
  | resend
  | send
  deriving DecidableEq, Repr

/-- The cursors, with the number of frames covered by `lar` and sent. -/
structure Pacing where
  cursors : Cursors
  covered : Nat
  sent : Nat
  deriving DecidableEq, Repr

namespace Pacing

def init : Pacing := { cursors := Cursors.init, covered := 0, sent := 0 }

/-- One event, if the state allows it. A resend does not touch the cursors. -/
def step (p : Pacing) : PacingEvent → Option Pacing
  | .refill =>
      if p.cursors.refillGuard then some { p with cursors := p.cursors.refill } else none
  | .ack n =>
      -- `lar` only moves forward, and only to a frame that has been sent.
      if p.covered ≤ n ∧ n < p.sent then
        some { p with cursors := { p.cursors with lar := seqOf n }, covered := n + 1 }
      else none
  | .resend => some p
  | .send =>
      if p.cursors.sendGuard then
        some { p with cursors := p.cursors.sent, sent := p.sent + 1 }
      else none

/-- The cursors mean the counts, and no more than 20 frames are outstanding. -/
def Bounded (p : Pacing) : Prop :=
  p.cursors.Sending p.covered p.sent ∧ p.sent ≤ p.covered + 20

/-- After the step at most 20 frames are outstanding, and the cursors count
    them. A frame that is sent for the first time is accepted by every server
    that has passed on at least the frames covered. -/
def InWindow (p : Pacing) (e : PacingEvent) : Prop :=
  (∀ p', p.step e = some p' →
    p'.cursors.outstanding ≤ window ∧ p'.cursors.outstanding = (p'.sent : Int) - p'.covered) ∧
  (e = .send → p.cursors.sendGuard → ∀ (k : Nat) (s : Server), p.covered ≤ k → k ≤ p.sent →
    s.At k → s.accepts (p.cursors.lfs + 1))

/-- The step does not send out of a full window that crosses slot 63. -/
def NotOverdrawn (p : Pacing) (e : PacingEvent) : Prop :=
  e = .send → p.cursors.sendGuard → ¬ p.cursors.Overdrawn

theorem bounded_init : Bounded init := ⟨Cursors.sending_init, by decide⟩

/-- What a step does, one case per event. -/
theorem step_cases (p p' : Pacing) (e : PacingEvent) (h : p.step e = some p') :
    (e = .refill ∧ p' = { p with cursors := p.cursors.refill }) ∨
    (∃ n, e = .ack n ∧ p.covered ≤ n ∧ n < p.sent ∧
      p' = { p with cursors := { p.cursors with lar := seqOf n }, covered := n + 1 }) ∨
    (e = .resend ∧ p' = p) ∨
    (e = .send ∧ p.cursors.sendGuard ∧
      p' = { p with cursors := p.cursors.sent, sent := p.sent + 1 }) := by
  cases e with
  | refill =>
      simp only [step, Option.ite_none_right_eq_some, Option.some.injEq] at h
      exact Or.inl ⟨rfl, h.2.symm⟩
  | ack n =>
      simp only [step, Option.ite_none_right_eq_some, Option.some.injEq] at h
      exact Or.inr (Or.inl ⟨n, rfl, h.1.1, h.1.2, h.2.symm⟩)
  | resend =>
      simp only [step, Option.some.injEq] at h
      exact Or.inr (Or.inr (Or.inl ⟨rfl, h.symm⟩))
  | send =>
      simp only [step, Option.ite_none_right_eq_some, Option.some.injEq] at h
      exact Or.inr (Or.inr (Or.inr ⟨rfl, h.1, h.2.symm⟩))

/-- A step that does not send out of an overdrawn window keeps the bound. -/
theorem bounded_step (p : Pacing) (e : PacingEvent) (p' : Pacing) (h : p.Bounded)
    (hok : p.NotOverdrawn e) (hstep : p.step e = some p') : p'.Bounded := by
  rcases h with ⟨hsend, hbound⟩
  rcases step_cases p p' e hstep with ⟨_, rfl⟩ | ⟨n, _, hlo, hhi, rfl⟩ | ⟨_, rfl⟩ | ⟨he, hg, rfl⟩
  · exact ⟨hsend.refill, hbound⟩
  · exact ⟨hsend.ack n hlo hhi, by dsimp only; omega⟩
  · exact ⟨hsend, hbound⟩
  · -- Outside the overdrawn states the guard leaves room for one more frame.
    have hroom : p.sent ≠ p.covered + 20 := fun heq =>
      hok he hg ((hsend.guard_overdrawn_iff hg).mpr heq)
    exact ⟨hsend.send hg, by dsimp only; omega⟩

theorem inWindow_of_notOverdrawn (p : Pacing) (e : PacingEvent) (h : p.Bounded)
    (hok : p.NotOverdrawn e) : p.InWindow e := by
  refine ⟨fun p' hstep => ?_, fun he hg k s hk hk' hat => ?_⟩
  · have h' := bounded_step p e p' h hok hstep
    have hcount := h'.1.outstanding_eq
    have hbound := h'.2
    refine ⟨?_, hcount⟩
    rw [hcount, window]
    omega
  · -- Outside the overdrawn states the frame is within 20 of every such server.
    have hroom : p.sent ≠ p.covered + 20 := fun heq =>
      hok he hg ((h.1.guard_overdrawn_iff hg).mpr heq)
    have hbound := h.2
    rw [h.1.next_eq]
    exact (Server.accepts_iff s k p.sent hat (by omega) (by omega)).mpr ⟨hk', by omega⟩

/-- A frame sent out of an overdrawn window is the twenty-first. -/
theorem not_inWindow_of_overdrawn (p : Pacing) (h : p.Bounded) (hg : p.cursors.sendGuard)
    (hbad : p.cursors.Overdrawn) : ¬ p.InWindow .send := by
  rintro ⟨hcount, _⟩
  have hstep : p.step .send = some { p with cursors := p.cursors.sent, sent := p.sent + 1 } :=
    if_pos hg
  have hafter := hcount _ hstep
  have hfull := (h.1.guard_overdrawn_iff hg).mp hbad
  rw [window] at hafter
  dsimp only at hafter
  omega

end Pacing

/-- The driver keeps to the window along a run exactly if no step sends out of
    a full window that crosses slot 63. -/
theorem send_window_iff (es : List PacingEvent) :
    Machine.Meets Pacing.step Pacing.InWindow Pacing.init es ↔
      Machine.Meets Pacing.step Pacing.NotOverdrawn Pacing.init es := by
  refine Machine.meets_iff (P := Pacing.Bounded) Pacing.bounded_step (fun p e h => ?_) es _
    Pacing.bounded_init
  constructor
  · rintro hin rfl hg hbad
    exact Pacing.not_inWindow_of_overdrawn p h hg hbad hin
  · exact Pacing.inWindow_of_notOverdrawn p e h

/-- Forty-four frames sent and acknowledged one by one, then twenty-one sent. -/
def overdrawingEvents : List PacingEvent :=
  (List.range 44).flatMap (fun n => [.refill, .send, .ack n]) ++
    (List.range 21).flatMap (fun _ => [.refill, .send])

/-- A run that ends with twenty-one frames outstanding. -/
theorem send_window_overdrawn :
    Machine.run Pacing.step Pacing.init overdrawingEvents
        = some { cursors := { lar := 43, lfs := 0, bufpos := 1 }, covered := 44, sent := 65 } ∧
      ¬ (Cursors.outstanding { lar := 43, lfs := 0, bufpos := 1 } ≤ window) := by
  constructor
  · decide +kernel
  · decide

/-- The choices of one iteration: whether a block is there to be read, and the
    frame to which an acknowledgement moves `lar`, if one does. -/
structure Iteration where
  refill : Bool
  ack : Option Nat

/-- The cursors with the counts they stand for, the block in each slot, what
    each refill has overwritten with the count of frames covered at the time,
    and the number and the slot contents of each first transmission. -/
structure Buffering where
  cursors : Cursors
  covered : Nat
  sent : Nat
  filled : Nat
  slot : Int → Option Nat
  overwritten : List (Option Nat × Nat)
  transmitted : List (Int × Option Nat)

namespace Buffering

def init : Buffering :=
  { cursors := Cursors.init, covered := 0, sent := 0, filled := 0, slot := fun _ => none,
    overwritten := [], transmitted := [] }

/-- Block `filled` goes to slot `bufpos`, if the guard holds. -/
def refillStep (b : Buffering) : Buffering :=
  if b.cursors.refillGuard then
    { b with
      cursors := b.cursors.refill
      filled := b.filled + 1
      slot := Function.update b.slot b.cursors.bufpos (some b.filled)
      overwritten := b.overwritten ++ [(b.slot b.cursors.bufpos, b.covered)] }
  else b

/-- `lar` moves forward to frame `n`, one that has been sent. -/
def ackStep (b : Buffering) (n : Nat) : Option Buffering :=
  if b.covered ≤ n ∧ n < b.sent then
    some { b with cursors := { b.cursors with lar := seqOf n }, covered := n + 1 }
  else none

/-- The slot after `lfs` is sent, if the guard holds. -/
def sendStep (b : Buffering) : Buffering :=
  if b.cursors.sendGuard then
    { b with
      cursors := b.cursors.sent
      sent := b.sent + 1
      transmitted := b.transmitted ++ [(b.cursors.lfs + 1, b.slot (b.cursors.lfs + 1))] }
  else b

/-- One iteration of the driver loop. -/
def iterate (b : Buffering) (it : Iteration) : Option Buffering :=
  let b := if it.refill then b.refillStep else b
  let b := match it.ack with
    | some n => b.ackStep n
    | none => some b
  b.map sendStep

/-- No refill has overwritten a block that was not covered by `lar`, and the
    `n`-th first transmission was that of block `n`, out of a filled slot, under
    the number `n` modulo 64. -/
def Disciplined (b : Buffering) : Prop :=
  (∀ w ∈ b.overwritten, ∀ n, w.1 = some n → n < w.2) ∧
    b.transmitted = (List.range b.sent).map fun n => (seqOf n, some n)

/-- The invariant of the three steps: the cursors mean the counts, and every
    block not covered is in the slot of its number. -/
structure Stored (b : Buffering) : Prop where
  filled : b.cursors.Filled b.covered b.sent b.filled
  held : ∀ n, b.covered ≤ n → n < b.filled → b.slot (seqOf n) = some n
  origin : ∀ i n, b.slot i = some n → i = seqOf n ∧ n < b.filled
  disciplined : Disciplined b

theorem stored_init : Stored init where
  filled := Cursors.filled_init
  held := fun n _ hn => absurd hn (Nat.not_lt_zero n)
  origin := fun i n h => absurd h (by simp only [init, reduceCtorEq, not_false_eq_true])
  disciplined := ⟨fun w hw => absurd hw List.not_mem_nil, rfl⟩

/-- A refill that has room overwrites a block that is covered, if any. -/
theorem stored_refill (b : Buffering) (h : Stored b) (hroom : b.filled < b.covered + 64) :
    Stored { b with
      cursors := b.cursors.refill
      filled := b.filled + 1
      slot := Function.update b.slot b.cursors.bufpos (some b.filled)
      overwritten := b.overwritten ++ [(b.slot b.cursors.bufpos, b.covered)] } := by
  have hpos : b.cursors.bufpos = seqOf b.filled := h.filled.bufpos_eq
  refine ⟨h.filled.refill hroom, fun n hn hn' => ?_, fun i n hi => ?_, ?_, h.disciplined.2⟩
  · dsimp only at hn hn' ⊢
    -- The new block is in the slot, and no other one not covered has that slot.
    by_cases heq : n = b.filled
    · rw [heq, hpos, Function.update_self]
    · have hne : seqOf n ≠ b.cursors.bufpos := by
        rw [hpos]
        simp only [seqOf]
        omega
      rw [Function.update_of_ne hne]
      exact h.held n hn (by omega)
  · dsimp only at hi ⊢
    by_cases heq : i = b.cursors.bufpos
    · rw [heq, Function.update_self, Option.some.injEq] at hi
      rw [heq, ← hi]
      exact ⟨hpos, by omega⟩
    · rw [Function.update_of_ne heq] at hi
      have hold := h.origin i n hi
      exact ⟨hold.1, by omega⟩
  · intro w hw n hn
    rcases List.mem_append.mp hw with hw | hw
    · exact h.disciplined.1 w hw n hn
    · -- The block that was in the slot is 64 frames or more behind.
      rw [List.mem_singleton.mp hw] at hn ⊢
      have hold := h.origin _ n hn
      rw [hpos] at hold
      simp only [seqOf] at hold
      dsimp only
      omega

theorem stored_ack (b b' : Buffering) (n : Nat) (h : Stored b) (hack : b.ackStep n = some b') :
    Stored b' ∧ b'.sent = b.sent ∧ b'.filled = b.filled := by
  simp only [ackStep, Option.ite_none_right_eq_some, Option.some.injEq] at hack
  rcases hack with ⟨⟨hlo, hhi⟩, rfl⟩
  exact ⟨⟨h.filled.ack n hlo hhi, fun m hm hm' => h.held m (by dsimp only at hm; omega) hm',
    h.origin, h.disciplined⟩, rfl, rfl⟩

/-- A send step takes the oldest block that waits. -/
theorem stored_send (b : Buffering) (h : Stored b) : Stored b.sendStep := by
  rw [sendStep]
  split
  · rename_i hguard
    have hpend := h.filled.pending hguard
    have hle := h.filled.covered_le
    refine ⟨h.filled.send hguard, h.held, h.origin, h.disciplined.1, ?_⟩
    dsimp only
    -- The slot after `lfs` is that of the oldest block that waits.
    rw [h.filled.next_eq, h.held b.sent hle hpend, h.disciplined.2, List.range_succ,
      List.map_append]
    rfl
  · exact h

/-- After the send step nothing waits while the window is empty. -/
theorem idle_send (b : Buffering) (h : Stored b) (hfew : b.filled ≤ b.sent + 63) :
    b.sendStep.sent = b.sendStep.covered → b.sendStep.filled = b.sendStep.sent := by
  rw [sendStep]
  split
  · intro heq
    have hle := h.filled.covered_le
    dsimp only at heq
    omega
  · rename_i hguard
    intro hempty
    exact h.filled.idle hempty hfew hguard

/-- The refill of an iteration, with the bound on what waits that the send
    step of the same iteration relies on. -/
theorem refill_phase (b : Buffering) (h : Stored b) (hidle : b.sent = b.covered → b.filled = b.sent)
    (r : Bool) (b' : Buffering) (hb' : b' = if r then b.refillStep else b) :
    Stored b' ∧ b'.filled ≤ b'.sent + 63 := by
  have hfill := h.filled.filled_le
  have hcov := h.filled.covered_le
  have hstay : b.filled ≤ b.sent + 63 := by
    by_cases hempty : b.sent = b.covered
    · have := hidle hempty
      omega
    · omega
  -- A refill adds one block, and an empty window had none waiting.
  by_cases hguard : r = true ∧ b.cursors.refillGuard
  · have hroom := h.filled.room hidle hguard.2
    rw [hb', if_pos hguard.1, refillStep, if_pos hguard.2]
    refine ⟨stored_refill b h hroom, ?_⟩
    dsimp only
    by_cases hempty : b.sent = b.covered
    · have := hidle hempty
      omega
    · omega
  · have hsame : b' = b := by
      rw [hb']
      split
      · rename_i hr
        exact if_neg (fun hg => hguard ⟨hr, hg⟩)
      · rfl
    rw [hsame]
    exact ⟨h, hstay⟩

/-- The invariant at the head of the loop. -/
def AtHead (b : Buffering) : Prop := Stored b ∧ (b.sent = b.covered → b.filled = b.sent)

theorem atHead_iterate (b : Buffering) (it : Iteration) (b' : Buffering) (h : AtHead b)
    (hstep : iterate b it = some b') : AtHead b' := by
  rcases refill_phase b h.1 h.2 it.refill _ rfl with ⟨hstored, hfew⟩
  rw [iterate] at hstep
  generalize (if it.refill then b.refillStep else b) = b1 at hstored hfew hstep
  -- An acknowledgement changes neither count that the send step relies on.
  cases hack : it.ack with
  | none =>
      rw [hack] at hstep
      simp only [Option.map_some, Option.some.injEq] at hstep
      rw [← hstep]
      exact ⟨stored_send b1 hstored, idle_send b1 hstored hfew⟩
  | some n =>
      rw [hack] at hstep
      dsimp only at hstep
      rcases Option.map_eq_some_iff.mp hstep with ⟨b2, hb2, rfl⟩
      rcases stored_ack b1 b2 n hstored hb2 with ⟨hstored2, hsent, hfilled⟩
      exact ⟨stored_send b2 hstored2, idle_send b2 hstored2 (by omega)⟩

end Buffering

/-- In every run of driver iterations the circular buffer is used safely: no
    refill overwrites a block that is unsent or not covered, and block `n` is
    the `n`-th to be sent, out of a filled slot. -/
theorem buffer_discipline (its : List Iteration) (b : Buffering)
    (hrun : Machine.run Buffering.iterate Buffering.init its = some b) : b.Disciplined := by
  have hhead : Buffering.AtHead Buffering.init := ⟨Buffering.stored_init, fun _ => rfl⟩
  exact (Machine.run_invariant Buffering.atHead_iterate its _ b hhead hrun).1.disciplined

/-- Two iterations: block 0 is sent, then block 1 while frame 0 is covered. -/
theorem buffer_discipline_two :
    ∃ b, Machine.run Buffering.iterate Buffering.init [⟨true, none⟩, ⟨true, some 0⟩] = some b ∧
      b.Disciplined ∧ b.sent = 2 :=
  ⟨_, rfl, buffer_discipline [⟨true, none⟩, ⟨true, some 0⟩] _ rfl, by decide⟩

end Cse5462
