import Cse5462.Tcpd.Client
import Mathlib.Data.List.Perm.Basic

/-!
# What Becomes of a Timer

The client with a ledger of its timers: the starts that made a timer, the
cancellations that took one off the list, and the resend requests that the driver
has answered.

Every timer that is made is still in the list, or has been cancelled, or has
become one resend request, which is in the pipe, or is being answered, or has
been answered. None of them is lost between the two processes, and none is
counted twice. A start for a number that is in the list makes no timer, and a
cancellation for one that is not takes none away.

The timer process may lose a timer that it makes, if a carry wraps at the head of
the list. But this is the last thing it does: the timeout it is left with is one that
`select` refuses.

## Main definitions

* `Ledger`: The client and what has become of its timers.
* `Ledger.next`: A step of the client, entered into the ledger.
* `Ledger.Balanced`: Every timer is accounted for.

## Theorems

* `balanced_next`: Every step keeps the ledger balanced.
* `timers_conserved`: The ledger is balanced as long as the timer process runs.
-/

namespace Cse5462

/-- The request that the driver is about to answer. -/
def Phase.answering : Phase → List Int
  | .resending id => [id]
  | _ => []

/-- The client, the numbers of the timers that have been made and of those that
    have been cancelled, and the requests that have been answered. -/
structure Ledger where
  client : Client
  made : List Int
  cancelled : List Int
  answered : List Int

namespace Ledger

/-- The ledger before anything has happened. -/
def init (sendbuf : Int → Block) (cell : Heap) (start : Timeval) : Ledger :=
  { client := Client.init sendbuf cell start, made := [], cancelled := [], answered := [] }

/-- The entry for a command that the timer process has read. -/
def noteCommand (l : Ledger) (c : Client) (m : Message) : Ledger :=
  let known := decide (m.id ∈ l.client.timer.pending)
  match m.operation, known with
  -- A new timer.
  | .start, false => { l with client := c, made := m.id :: l.made }
  -- A timer that is taken off the list.
  | .cancel, true => { l with client := c, cancelled := m.id :: l.cancelled }
  | _, _ => { l with client := c }

/-- The entry for a step. -/
def note (l : Ledger) (c : Client) : ClientEvent → Ledger
  | .command _ _ =>
      match l.client.commands with
      | [] => { l with client := c }
      | m :: _ => l.noteCommand c m
  | .resend _ =>
      { l with client := c, answered := l.client.driver.phase.answering ++ l.answered }
  | _ => { l with client := c }

/-- A step of the client, entered into the ledger. -/
def next (top : Int) (l : Ledger) (e : ClientEvent) : Option Ledger :=
  (l.client.next top e).map fun c => l.note c e

/-- Every timer that has been made is accounted for once, as long as the timer
    process runs. -/
structure Balanced (l : Ledger) : Prop where
  sound : l.client.timer.Sound
  made_perm : l.client.timer.TimeoutValid →
    l.made.Perm (l.cancelled ++ l.client.timer.pending ++
      (l.client.requests ++ l.client.driver.phase.answering ++ l.answered))

end Ledger

namespace TimerProcess

variable {p p' : TimerProcess} {m : Message} {left : Option Nat} {now : Timeval}

theorem Sound.nodup_pending (h : p.Sound) : p.pending.Nodup := TimerList.Linked.ids h

/-- A start puts its number into the list, if it is not there, and if the process
    goes on. -/
theorem started_perm (h : p.Sound) (hm : m.operation = .start)
    (hp : p.command m left now = some p') (hv : p'.TimeoutValid) :
    p'.pending.Perm (if m.id ∈ p.pending then p.pending else m.id :: p.pending) := by
  have hstarted := started h hm hp
  have hadded := hstarted.added (Or.inr hv)
  by_cases hmem : m.id ∈ p.pending
  · rw [if_pos hmem, List.perm_ext_iff_of_nodup hstarted.sound.nodup_pending h.nodup_pending]
    exact fun k => ⟨fun hk => (hstarted.only k hk).elim id fun heq => heq ▸ hmem, hstarted.kept k⟩
  · rw [if_neg hmem, List.perm_ext_iff_of_nodup hstarted.sound.nodup_pending
      (List.nodup_cons.mpr ⟨hmem, h.nodup_pending⟩)]
    intro k
    rw [List.mem_cons]
    exact ⟨fun hk => (hstarted.only k hk).symm, fun hk => hk.elim (fun heq => heq ▸ hadded)
      (hstarted.kept k)⟩

/-- A cancellation takes its number off the list, if it is there. -/
theorem cancelled_perm (h : p.Sound) (hm : m.operation = .cancel)
    (hp : p.command m left now = some p') :
    p.pending.Perm (if m.id ∈ p.pending then m.id :: p'.pending else p'.pending) := by
  rcases cancelled h hm hp with ⟨hsound, hiff⟩
  by_cases hmem : m.id ∈ p.pending
  · have hnot : m.id ∉ p'.pending := fun hk => ((hiff m.id).mp hk).2 rfl
    rw [if_pos hmem, List.perm_ext_iff_of_nodup h.nodup_pending
      (List.nodup_cons.mpr ⟨hnot, hsound.nodup_pending⟩)]
    intro k
    rw [List.mem_cons, hiff]
    by_cases hk : k = m.id
    · simp only [hk, hmem, ne_eq, not_true_eq_false, and_false, or_false]
    · simp only [hk, ne_eq, not_false_eq_true, and_true, false_or]
  · rw [if_neg hmem, List.perm_ext_iff_of_nodup h.nodup_pending hsound.nodup_pending]
    intro k
    rw [hiff]
    exact ⟨fun hk => ⟨hk, fun heq => hmem (heq ▸ hk)⟩, fun hk => hk.1⟩

end TimerProcess

namespace Ledger

variable {top : Int} {l l' : Ledger}

/-- Timers that are made or cancelled, or leave the list for another reason than to be
    requested, are entered on both sides. -/
theorem perm_of_moved {made made' cancelled cancelled' pending pending' rest : List Int}
    (h : made.Perm (cancelled ++ pending ++ rest))
    (hmoved : (made' ++ (cancelled ++ pending)).Perm (made ++ (cancelled' ++ pending'))) :
    made'.Perm (cancelled' ++ pending' ++ rest) := by
  rw [List.perm_iff_count] at *
  intro k
  have hk := h k
  have hmovedk := hmoved k
  simp only [List.count_append] at *
  omega

/-- A command that the timer process reads keeps the ledger balanced. -/
theorem balanced_command (h : l.Balanced) (m : Message) (commands : List Message)
    (left : Option Nat) (now : Timeval) (p : TimerProcess)
    (hp : l.client.timer.command m left now = some p) :
    (l.noteCommand { l.client with timer := p, commands := commands } m).Balanced := by
  rcases h with ⟨hsound, hperm⟩
  replace hperm := hperm (TimerProcess.command_valid hp)
  unfold noteCommand
  dsimp only
  cases hm : m.operation with
  | start =>
      have hp' := (TimerProcess.started hsound hm hp).sound
      have hpend := TimerProcess.started_perm hsound hm hp
      by_cases hmem : m.id ∈ l.client.timer.pending
      · rw [if_pos hmem] at hpend
        rw [decide_eq_true hmem]
        refine ⟨hp', fun hv => ?_⟩
        exact perm_of_moved hperm (((hpend hv).symm.append_left _).append_left _)
      · rw [if_neg hmem] at hpend
        rw [decide_eq_false hmem]
        refine ⟨hp', fun hv => ?_⟩
        refine perm_of_moved hperm (.trans ?_ (((hpend hv).symm.append_left _).append_left _))
        -- The new number comes before those that have been made, or before the pending ones.
        rw [← List.append_assoc l.made, List.cons_append, ← List.append_assoc l.made]
        exact List.perm_middle.symm
  | cancel =>
      have hp' := (TimerProcess.cancelled hsound hm hp).1
      have hpend := TimerProcess.cancelled_perm hsound hm hp
      by_cases hmem : m.id ∈ l.client.timer.pending
      · rw [if_pos hmem] at hpend
        rw [decide_eq_true hmem]
        refine ⟨hp', fun _ => ?_⟩
        refine perm_of_moved hperm (.trans ((hpend.append_left _).append_left _) ?_)
        exact List.perm_middle.append_left _
      · rw [if_neg hmem] at hpend
        rw [decide_eq_false hmem]
        refine ⟨hp', fun _ => ?_⟩
        exact perm_of_moved hperm ((hpend.append_left _).append_left _)

/-- Every step keeps the ledger balanced. -/
theorem balanced_next (e : ClientEvent) (h : l.Balanced) (hnext : l.next top e = some l') :
    l'.Balanced := by
  rcases Option.map_eq_some_iff.mp hnext with ⟨c', hc', rfl⟩
  rcases Option.map_eq_some_iff.mp hc' with ⟨⟨c, out⟩, hc, rfl⟩
  rcases h with ⟨hsound, hperm⟩
  dsimp only
  cases Client.step_cases top l.client c e out hc with
  | nothingAsked hphase hreq =>
      rw [hphase] at hperm
      exact ⟨hsound, hperm⟩
  | asked id requests hphase hreq =>
      -- The request leaves the pipe to be answered.
      rw [hphase, hreq] at hperm
      refine ⟨hsound, fun hv => (hperm hv).trans ?_⟩
      rw [List.perm_iff_count]
      intro k
      simp only [note, Phase.answering, List.count_append, List.count_cons, List.count_nil]
      omega
  | resent id now hphase =>
      rw [hphase] at hperm
      refine ⟨hsound, fun hv => (hperm hv).trans ?_⟩
      simp only [note, hphase, Phase.answering, List.append_assoc, List.nil_append]
      exact List.Perm.refl _
  | refilled body length hphase hguard hlen =>
      rw [hphase] at hperm
      exact ⟨hsound, hperm⟩
  | notRefilled hphase =>
      rw [hphase] at hperm
      exact ⟨hsound, hperm⟩
  | acked n stamp now lar hphase hscan =>
      rw [hphase] at hperm
      exact ⟨hsound, hperm⟩
  | notAcked hphase =>
      rw [hphase] at hperm
      exact ⟨hsound, hperm⟩
  | sent now hphase hguard =>
      rw [hphase] at hperm
      exact ⟨hsound, hperm⟩
  | notSent now hphase hguard =>
      rw [hphase] at hperm
      exact ⟨hsound, hperm⟩
  | commanded left now m commands p hcmd hp =>
      simp only [note, hcmd]
      exact balanced_command ⟨hsound, hperm⟩ m commands left now p hp
  | expired left now p ids hp =>
      rcases TimerProcess.expired hsound hp with ⟨hp', hsplit, -⟩
      rw [hsplit] at hperm
      refine ⟨hp', fun _ => (hperm (TimerProcess.timeout_eq hp).2.1).trans ?_⟩
      rw [List.perm_iff_count]
      intro k
      simp only [note, List.count_append]
      omega
  | changed i b hi => exact ⟨hsound, hperm⟩

theorem balanced_init (sendbuf : Int → Block) (cell : Heap) (start : Timeval) :
    (init sendbuf cell start).Balanced where
  sound := TimerProcess.sound_init cell start
  made_perm := fun _ => List.Perm.refl _

end Ledger

/-- In every state that the client comes to, no number is in the list twice. As long
    as the timer process runs, that is has a timeout that `select` does not refuse,
    every timer that has been made is in the list, has been cancelled, or has become
    one resend request, in the pipe or at the driver. -/
theorem timers_conserved (top : Int) (sendbuf : Int → Block) (cell : Heap) (start : Timeval)
    (es : List ClientEvent) (l : Ledger)
    (hrun : Machine.run (Ledger.next top) (Ledger.init sendbuf cell start) es = some l) :
    l.client.timer.pending.Nodup ∧
      (l.client.timer.TimeoutValid → l.made.Perm (l.cancelled ++ l.client.timer.pending ++
        (l.client.requests ++ l.client.driver.phase.answering ++ l.answered))) := by
  have h := Machine.run_invariant (fun l e l' hl hs => Ledger.balanced_next e hl hs) es _ l
    (Ledger.balanced_init sendbuf cell start) hrun
  exact ⟨h.sound.nodup_pending, h.made_perm⟩

/-- The first frame is sent, its timer runs out, and the request is answered. -/
def expiringEvents : List ClientEvent :=
  [.select, .refill (Block.single 1) buffSize, .noAck, .send ⟨1, 0⟩, .command none ⟨1, 0⟩,
    .timeout none ⟨9, 0⟩, .select, .resend ⟨9, 0⟩]

theorem timers_conserved_first :
    ∃ l, Machine.run (Ledger.next 64)
        (Ledger.init (fun _ => Block.zero) (fun _ => ⟨0, ⟨0, 0⟩, none, none⟩) ⟨0, 1⟩)
        expiringEvents = some l ∧
      l.made = [0] ∧ l.answered = [0] ∧ l.client.timer.TimeoutValid ∧
      l.client.timer.pending.Nodup ∧
      l.made.Perm (l.cancelled ++ l.client.timer.pending ++
        (l.client.requests ++ l.client.driver.phase.answering ++ l.answered)) := by
  have hrun : (Machine.run (Ledger.next 64)
      (Ledger.init (fun _ => Block.zero) (fun _ => ⟨0, ⟨0, 0⟩, none, none⟩) ⟨0, 1⟩)
      expiringEvents).map (fun l => (l.made, l.answered, decide l.client.timer.TimeoutValid))
        = some ([0], [0], true) := by
    decide +kernel
  rcases Option.map_eq_some_iff.mp hrun with ⟨l, hl, hval⟩
  simp only [Prod.mk.injEq, decide_eq_true_eq] at hval
  have hcons := timers_conserved 64 _ _ _ _ l hl
  exact ⟨l, hl, hval.1, hval.2.1, hval.2.2, hcons.1, hcons.2 hval.2.2⟩

end Cse5462
