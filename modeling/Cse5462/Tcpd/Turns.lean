import Cse5462.Tcpd.EstimatorBounds
import Cse5462.Tcpd.Tracking

/-!
# Turns With Blocks of Zeros

Turns of the loop of the driver, in each of which it reads a block of zeros, reads an
acknowledgement, sends the next frame, and has both its commands read. A block of
zeros leaves its slot as if it had been acknowledged, and so the scan for `lar` goes
up to `lfs` whatever the acknowledgement was for: the window is always open, and what
a turn does depends on the estimator and on the timers alone.

The buffer must not be followed by another empty slot, because the scan comes to
slot 64 in every turn.

## Main definitions

* `emptyBuffer`: The send buffer all the time.
* `Cursors.spun`: The cursors before each frame.
* `ackedTurn`, `quietTurn`: A turn with an acknowledgement, and one without.
* `Spinning`: The driver before a turn.
* `Settled`: The estimate, and what is known of its deviation.

## Theorems

* `larScan_empty`: The scan through an empty buffer.
* `acked_turn`, `quiet_turn`: What a turn does.
* `Settled.rto`, `Settled.sample`: The timeout, and what a sample does to it.
-/

namespace Cse5462

/-- A send buffer that is empty, with a byte behind its end. -/
def emptyBuffer : Int → Block := fun i => if i = 64 then Block.single 1 else Block.zero

theorem emptyBuffer_eq {i : Int} (h : i ≠ 64) : emptyBuffer i = Block.zero := if_neg h

/-- Clearing a slot of it. -/
theorem emptyBuffer_update {i : Int} (h : i ≠ 64) :
    Function.update emptyBuffer i Block.zero = emptyBuffer := by
  rw [Function.update_eq_self_iff, emptyBuffer_eq h]

/-- The scan goes up to `lfs`. -/
theorem larScan_empty {lar lfs : Int} (hlar : -1 ≤ lar ∧ lar ≤ 63) (hlfs : -1 ≤ lfs ∧ lfs ≤ 62)
    (hstart : ¬ (lfs = 0 ∧ lar ≤ 0)) :
    larScan 65 emptyBuffer lar lfs = some (if lfs = -1 then 63 else lfs) := by
  have hsize : sendRecvBufSize = 64 := rfl
  have hpass : ∀ i, i < 64 → (emptyBuffer i).isEmpty = true := fun i hi => by
    rw [emptyBuffer_eq (by omega), Block.isEmpty_zero]
  have hend : (emptyBuffer 64).isEmpty = false :=
    (Block.isEmpty_eq_false_iff _).mpr (Block.single_ne_zero 1 (by decide))
  -- The first loop goes to the end of the buffer, and the second one goes on from slot 0.
  have hfirst :
      scanWhile (fun j => (emptyBuffer j).isEmpty) (65 - (lar + 1)).toNat (lar + 1) = 64 :=
    (scanWhile_eq_iff _ _ _).mpr ⟨by omega, by omega, fun i _ hi => hpass i hi, fun _ => hend⟩
  have hsecond : scanWhile (fun j => (emptyBuffer j).isEmpty) (lfs + 1).toNat 0 = lfs + 1 :=
    (scanWhile_eq_iff _ _ _).mpr ⟨by omega, by omega, fun i _ hi => hpass i (by omega), by omega⟩
  rw [larScan, larLoop_eq _ _ _ hstart _ _ (by omega), hfirst, if_pos (by omega), Option.map_some,
    hsize, if_pos rfl]
  dsimp only
  rw [hsecond, Option.some.injEq]
  split <;> split <;> omega

/-- The cursors before frame `n`, if all blocks are zeros and every turn but the first
    two has an acknowledgement. -/
def Cursors.spun (n : Nat) : Cursors where
  lar := if n ≤ 2 then -1 else if n % 64 = 1 then 63 else ((n : Int) - 1) % 64 - 1
  lfs := (n : Int) % 64 - 1
  bufpos := (n : Int) % 64

/-- What every acknowledgement makes of `lar`. -/
def Cursors.caughtUp (n : Nat) : Int := if n % 64 = 0 then 63 else (n : Int) % 64 - 1

/-- The slot of the next block is free. -/
theorem spun_refillGuard (n : Nat) : (Cursors.spun n).refillGuard := by
  unfold Cursors.refillGuard Cursors.spun
  dsimp only
  split
  · omega
  · split <;> omega

/-- A block of zeros leaves the buffer as it is. -/
theorem spun_refill (n : Nat) : Function.update emptyBuffer (Cursors.spun n).bufpos
    ((emptyBuffer (Cursors.spun n).bufpos).copy Block.zero buffSize) = emptyBuffer := by
  have hslot : (Cursors.spun n).bufpos ≠ 64 := by
    unfold Cursors.spun
    dsimp only
    omega
  rw [Block.copy_full, emptyBuffer_update hslot]

/-- The scan starts at each acknowledgement, since `lar` is at slot 63 when `lfs` is 0. -/
theorem spun_scan {n : Nat} (hn : 2 ≤ n) : larScan 65 emptyBuffer (Cursors.spun n).lar
    (Cursors.spun n).lfs = some (Cursors.caughtUp n) := by
  have hbounds : (-1 ≤ (Cursors.spun n).lar ∧ (Cursors.spun n).lar ≤ 63) ∧
      (-1 ≤ (Cursors.spun n).lfs ∧ (Cursors.spun n).lfs ≤ 62) ∧
      ¬ ((Cursors.spun n).lfs = 0 ∧ (Cursors.spun n).lar ≤ 0) := by
    unfold Cursors.spun
    dsimp only
    split
    · omega
    · split <;> omega
  rcases hbounds with ⟨hlar, hlfs, hstart⟩
  rw [larScan_empty hlar hlfs hstart, Option.some.injEq]
  unfold Cursors.caughtUp Cursors.spun
  dsimp only
  split <;> split <;> omega

/-- The send step after an acknowledgement. -/
theorem spun_acked {n : Nat} (hn : 2 ≤ n) {c : Cursors}
    (hc : c = { (Cursors.spun n).refill with lar := Cursors.caughtUp n }) :
    c.sendGuard ∧ c.lfs + 1 = seqOf n ∧ c.sent = Cursors.spun (n + 1) := by
  have hsize : sendRecvBufSize = 64 := rfl
  have hwindow : window = 20 := rfl
  subst hc
  refine ⟨?_, ?_, ?_⟩
  · unfold Cursors.sendGuard Cursors.refill Cursors.caughtUp Cursors.spun
    dsimp only
    split <;> split <;> omega
  · unfold Cursors.refill Cursors.spun seqOf
    dsimp only
    omega
  · unfold Cursors.sent Cursors.refill Cursors.caughtUp Cursors.spun
    rw [Cursors.mk.injEq]
    dsimp only
    refine ⟨?_, ?_, ?_⟩
    · have hlate : ¬ n + 1 ≤ 2 := by omega
      rw [if_neg hlate]
      split <;> split <;> omega
    · split <;> omega
    · split <;> omega

/-- The send step of the first two turns. -/
theorem spun_unacked : ∀ n : Nat, n < 2 →
    (Cursors.spun n).refill.sendGuard ∧ (Cursors.spun n).refill.lfs + 1 = seqOf n ∧
      (Cursors.spun n).refill.sent = Cursors.spun (n + 1) := by
  decide

/-- The driver before frame `n`, with its estimator at `tp`, and the timer process waiting
    for the head of list `l`. Both pipes are empty. -/
structure Spinning (t : Tracked) (n : Nat) (tp : TcpSock) (l : TimerList) : Prop where
  cursors : t.client.driver.cursors = Cursors.spun n
  sendbuf : t.client.driver.sendbuf = emptyBuffer
  tp : t.client.driver.tp = tp
  phase : t.client.driver.phase = .select
  timer : t.client.timer = { list := l, timeout1 := l.head }
  commands : t.client.commands = []
  requests : t.client.requests = []

/-- A turn of the driver with a block of zeros and an acknowledgement of number `k` after
    `rtt` microseconds, and what the timer process makes of it. -/
def ackedTurn (k : Int) (rtt : Nat) : List ClientEvent :=
  [.select, .refill Block.zero buffSize, .ack k ⟨1, 0⟩ ⟨1, rtt⟩, .send ⟨1, 0⟩,
    .command none ⟨1, 0⟩, .command none ⟨1, 0⟩]

/-- A turn without an acknowledgement. -/
def quietTurn : List ClientEvent :=
  [.select, .refill Block.zero buffSize, .noAck, .send ⟨1, 0⟩, .command none ⟨1, 0⟩]

/-- A step taken in a run. -/
theorem exists_run_took {top : Int} {t : Tracked} {e : ClientEvent} {c : Client}
    {out : Option Packet} {es : List ClientEvent} {P : Tracked → Prop}
    (h : Client.Took top t.client e c out)
    (hrest : ∃ t', Machine.run (Tracked.step top)
      { client := c, live := Tracked.record t.live e out } es = some t' ∧ P t') :
    ∃ t', Machine.run (Tracked.step top) t (e :: es) = some t' ∧ P t' := by
  rw [Machine.run_cons, Tracked.step, h.step_eq]
  exact hrest

/-- A start that is carried out. -/
theorem command_started {p : TimerProcess} (hp : p.TimeoutValid) {l : TimerList} {id : Int}
    {dtime : ℚ≥0} {now : Timeval} (hl : p.list.addTimenode id dtime now = some l) :
    p.command (starttimer dtime id) none now = some { list := l, timeout1 := l.head } := by
  unfold TimerProcess.command starttimer
  rw [if_pos hp, p.wake_none]
  dsimp only
  rw [hl, Option.map_some]

/-- A cancellation that is carried out. It leaves `timeout1` where it points. -/
theorem command_cancelled {p : TimerProcess} (hp : p.TimeoutValid) {l : TimerList} {k : Int}
    (hk : 0 ≤ k ∧ k < 64) {now : Timeval} (hl : p.list.deleteTimenode k = some l) :
    p.command (canceltimer k) none now = some { p with list := l } := by
  have hid := canceltimer_id k hk.1 (by omega)
  unfold TimerProcess.command
  rw [if_pos hp, p.wake_none, hid, hl, Option.map_some]
  rfl

section Turn

variable {t : Tracked} {n rtt : Nat} {tp : TcpSock} {l l1 l2 : TimerList} {k : Int}

/-- A turn with an acknowledgement, where the list operations succeed and the timeout is
    valid before both. -/
theorem acked_turn (h : Spinning t n tp l) (hn : 2 ≤ n) (hk : 0 ≤ k ∧ k < 64) (hrtt : rtt < 1000000)
    (hvalid : TimerProcess.TimeoutValid { list := l, timeout1 := l.head })
    (hdelete : l.deleteTimenode k = some l1)
    (hvalid1 : TimerProcess.TimeoutValid { list := l1, timeout1 := l.head })
    (hadd : l1.addTimenode (seqOf n) (seconds (tcpSetRto (tcpRttEstimator tp rtt))) ⟨1, 0⟩
      = some l2) :
    ∃ t', Machine.run (Tracked.step 65) t (ackedTurn k rtt) = some t' ∧
      Spinning t' (n + 1) (tcpRttEstimator tp rtt) l2 ∧ t'.live (seqOf n) = some Block.zero := by
  rcases h with ⟨hcursors, hbuf, htp, hphase, htimer, hcommands, hrequests⟩
  rcases t with ⟨⟨⟨cursors, sendbuf, tp', rtt', rto, phase⟩, timer, commands, requests⟩, live⟩
  dsimp only at *
  subst hcursors hbuf htp hphase htimer hcommands hrequests
  -- No request is in the pipe, and a block is read.
  refine exists_run_took (.nothingAsked rfl rfl) ?_
  refine exists_run_took (.refilled _ _ rfl (spun_refillGuard n) (Nat.le_refl _)) ?_
  dsimp only [Driver.refill]
  rw [spun_refill]
  -- The acknowledgement clears a slot that is clear.
  have hclear : ∀ d : Driver, d.sendbuf = emptyBuffer → d.clear k = emptyBuffer := fun d hd => by
    rw [d.clear_eq (Driver.offsetFits_slot hk.1 hk.2), hd, emptyBuffer_update (by omega)]
  rcases spun_acked hn rfl with ⟨hguard, hseq, hsent⟩
  refine exists_run_took (.acked k _ _ (Cursors.caughtUp n) rfl ?_) ?_
  · rw [hclear _ rfl]
    exact spun_scan hn
  have hsample : calculateRtt ⟨1, rtt⟩ ⟨1, 0⟩ = rtt := by
    unfold calculateRtt
    dsimp only
    rw [if_neg (by omega)]
    omega
  dsimp only
  rw [hclear _ rfl, hsample]
  -- The next frame goes out, and the timer process reads both commands.
  refine exists_run_took (.sent _ rfl hguard) ?_
  refine exists_run_took (.commanded none _ _ _ _ rfl (command_cancelled hvalid hk hdelete)) ?_
  dsimp only [Driver.estimate]
  rw [hseq]
  refine exists_run_took (.commanded none _ _ _ _ rfl (command_started hvalid1 hadd)) ?_
  refine ⟨_, rfl, ⟨hsent, rfl, rfl, rfl, rfl, rfl, rfl⟩, ?_⟩
  dsimp only [Tracked.record, Driver.packet]
  rw [Function.update_self, emptyBuffer_eq (Int.ne_of_lt (seqOf_mem n).2)]

/-- A turn without an acknowledgement, before there has been one. -/
theorem quiet_turn (h : Spinning t n tp l) (hzero : t.client.driver.rtt = 0) (hn : n < 2)
    (hvalid : TimerProcess.TimeoutValid { list := l, timeout1 := l.head })
    (hadd : l.addTimenode (seqOf n) (seconds (tcpSetRto (tcpRttEstimator tp 0))) ⟨1, 0⟩
      = some l1) :
    ∃ t', Machine.run (Tracked.step 65) t quietTurn = some t' ∧
      Spinning t' (n + 1) (tcpRttEstimator tp 0) l1 ∧ t'.client.driver.rtt = 0 := by
  rcases h with ⟨hcursors, hbuf, htp, hphase, htimer, hcommands, hrequests⟩
  rcases t with ⟨⟨⟨cursors, sendbuf, tp', rtt', rto, phase⟩, timer, commands, requests⟩, live⟩
  dsimp only at *
  subst hcursors hbuf htp hzero hphase htimer hcommands hrequests
  rcases spun_unacked n hn with ⟨hguard, hseq, hsent⟩
  refine exists_run_took (.nothingAsked rfl rfl) ?_
  refine exists_run_took (.refilled _ _ rfl (spun_refillGuard n) (Nat.le_refl _)) ?_
  dsimp only [Driver.refill]
  rw [spun_refill]
  refine exists_run_took (.notAcked rfl) ?_
  refine exists_run_took (.sent _ rfl hguard) ?_
  dsimp only [Driver.estimate]
  rw [hseq]
  refine exists_run_took (.commanded none _ _ _ _ rfl (command_started hvalid hadd)) ?_
  exact ⟨_, rfl, ⟨hsent, rfl, rfl, rfl, rfl, rfl, rfl⟩, rfl⟩

end Turn

/-- The estimate stands at `s`, and no sample has been above half a millisecond, so that
    the timeout is two milliseconds more than the estimate. -/
structure Settled (tp : TcpSock) (s : Nat) : Prop where
  bounded : Bounded 500 tp
  srtt_eq : tp.srtt = s

theorem Settled.rto {tp : TcpSock} {s : Nat} (h : Settled tp s) : tcpSetRto tp = 2000 + s / 8 := by
  have hlow := h.bounded.rttvar_ge
  have hhigh := h.bounded.rttvar_le
  have hmin : tcpRtoMin = 2000 := rfl
  have hmax : max (4 * 500) tcpRtoMin = 2000 := rfl
  rw [(h.bounded.rto (by decide)).1, h.srtt_eq]
  omega

/-- A sample goes into the estimate with an eighth. -/
theorem Settled.sample {tp : TcpSock} {s m : Nat} (s' : Nat) (h : Settled tp s) (h0 : 0 < m)
    (hm : m ≤ 500) (hs' : s' + s / 8 = s + m) : Settled (tcpRttEstimator tp m) s' := by
  rcases h.bounded.later (by decide) hm with ⟨srtt, mdev, hsrtt, -, -, -, -, heq⟩
  refine ⟨h.bounded.next (by decide) hm, ?_⟩
  rw [heq]
  dsimp only
  rw [h.srtt_eq, Cse5462.sample, if_neg (Nat.ne_of_gt h0)] at hsrtt
  omega

/-- The estimate after the first acknowledgement. -/
theorem settled_first : Settled (tcpRttEstimator (tcpRttEstimator
    (tcpRttEstimator TcpSock.init 0) 0) 200) 207 where
  bounded := ((bounded_first rfl rfl (by decide) (by decide) (by decide)).next (by decide)
    (by decide)).next (by decide) (by decide)
  srtt_eq := by decide

end Cse5462
