import Cse5462.Tcpd.EndToEnd
import Cse5462.Tcpd.Orphan
import Cse5462.Tcpd.Resend

/-!
# What the Client Still Waits For

The invariant `System.Going` says that nothing wrong is done. To say that
something can be done at all one has to know more of the client: for what it has
sent and not yet seen acknowledged a timer is running, and `lar` stands where it
should.

Outstanding frames without a timer have been acknowledged, so their slots are
clear. A scan that is stopped in time comes to rest before a slot that is not
clear, or behind the last frame that has been sent. So `lar` stands right before
a frame that is still waited for. There is one exception: an acknowledgement
for frame 0 that comes before frame 1 has been sent starts no scan, and then
`lar` stays before a frame that has been acknowledged until the next one is.

## Main definitions

* `System.Lively`: The invariant.

## Theorems

* `larScan_rests`: Where the scan comes to rest.
* `lively_own`, `lively_block`, `lively_ack`, `lively_arrive`: The steps of a
  transfer keep the invariant.
-/

namespace Cse5462

/-- A scan that starts comes to rest before a slot that is not empty, or behind
    `lfs`. -/
theorem larScan_rests {top : Int} {sendbuf : Int → Block} {lar lfs last : Int}
    (h : ¬ (lfs = 0 ∧ lar ≤ 0)) (hscan : larScan top sendbuf lar lfs = some last) :
    ∃ j, lar < j ∧ (∀ t, lar < t → t < j → sendbuf t = Block.zero) ∧ sendbuf j ≠ Block.zero ∧
      ((j ≠ 64 ∧ last = j - 1) ∨
        (j = 64 ∧ ∃ m, 0 ≤ m ∧ m ≤ max 0 (lfs + 1) ∧ (m < lfs + 1 → sendbuf m ≠ Block.zero) ∧
          last = if m = 0 then 63 else m - 1)) := by
  have hsize : sendRecvBufSize = 64 := rfl
  unfold larScan at hscan
  rw [larLoop_eq sendbuf lar lfs h _ _ (by omega)] at hscan
  split at hscan
  · rename_i hlt
    have hstop := scanWhile_stop _ _ hlt
    generalize hj : scanWhile (fun j => (sendbuf j).isEmpty) (top - (lar + 1)).toNat (lar + 1) = j
      at hscan hstop hlt
    rcases (scanWhile_eq_iff _ _ _).mp hj with ⟨hlo, -, hpass, -⟩
    have hne : sendbuf j ≠ Block.zero := fun hzero => by
      rw [(Block.isEmpty_iff _).mpr hzero] at hstop
      cases hstop
    rw [Option.map_some, Option.some.injEq, hsize] at hscan
    refine ⟨j, by omega, fun t ht htj => (Block.isEmpty_iff _).mp (hpass t (by omega) htj), hne, ?_⟩
    -- At the end of the buffer the second loop starts from slot 0.
    by_cases hj64 : j = 64
    · rw [if_pos hj64] at hscan
      generalize hm : scanWhile (fun j => (sendbuf j).isEmpty) (lfs + 1).toNat 0 = m at hscan
      rcases (scanWhile_eq_iff _ _ _).mp hm with ⟨hm0, hmle, -, hmstop⟩
      refine Or.inr ⟨hj64, m, hm0, by omega, fun hmlt hzero => ?_, ?_⟩
      · have hfail := hmstop (by omega)
        rw [(Block.isEmpty_iff _).mpr hzero] at hfail
        cases hfail
      · by_cases hzero : m = 0
        · rw [if_neg (not_not.mpr hzero)] at hscan
          rw [if_pos hzero]
          omega
        · rw [if_pos hzero] at hscan
          rw [if_neg hzero]
          exact hscan.symm
    · rw [if_neg hj64] at hscan
      exact Or.inl ⟨hj64, hscan.symm⟩
  · cases hscan

/-- A scan that is stopped in time reads nothing beyond slot 64. -/
theorem larScan_some {top : Int} (htop : 65 ≤ top) {sendbuf : Int → Block} {lar lfs ack : Int}
    (hlar : -1 ≤ lar) (hlfs : lfs ≤ 63) (hstop : ScanStops sendbuf lar lfs ack) :
    ∃ last, larScan top (Function.update sendbuf ack Block.zero) lar lfs = some last := by
  by_cases hzero : lfs = 0 ∧ lar ≤ 0
  · exact ⟨lar, by rw [hzero.1]; exact larScan_zero top _ lar hlar hzero.2⟩
  · rcases hstop.resolve_left hzero with ⟨i, hi, hbehind, hia, hne⟩
    rw [← Function.update_of_ne hia Block.zero sendbuf] at hne
    have hi64 : i ≤ 64 := by
      split at hbehind <;> omega
    unfold larScan
    rw [larLoop_eq _ lar lfs hzero _ _ (by omega)]
    have hlt : scanWhile (fun j => (Function.update sendbuf ack Block.zero j).isEmpty)
        (top - (lar + 1)).toNat (lar + 1) < lar + 1 + (top - (lar + 1)).toNat := by
      by_contra hge
      -- Otherwise the scan would have passed over the slot.
      have hpassed := scanWhile_passed (p := fun j =>
        (Function.update sendbuf ack Block.zero j).isEmpty) (top - (lar + 1)).toNat (lar + 1) i
        (by omega) (by omega)
      exact hne ((Block.isEmpty_iff _).mp hpassed)
    rw [if_pos hlt]
    exact ⟨_, rfl⟩

/-- The number of covered frames is that of `lar` alone. -/
theorem Cursors.Sending.covered_unique {c c' : Cursors} {a a' s s' : Nat} (h : c.Sending a s)
    (h' : c'.Sending a' s') (hlar : c'.lar = c.lar) (hle : s ≤ s') (hle' : s' ≤ s + 1) :
    a' = a := by
  rcases h with ⟨hlar1, -, h1, h2⟩
  rcases h' with ⟨hlar2, -, h3, h4⟩
  omega

/-- Where `lar` stands after a scan. -/
theorem Cursors.Sending.rests {c : Cursors} {a a' s : Nat} (h : c.Sending a s) {top : Int}
    {sendbuf : Int → Block} {ack last : Int} (hstop : ScanStops sendbuf c.lar c.lfs ack)
    (hscan : larScan top (Function.update sendbuf ack Block.zero) c.lar c.lfs = some last)
    (h' : Cursors.Sending { c with lar := last } a' s) :
    a' = s ∨ Function.update sendbuf ack Block.zero (seqOf a') ≠ Block.zero ∨
      (c.lfs = 0 ∧ c.lar ≤ 0 ∧ a' = a) := by
  have hlfs := h.lfs_eq
  have hlar' := h'.lar_eq
  have hle' := h'.covered_le
  have hbound' := h'.sent_le
  dsimp only at hlar'
  by_cases hzero : c.lfs = 0 ∧ c.lar ≤ 0
  · -- The scan does not start.
    have hlar : -1 ≤ c.lar := by
      have := h.lar_eq
      omega
    rw [hzero.1, larScan_zero top _ _ hlar hzero.2, Option.some.injEq] at hscan
    exact Or.inr (Or.inr ⟨hzero.1, hzero.2, h.covered_unique h' hscan.symm (Nat.le_refl s)
      (Nat.le_succ s)⟩)
  · rcases larScan_rests hzero hscan with ⟨j, hlo, hclear, hne, hrest⟩
    rcases hstop.resolve_left hzero with ⟨i, hi, hbehind, hia, hnei⟩
    have hji : j ≤ i := by
      by_contra hlt
      refine hnei ?_
      rw [← Function.update_of_ne hia Block.zero sendbuf]
      exact hclear i hi (by omega)
    have hi64 : i ≤ 64 := by
      split at hbehind <;> omega
    -- Slot `seqOf a'` is the one behind the new `lar`.
    rcases hrest with ⟨hj, hlast⟩ | ⟨hj, m, hm0, hm, hmne, hlast⟩
    · have hslot : seqOf a' = j := by
        unfold seqOf
        omega
      exact Or.inr (Or.inl (hslot ▸ hne))
    · have hslot : seqOf a' = m := by
        unfold seqOf
        split at hlast <;> omega
      by_cases hmlt : m < c.lfs + 1
      · exact Or.inr (Or.inl (hslot ▸ hmne hmlt))
      · unfold seqOf at hslot
        exact Or.inl (by omega)

namespace System

variable {b : Nat → Block} {y : System} {live : Int → Option Block} {a k : Nat}
  {arrived : List Nat}

/-- The invariant of a transfer that goes on, and of the frames that the client
    waits for. Their timers are running, and `live` is what has been sent and not
    been acknowledged since. -/
structure Lively (b : Nat → Block) (y : System) (live : Int → Option Block) (a k : Nat)
    (arrived : List Nat) : Prop where
  going : Going b y a k arrived
  ready : Tracked.Ready ⟨y.client, live⟩
  acked : ∀ n, a ≤ n → n < y.sent → live (seqOf n) = none →
    y.client.driver.sendbuf (seqOf n) = Block.zero
  /-- `lar` stands before a frame that is waited for, or frame 0 has been
      acknowledged and no frame since. -/
  behind : a < y.sent → y.client.driver.sendbuf (seqOf a) ≠ Block.zero ∨
    (a = 0 ∧ ∀ n, 0 < n → n < y.sent → y.client.driver.sendbuf (seqOf n) ≠ Block.zero)

theorem lively_init (b : Nat → Block) (sendbuf : Int → Block) (cell : Heap)
    (start : ClockReading) :
    Lively b (init sendbuf cell start.toTimeval) (fun _ => none) 0 0 [] where
  going := going_init b sendbuf cell start.toTimeval
  ready := Tracked.ready_init sendbuf cell start
  acked := fun n _ hn => absurd hn (Nat.not_lt_zero n)
  behind := fun h => absurd h (Nat.not_lt_zero 0)

/-- A frame that has not arrived is waited for. -/
theorem Lively.live_of_missing (h : Lively b y live a k arrived) (hb : ∀ n, b n ≠ Block.zero)
    {n : Nat} (hn : n < y.sent) (hmissing : n ∉ arrived) : live (seqOf n) ≠ none := by
  intro hnone
  have hsf := h.going.sender.cursors.sent_le_filled
  have ha : a ≤ n := by
    by_contra hlt
    exact hmissing (h.going.sender.covered n (by omega))
  -- Its slot holds its block, so it has not been cleared.
  have hblock := (h.going.sender.contents n (by omega)).resolve_right hmissing
  exact hb n (hblock.symm.trans (h.acked n ha hn hnone))

/-- Where neither `lar`, the frames nor their slots change. -/
theorem Lively.move (h : Lively b y live a k arrived) {y' : System} {a' : Nat}
    (hgoing : Going b y' a' k arrived) (hready : Tracked.Ready ⟨y'.client, live⟩)
    (hlar : y'.client.driver.cursors.lar = y.client.driver.cursors.lar) (hsent : y'.sent = y.sent)
    (hbuf : ∀ n, a ≤ n → n < y.sent →
      y'.client.driver.sendbuf (seqOf n) = y.client.driver.sendbuf (seqOf n)) :
    Lively b y' live a k arrived := by
  have hsame : a' = a := h.going.sender.cursors.covered_unique hgoing.sender.cursors.toSending
    hlar (Nat.le_of_eq hsent.symm) (Nat.le_succ_of_le (Nat.le_of_eq hsent))
  refine ⟨hsame ▸ hgoing, hready, fun n hn hlt hnone => ?_, fun hlt => ?_⟩
  · rw [hsent] at hlt
    rw [hbuf n hn hlt]
    exact h.acked n hn hlt hnone
  · rw [hsent] at hlt ⊢
    rw [hbuf a (Nat.le_refl a) hlt]
    refine (h.behind hlt).imp_right fun hquirk => ⟨hquirk.1, fun n hn hns => ?_⟩
    rw [hbuf n (by omega) hns]
    exact hquirk.2 n hn hns

/-- The steps that the client takes for itself. -/
theorem lively_own (hb : ∀ n, b n ≠ Block.zero) (top : Int) (h : Lively b y live a k arrived)
    (e : ClientEvent) (hown : own e = true) (hclock : e.Clocked) (hok : y.Harmless e)
    (c' : Client) (out : Option Packet) (hstep : y.client.step top e = some (c', out)) :
    Lively b { y with
      client := c'
      filled := filledAfter y.filled e
      sent := sentAfter y.sent e out
      packets := y.packetsAfter out } (Tracked.record live e out) a k arrived := by
  have hready : Tracked.Ready ⟨c', Tracked.record live e out⟩ := by
    refine @Tracked.ready_step top _ _ e h.ready ?_ hclock ?_
    · rintro n stamp now rfl
      cases hown
    · unfold Tracked.step
      rw [hstep, Option.map_some]
  rcases going_drive hb top h.going e (.own e hown) hok c' out hstep with ⟨a', hgoing⟩
  have hcur := h.going.sender.cursors
  cases Client.step_cases top y.client c' e out hstep with
  | nothingAsked hphase hreq =>
      exact h.move hgoing hready rfl rfl fun _ _ _ => rfl
  | asked id requests hphase hreq =>
      exact h.move hgoing hready rfl rfl fun _ _ _ => rfl
  | resent id now hphase =>
      exact h.move hgoing hready rfl rfl fun _ _ _ => rfl
  | refilled body length hphase hguard hlen => cases hown
  | notRefilled hphase =>
      exact h.move hgoing hready rfl rfl fun _ _ _ => rfl
  | acked n stamp now lar hphase hscan => cases hown
  | notAcked hphase =>
      exact h.move hgoing hready rfl rfl fun _ _ _ => rfl
  | sent now hphase hguard =>
      rcases hcur.covered_unique hgoing.sender.cursors.toSending rfl (Nat.le_succ _)
        (Nat.le_refl _) with rfl
      have hpend := hcur.pending hguard
      have hbound := h.going.sender.bound
      -- The frame is new, so it has not arrived, and its slot holds its block.
      have hnew : y.client.driver.sendbuf (seqOf y.sent) = b y.sent :=
        (h.going.sender.contents y.sent hpend).resolve_right fun harr =>
          absurd (h.going.known y.sent harr) (Nat.lt_irrefl _)
      have hne : y.client.driver.sendbuf (seqOf y.sent) ≠ Block.zero := hnew ▸ hb y.sent
      have hnext := hcur.next_eq
      refine ⟨hgoing, hready, fun n hn hlt hnone => ?_, fun hlt => ?_⟩
      · dsimp only [sentAfter] at hlt
        dsimp only [Tracked.record, Driver.packet] at hnone
        by_cases heq : n = y.sent
        · rw [heq, hnext, Function.update_self] at hnone
          cases hnone
        · have hslot : seqOf n ≠ y.client.driver.cursors.lfs + 1 := by
            rw [hnext]
            unfold seqOf
            omega
          rw [Function.update_of_ne hslot] at hnone
          exact h.acked n hn (by omega) hnone
      · dsimp only [sentAfter, Driver.estimate] at hlt ⊢
        rcases Nat.lt_succ_iff_lt_or_eq.mp hlt with hlt | rfl
        · refine (h.behind hlt).imp_right fun hquirk => ⟨hquirk.1, fun n hn hns => ?_⟩
          rcases Nat.lt_succ_iff_lt_or_eq.mp hns with hns | rfl
          · exact hquirk.2 n hn hns
          · exact hne
        · exact Or.inl hne
  | notSent now hphase hguard =>
      exact h.move hgoing hready rfl rfl fun _ _ _ => rfl
  | commanded left now m commands p hcmd hp =>
      exact h.move hgoing hready rfl rfl fun _ _ _ => rfl
  | expired left now p ids hp =>
      exact h.move hgoing hready rfl rfl fun _ _ _ => rfl
  | changed i x hi =>
      refine h.move hgoing hready rfl rfl fun n _ _ => Function.update_of_ne ?_ _ _
      -- The slots are not outside of the buffer.
      rintro rfl
      exact hi (seqOf_mem n)

/-- The client reads the next block. -/
theorem lively_block (hb : ∀ n, b n ≠ Block.zero) (top : Int) (h : Lively b y live a k arrived)
    (c' : Client) (out : Option Packet)
    (hstep : y.client.step top (.refill (b y.filled) buffSize) = some (c', out)) :
    out = none ∧ Lively b { y with client := c', filled := y.filled + 1 } live a k arrived := by
  have hready : Tracked.Ready ⟨c', live⟩ := by
    refine @Tracked.ready_step top _ _ (.refill (b y.filled) buffSize) h.ready nofun trivial ?_
    unfold Tracked.step
    rw [hstep, Option.map_some]
    rfl
  have hcur := h.going.sender.cursors
  rcases going_drive hb top h.going _ .block (harmless_of_plain y _ rfl) c' out hstep with
    ⟨a', hgoing⟩
  cases Client.step_cases top y.client c' _ out hstep with
  | refilled body length hphase hguard hlen =>
      have hearly : y.client.driver.phase.early = true := by rw [hphase]; rfl
      have hroom := hcur.room (h.going.sender.idle hearly) hguard
      refine ⟨rfl, h.move hgoing hready rfl rfl fun n hn hlt => ?_⟩
      dsimp only [Driver.refill]
      -- The new block does not go to the slot of an outstanding frame.
      refine Function.update_of_ne ?_ _ _
      rw [hcur.bufpos_eq]
      have hsf := hcur.sent_le_filled
      unfold seqOf
      omega

/-- An acknowledgement that does not spoil the transfer is read. Unless frame 0 is
    the only one that has been sent, `lar` stands before a frame that is waited for
    afterwards. -/
theorem lively_ack (hb : ∀ n, b n ≠ Block.zero) (top : Int) (h : Lively b y live a k arrived)
    (x : Copy Ack) (hx : x ∈ y.acks) (hfresh : y.sent ≤ x.frame + 44) (now : Timeval)
    (hok : y.Harmless (.ack x.message.ackSeq x.message.timeStamp now)) (c' : Client)
    (out : Option Packet)
    (hstep : y.client.step top (.ack x.message.ackSeq x.message.timeStamp now) = some (c', out)) :
    out = none ∧ ∃ a', a ≤ a' ∧
      Lively b { y with client := c' } (Function.update live x.message.ackSeq none) a' k arrived ∧
      (1 < y.sent → a' < y.sent → c'.driver.sendbuf (seqOf a') ≠ Block.zero) := by
  rcases h.going.acks x hx with ⟨hseq, harr⟩
  have hslot := seqOf_mem x.frame
  have hready : Tracked.Ready ⟨c', Function.update live x.message.ackSeq none⟩ := by
    refine @Tracked.ready_step top _ _ (.ack x.message.ackSeq x.message.timeStamp now) h.ready
      (fun n stamp t heq => ?_) trivial ?_
    · rw [← (ClientEvent.ack.inj heq).1, hseq]
      exact hslot
    · unfold Tracked.step
      rw [hstep, Option.map_some]
      rfl
  have hcur := h.going.sender.cursors
  have hstop := (hok.ack _ _ _ rfl).2
  rcases going_drive hb top h.going _ (.ack x hx hfresh now) hok c' out hstep with ⟨a', hgoing⟩
  cases Client.step_cases top y.client c' _ out hstep with
  | acked _ _ _ lar hphase hscan =>
      have hsending := hgoing.sender.cursors.toSending
      have hbuf : y.client.driver.clear x.message.ackSeq
          = Function.update y.client.driver.sendbuf x.message.ackSeq Block.zero := by
        rw [hseq, Driver.clear_seqOf]
      rw [hbuf] at hscan
      rcases hcur.scanned h.going.sender.bound top _ _ lar hstop hscan with
        ⟨a'', hle, -, hsending', -⟩
      rcases hsending.covered_unique hsending' rfl (Nat.le_refl _) (Nat.le_succ _) with rfl
      have hrest : a'' < y.sent → y.client.driver.clear x.message.ackSeq (seqOf a'') ≠ Block.zero ∨
          (a'' = 0 ∧ y.sent = 1) := by
        intro hlt
        rw [hbuf]
        rcases hcur.rests hstop hscan hsending with hall | hne | ⟨hlfs, hlar, hsame⟩
        · exact absurd hall (Nat.ne_of_lt hlt)
        · exact Or.inl hne
        · -- Frame 0 is acknowledged before frame 1 has been sent.
          rcases hcur with ⟨⟨hlar', hlfs', hcov, hbound⟩, -, -, -⟩
          exact Or.inr (by omega)
      refine ⟨rfl, a'', hle, ⟨hgoing, hready, fun n hn hlt hnone => ?_, fun hlt => ?_⟩,
        fun hone hlt => (hrest hlt).resolve_right fun hfirst => by omega⟩
      · dsimp only
        rw [hbuf, hseq]
        rw [hseq] at hnone
        by_cases heq : seqOf n = seqOf x.frame
        · rw [heq, Function.update_self]
        · rw [Function.update_of_ne heq] at hnone ⊢
          exact h.acked n (Nat.le_trans hle hn) hlt hnone
      · refine (hrest hlt).imp_right fun hfirst => ⟨hfirst.1, fun n hn hlt' => ?_⟩
        dsimp only [filledAfter, sentAfter] at hlt'
        omega

/-- A packet that is delivered in time reaches a server that has not stalled. -/
theorem lively_arrive (hb : ∀ n, b n ≠ Block.zero) (h : Lively b y live a k arrived)
    (x : Copy Packet) (hx : x ∈ y.packets) (hfresh : y.sent ≤ x.frame + 44)
    (hlfr : y.server.lfr ≠ 63) (s' : Server) (out : List (List UInt8)) (ack : Ack)
    (hstep : y.server.step (fullSize x.message) = some (s', out, ack)) :
    ∃ k' arrived', x.frame ∈ arrived' ∧ Lively b { y with
      server := s'
      acks := { frame := x.frame, message := ack } :: y.acks
      passed := y.passed ++ out } live a k' arrived' := by
  rcases going_arrive hb h.going x hx hfresh hlfr s' out ack hstep with ⟨k', arrived', hgoing⟩
  have harr := (hgoing.acks _ List.mem_cons_self).2
  exact ⟨k', arrived', harr, hgoing, h.ready, h.acked, h.behind⟩

/-- The step is harmless, and the timer process reads a normalised clock. -/
def Timely (b : Nat → Block) (y : System) (e : SystemEvent) : Prop :=
  y.Careful b e ∧ ∀ ce, y.clientEvent b e = some ce → ce.Clocked

theorem timely_client {e : ClientEvent} (h : y.Harmless e) (hclock : e.Clocked) :
    y.Timely b (.client e) := by
  refine ⟨careful_client b y e h, fun ce hce => ?_⟩
  simp only [clientEvent, Option.ite_none_right_eq_some, Option.some.injEq] at hce
  exact hce.2 ▸ hclock

theorem timely_block (b : Nat → Block) (y : System) : y.Timely b .block := by
  refine ⟨careful_block b y, fun ce hce => ?_⟩
  cases hce
  trivial

/-- The server has stalled, or the transfer goes on. -/
def Lives (b : Nat → Block) (y : System) : Prop :=
  Stuck b y ∨ ∃ live a k arrived, Lively b y live a k arrived

theorem lives_step (hb : ∀ n, b n ≠ Block.zero) (top : Int) (y : System) (e : SystemEvent)
    (y' : System) (h : Lives b y) (hok : y.Timely b e) (hstep : y.step b top e = some y') :
    Lives b y' := by
  rcases h with hstuck | ⟨live, a, k, arrived, h⟩
  · exact Or.inl (stuck_step top e y' hstuck hstep)
  · by_cases hlfr : y.server.lfr = 63
    · exact Or.inl (stuck_step top e y' (h.going.stuck hlfr) hstep)
    · rcases step_cases b top y y' e hstep with
        ⟨x, hx, hfresh, s', out, ack, hs, rfl⟩ | ⟨ce, c', out, hce, hc, rfl⟩
      · rcases lively_arrive hb h x hx hfresh hlfr s' out ack hs with ⟨k', arrived', -, h'⟩
        exact Or.inr ⟨live, a, k', arrived', h'⟩
      · have hharmless := hok.1 ce hce
        cases clientEvent_fed b y e ce hce with
        | block =>
            rcases lively_block hb top h c' out hc with ⟨rfl, h'⟩
            exact Or.inr ⟨live, a, k, arrived, h'⟩
        | ack x hx hfresh now =>
            rcases lively_ack hb top h x hx hfresh now hharmless c' out hc with
              ⟨rfl, a', -, h', -⟩
            exact Or.inr ⟨_, a', k, arrived, h'⟩
        | own ce hown =>
            exact Or.inr ⟨_, a, k, arrived,
              lively_own hb top h ce hown (hok.2 ce hce) hharmless c' out hc⟩

theorem lives_run (hb : ∀ n, b n ≠ Block.zero) (top : Int) (sendbuf : Int → Block) (cell : Heap)
    (start : ClockReading) (es : List SystemEvent) (y : System)
    (hes : Machine.Meets (System.step b top) (Timely b) (init sendbuf cell start.toTimeval) es)
    (hrun : Machine.run (System.step b top) (init sendbuf cell start.toTimeval) es = some y) :
    Lives b y :=
  Machine.run_induction (lives_step hb top) es _ y
    (Or.inr ⟨_, 0, 0, [], lively_init b sendbuf cell start⟩) hes hrun

end System

end Cse5462
