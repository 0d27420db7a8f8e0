import Cse5462.Tcpd.Lively
import Cse5462.Tcpd.Stall

/-!
# A Transfer Can Go On

Whatever the network has lost, a transfer that has not come to a halt can go on.
Three things are known to halt it for good: the server has stalled, or is doomed
to with the next block, or `select` refuses the timeout of the timer process.
Apart from these, and when everything that has been read has been sent, any
number of further blocks can reach ftps, even if nothing of what has been sent
so far is delivered any more.

The run is put together from two parts. A frame that has been sent and is the
next to arrive is sent again and delivered. When all frames have arrived, the
next block is read and sent. For that `lar` has to move, so a frame behind `lar`
is sent again first, and the server answers it as a copy. The scan for `lar` is
not stopped in time while nothing waits, so the acknowledgement is read only
when the block has been read, and right before it is sent.

## Main definitions

* `System.forgotten`: Everything that is under way is lost.
* `System.Steady`: The steps of the run.
* `System.Calm`: The invariant of the run.
* `System.Alone`: What the steps of the client leave as it is.

## Theorems

* `own_taken`, `packet_taken`, `block_taken`, `ack_taken`: Single steps.
* `lift`: A run of the client as a run of the transfer.
* `sent_again`: A frame that is waited for is sent again.
* `pass_next`, `send_next`: The two parts.
* `transfer_goes_on`: Any number of blocks can be passed on.
-/

namespace Cse5462

/-- A packet with the number of a slot is always answered. -/
theorem Server.step_fullSize (s : Server) {p : Packet} (hp : 0 ≤ p.seq ∧ p.seq < 64) :
    ∃ s' out ack, s.step (fullSize p) = some (s', out, ack) := by
  unfold Server.step Server.receive
  dsimp only [fullSize]
  split_ifs with hacc hout hempty hlen
  · unfold sendRecvBufSize at hout
    omega
  · exact absurd hlen (by decide)
  · exact ⟨_, _, _, rfl⟩
  · exact ⟨_, _, _, rfl⟩
  · exact ⟨_, _, _, rfl⟩

/-- The driver comes to read a block. -/
theorem Tracked.to_ftpc (top : Int) (t : Tracked) :
    ∃ t', Machine.Reaches (step top) Quiet t t' ∧ t'.client.driver.phase = .ftpc ∧
      t'.client.timer = t.client.timer := by
  rcases to_select top t with ⟨s, hreach, hsel, -, htimer, -⟩
  have hselect : s.Quiet .select := trivial
  cases hreq : s.client.requests with
  | nil =>
      have hstep : s.step top .select = some
          ⟨{ s.client with driver := { s.client.driver with phase := .ftpc } }, s.live⟩ := by
        simp only [step, Client.step, Client.select, hsel, hreq, if_true, Option.map_some, record]
      exact ⟨_, Machine.reaches_trans hreach (Machine.reaches_step hselect hstep), rfl, htimer⟩
  | cons id ids =>
      -- A request is answered before.
      let c : Client :=
        { s.client with driver := { s.client.driver with phase := .resending id }, requests := ids }
      have hstep : s.step top .select = some ⟨c, s.live⟩ := by
        simp only [step, Client.step, Client.select, hsel, hreq, if_true, Option.map_some, record]
        rfl
      let r : Tracked := ⟨c, s.live⟩
      have hresend : r.Quiet (.resend ⟨0, 0⟩) := trivial
      refine ⟨_, Machine.reaches_trans hreach (Machine.reaches_cons hselect hstep
        (Machine.reaches_step hresend rfl)), rfl, htimer⟩

/-- A block that waits is sent while fewer than 20 frames are outstanding. -/
theorem Cursors.Filled.guard {c : Cursors} {a s : Nat} (h : c.Filled a s (s + 1))
    (hroom : s < a + 20) : c.sendGuard := by
  rcases h with ⟨⟨hlar, hlfs, hle, hbound⟩, hbuf, hsf, hfa⟩
  simp only [sendGuard, window]
  omega

namespace System

variable {b : Nat → Block} {y : System} {live : Int → Option Block} {a k : Nat}
  {arrived : List Nat}

/-- Everything that is under way is lost. -/
def forgotten (y : System) : System := { y with packets := [], acks := [] }

/-- The step does not spoil the transfer, a block is read only when all blocks before
    it have been passed on, and the memory behind the buffer stays as it is. -/
structure Steady (b : Nat → Block) (y : System) (e : SystemEvent) : Prop where
  timely : y.Timely b e
  block : e = .block → y.filled = y.passed.length
  memory : ∀ i x, e ≠ .client (.memory i x)

/-- What the steps of the client leave as it is, while no block waits. -/
structure Alone (y y' : System) : Prop where
  server : y'.server = y.server
  passed : y'.passed = y.passed
  filled : y'.filled = y.filled
  sent : y'.sent = y.sent
  acks : y'.acks = y.acks
  sendbuf : y'.client.driver.sendbuf = y.client.driver.sendbuf

theorem Alone.refl (y : System) : Alone y y := ⟨rfl, rfl, rfl, rfl, rfl, rfl⟩

theorem Alone.trans {y y' y'' : System} (h : Alone y y') (h' : Alone y' y'') : Alone y y'' :=
  ⟨h'.server.trans h.server, h'.passed.trans h.passed, h'.filled.trans h.filled,
    h'.sent.trans h.sent, h'.acks.trans h.acks, h'.sendbuf.trans h.sendbuf⟩

/-- The invariant of the run: the timer process has not exited, the server has not
    stalled and is not doomed to, and what is behind the send buffer stops the
    scan for `lar`. -/
structure Calm (b : Nat → Block) (y : System) (live : Int → Option Block) (a k : Nat)
    (arrived : List Nat) : Prop extends Lively b y live a k arrived where
  timeout : y.client.timer.TimeoutValid
  above : y.client.driver.sendbuf 64 ≠ Block.zero
  flowing : y.server.lfr ≠ 63
  spared : ¬ y.server.Doomed

/-- Where neither the server nor what is behind the send buffer changes. -/
theorem Calm.move (h : Calm b y live a k arrived) {y' : System} {live' : Int → Option Block}
    {a' : Nat} (h' : Lively b y' live' a' k arrived) (htimeout : y'.client.timer.TimeoutValid)
    (habove : y'.client.driver.sendbuf 64 = y.client.driver.sendbuf 64)
    (hserver : y'.server = y.server) : Calm b y' live' a' k arrived where
  toLively := h'
  timeout := htimeout
  above := habove ▸ h.above
  flowing := hserver ▸ h.flowing
  spared := hserver ▸ h.spared

theorem Calm.alone (h : Calm b y live a k arrived) {y' : System} {live' : Int → Option Block}
    (halone : Alone y y') (h' : Lively b y' live' a k arrived)
    (htimeout : y'.client.timer.TimeoutValid) : Calm b y' live' a k arrived :=
  h.move h' htimeout (halone.sendbuf ▸ rfl) halone.server

theorem own_of_quiet {t : Tracked} {e : ClientEvent} (h : t.Quiet e) : own e = true := by
  cases e with
  | refill body length => exact h.elim
  | ack n stamp now => exact h.elim
  | _ => rfl

theorem sendbuf_of_quiet {t : Tracked} {top : Int} {c c' : Client} {e : ClientEvent}
    {out : Option Packet} (h : t.Quiet e) (hstep : c.step top e = some (c', out)) :
    c'.driver.sendbuf = c.driver.sendbuf := by
  cases Client.step_cases top c c' e out hstep with
  | refilled body length hphase hguard hlen => exact h.elim
  | acked n stamp now lar hphase hscan => exact h.elim
  | changed i x hi => exact h.elim
  | _ => rfl

/-- While no block waits, what the client does for itself is harmless. -/
theorem Going.harmless (h : Going b y a k arrived) (hall : y.filled = y.sent) {e : ClientEvent}
    (hown : own e = true) : y.Harmless e where
  send := fun now _ hguard => by
    have := h.sender.cursors.pending hguard
    omega
  resend := fun now id _ hphase hwaits => by
    rcases h.asks.answered id hphase with ⟨n, hn, rfl⟩
    have hlast := (lastIn_spec y.filled n (by omega)).2.1
    unfold Waits at hwaits
    omega
  ack := fun n stamp now heq => by
    rw [heq] at hown
    cases hown

/-- And it does not send a new frame. -/
theorem Going.sentAfter_eq (h : Going b y a k arrived) (hall : y.filled = y.sent) {top : Int}
    {e : ClientEvent} {c' : Client} {out : Option Packet}
    (hstep : y.client.step top e = some (c', out)) : sentAfter y.sent e out = y.sent := by
  cases Client.step_cases top y.client c' e out hstep with
  | sent now hphase hguard =>
      have := h.sender.cursors.pending hguard
      omega
  | _ => rfl

/-- A harmless step that the client takes for itself. -/
theorem own_taken (hb : ∀ n, b n ≠ Block.zero) {top : Int} (h : Lively b y live a k arrived)
    {t : Tracked} {e : ClientEvent} (hquiet : t.Quiet e) (hok : y.Harmless e) {c' : Client}
    {out : Option Packet} (hstep : y.client.step top e = some (c', out)) :
    ∃ y', Machine.Reaches (System.step b top) (Steady b) y y' ∧
      y' = { y with
        client := c'
        sent := sentAfter y.sent e out
        packets := y.packetsAfter out } ∧
      Lively b y' (Tracked.record live e out) a k arrived := by
  have hown := own_of_quiet hquiet
  have hfilled : filledAfter y.filled e = y.filled := by
    cases e <;> first | rfl | cases hown
  have hlively := lively_own hb top h e hown (Tracked.clocked_of_quiet hquiet) hok c' out hstep
  rw [hfilled] at hlively
  have hsteady : y.Steady b (.client e) := by
    refine ⟨timely_client hok (Tracked.clocked_of_quiet hquiet),
      fun heq => SystemEvent.noConfusion heq, fun i x heq => ?_⟩
    cases heq
    exact hquiet.elim
  refine ⟨_, Machine.reaches_step hsteady ?_, rfl, hlively⟩
  simp only [System.step, clientEvent, hown, if_true, Option.bind_some, drive, hstep,
    Option.map_some, hfilled]

/-- A run of the client as a run of the transfer. -/
theorem lift (hb : ∀ n, b n ≠ Block.zero) {top : Int} (h : Lively b y live a k arrived)
    (hall : y.filled = y.sent) {t' : Tracked}
    (hreach : Machine.Reaches (Tracked.step top) Tracked.Quiet ⟨y.client, live⟩ t') :
    ∃ y' live', Machine.Reaches (System.step b top) (Steady b) y y' ∧ y'.client = t'.client ∧
      Alone y y' ∧ Lively b y' live' a k arrived := by
  rcases hreach with ⟨es, hquiet, hrun⟩
  induction es generalizing y live with
  | nil =>
      rw [Machine.run_nil, Option.some.injEq] at hrun
      exact ⟨y, live, Machine.reaches_refl y, hrun ▸ rfl, Alone.refl y, h⟩
  | cons e es ih =>
      simp only [Machine.run_cons, Option.bind_eq_some_iff] at hrun
      rcases hrun with ⟨s, hs, hrest⟩
      rcases Option.map_eq_some_iff.mp hs with ⟨⟨c', out⟩, hc, rfl⟩
      rcases own_taken hb h hquiet.1 (h.going.harmless hall (own_of_quiet hquiet.1)) hc with
        ⟨y1, hreach, rfl, h1⟩
      have hsent := h.going.sentAfter_eq hall hc
      rcases ih h1 (hall.trans hsent.symm) (hquiet.2 _ hs) hrest with
        ⟨y', live', hreach', hclient, halone, h'⟩
      refine ⟨y', live', Machine.reaches_trans hreach hreach', hclient, Alone.trans ?_ halone, h'⟩
      exact ⟨rfl, rfl, rfl, hsent, rfl, sendbuf_of_quiet hquiet.1 hc⟩

/-- A frame that is waited for is sent again. -/
theorem sent_again (hb : ∀ n, b n ≠ Block.zero) (top : Int) (h : Calm b y live a k arrived)
    (hall : y.filled = y.sent) {n : Nat} (ha : a ≤ n) (hn : n < y.sent)
    (hlive : live (seqOf n) ≠ none) :
    ∃ y' live', Machine.Reaches (System.step b top) (Steady b) y y' ∧
      y'.client.driver.phase = .ftpc ∧ Alone y y' ∧ (∃ x ∈ y'.packets, x.frame = n) ∧
      Calm b y' live' a k arrived := by
  rcases Tracked.answered_of_armed (t := ⟨y.client, live⟩) top h.ready h.timeout hlive with
    ⟨t, hreach, hphase, htimeout, -⟩
  rcases lift hb h.toLively hall hreach with ⟨y1, live1, hreach1, hclient, halone, h1⟩
  rw [← hclient] at hphase htimeout
  have hcalm := h.alone halone h1 htimeout
  have hsent := halone.sent
  have hfilled := halone.filled
  -- The driver answers the request.
  have hstep : y1.client.step top (.resend ⟨0, 0⟩) = some
      ({ y1.client with
        driver := { y1.client.driver.estimate with phase := .ftpc }
        commands := y1.client.commands ++
          [starttimer (seconds y1.client.driver.estimate.rto) (seqOf n)] },
        some (y1.client.driver.packet (seqOf n) ⟨0, 0⟩)) := by
    simp only [Client.step, Client.resend, hphase, Option.map_some]
    rfl
  have hquiet : Tracked.Quiet ⟨y1.client, live1⟩ (.resend ⟨0, 0⟩) := trivial
  rcases own_taken hb h1 hquiet (h1.going.harmless (by omega) rfl) hstep with ⟨y2, hreach2, rfl, h2⟩
  have halone2 : Alone y1 { y1 with
      client := { y1.client with
        driver := { y1.client.driver.estimate with phase := .ftpc }
        commands := y1.client.commands ++
          [starttimer (seconds y1.client.driver.estimate.rto) (seqOf n)] }
      packets := y1.packetsAfter (some (y1.client.driver.packet (seqOf n) ⟨0, 0⟩)) } :=
    ⟨rfl, rfl, rfl, rfl, rfl, rfl⟩
  have hbound := h.going.sender.bound
  have hframe : lastIn y1.filled (seqOf n) = n := lastIn_eq y1.filled n (by omega) (by omega)
  exact ⟨_, _, Machine.reaches_trans hreach1 hreach2, rfl, halone.trans halone2,
    ⟨_, List.mem_cons_self, hframe⟩, hcalm.alone halone2 h2 htimeout⟩

/-- A packet is delivered to a server that has not stalled. -/
theorem packet_taken (hb : ∀ n, b n ≠ Block.zero) (top : Int) (h : Lively b y live a k arrived)
    (hlfr : y.server.lfr ≠ 63) {x : Copy Packet} (hx : x ∈ y.packets)
    (hfresh : y.sent ≤ x.frame + 44) :
    ∃ s' out ack k' arrived', y.server.step (fullSize x.message) = some (s', out, ack) ∧
      Machine.Reaches (System.step b top) (Steady b) y { y with
        server := s'
        acks := { frame := x.frame, message := ack } :: y.acks
        passed := y.passed ++ out } ∧
      Lively b { y with
        server := s'
        acks := { frame := x.frame, message := ack } :: y.acks
        passed := y.passed ++ out } live a k' arrived' ∧ x.frame ∈ arrived' := by
  rcases List.mem_iff_getElem?.mp hx with ⟨i, hi⟩
  rcases y.server.step_fullSize (p := x.message) (by
    rw [(h.going.packets x hx).seq_eq]
    exact seqOf_mem x.frame) with ⟨s', out, ack, hs⟩
  rcases lively_arrive hb h x hx hfresh hlfr s' out ack hs with ⟨k', arrived', harr, h'⟩
  have hsteady : y.Steady b (.packet i) :=
    ⟨⟨careful_packet b y i, fun ce hce => by cases hce⟩,
      fun heq => SystemEvent.noConfusion heq, fun _ _ heq => SystemEvent.noConfusion heq⟩
  have hnext : y.step b top (.packet i) = some { y with
      server := s'
      acks := { frame := x.frame, message := ack } :: y.acks
      passed := y.passed ++ out } := by
    simp only [System.step, arrive, hi, if_pos hfresh, hs, Option.map_some]
  exact ⟨s', out, ack, k', arrived', hs, Machine.reaches_step hsteady hnext, h', harr⟩

/-- A packet with the frame that is missing next carries its block. -/
theorem Going.carries_next (h : Going b y a k arrived) {x : Copy Packet} (hx : x ∈ y.packets)
    (hframe : x.frame = k) : x.message = Arrival.packet b ⟨x.frame, x.message.timeStamp⟩ := by
  rcases h.packets x hx with ⟨hseq, -, hbody⟩
  have hblock := hbody.resolve_right fun harr => h.receiver.missing (hframe ▸ harr)
  cases hm : x.message with
  | mk seq timeStamp body =>
      rw [hm] at hseq hblock
      cases hseq
      cases hblock
      rfl

/-- The frame that is missing next is delivered. -/
theorem next_delivered (hb : ∀ n, b n ≠ Block.zero) (top : Int) (h : Calm b y live a k arrived)
    {x : Copy Packet} (hx : x ∈ y.packets) (hframe : x.frame = k) :
    ∃ y' k' arrived', Machine.Reaches (System.step b top) (Steady b) y y' ∧ k < k' ∧
      y'.filled = y.filled ∧ y'.sent = y.sent ∧ Calm b y' live a k' arrived' := by
  have hle := h.going.le_sent
  have hcov := h.going.covered_le
  have hbound := h.going.sender.bound
  rcases packet_taken hb top h.toLively h.flowing hx (by omega) with
    ⟨s', out, ack, k', arrived', hs, hreach, h', harr⟩
  have hlen := h.going.receiver.length_passed
  -- The same step of the receiver alone.
  have hadm : Receiver.Admits ⟨y.server, y.passed, arrived⟩ ⟨x.frame, x.message.timeStamp⟩ := by
    unfold Receiver.Admits
    rw [hlen]
    dsimp only
    omega
  rcases Receiver.spared_next h.going.receiver hb hadm hframe h.flowing h.spared with
    ⟨r', j, hr', hassembled, hj, hlfr', hspared'⟩
  unfold Receiver.step at hr'
  rw [if_pos hadm, ← h.going.carries_next hx hframe, hs] at hr'
  cases hr'
  have hsame : k' = j := h'.going.receiver.length_passed.symm.trans hassembled.length_passed
  exact ⟨_, k', arrived', hreach, hsame ▸ hj, rfl, rfl,
    { toLively := h', timeout := h.timeout, above := h.above, flowing := hlfr',
      spared := hspared' }⟩

/-- A frame that has arrived is delivered again, and answered. -/
theorem copy_delivered (hb : ∀ n, b n ≠ Block.zero) (top : Int) (h : Calm b y live a k arrived)
    {x : Copy Packet} (hx : x ∈ y.packets) (ha : a ≤ x.frame) (hframe : x.frame < k) :
    ∃ y' arrived', Machine.Reaches (System.step b top) (Steady b) y y' ∧
      y'.client = y.client ∧ y'.filled = y.filled ∧ y'.sent = y.sent ∧
      (∃ z ∈ y'.acks, z.frame = x.frame) ∧ Calm b y' live a k arrived' := by
  have hle := h.going.le_sent
  have hbound := h.going.sender.bound
  have hlen := h.going.receiver.length_passed
  rcases packet_taken hb top h.toLively h.flowing hx (by omega) with
    ⟨s', out, ack, k', arrived', hs, hreach, h', -⟩
  have hsame := Receiver.receive_again h.going.receiver hb x.frame
    (h.going.receiver.below x.frame hframe) (by omega) x.message (h.going.packets x hx).seq_eq
  unfold Server.step at hs
  dsimp only at hsame
  rw [hsame] at hs
  cases hs
  have hk : k' = k := by
    have hlen' := h'.going.receiver.length_passed
    dsimp only at hlen hlen'
    rw [List.append_nil] at hlen'
    omega
  subst hk
  exact ⟨_, arrived', hreach, rfl, rfl, rfl, ⟨_, List.mem_cons_self, rfl⟩,
    { toLively := h', timeout := h.timeout, above := h.above, flowing := h.flowing,
      spared := h.spared }⟩

/-- A frame that has been sent and is the next to be passed on is passed on. -/
theorem pass_next (hb : ∀ n, b n ≠ Block.zero) (top : Int) (h : Calm b y live a k arrived)
    (hall : y.filled = y.sent) (hk : k < y.sent) :
    ∃ y' live' k' arrived', Machine.Reaches (System.step b top) (Steady b) y y' ∧ k < k' ∧
      y'.filled = y'.sent ∧ Calm b y' live' a k' arrived' := by
  rcases sent_again hb top h hall h.going.covered_le hk
    (h.live_of_missing hb hk h.going.receiver.missing) with
    ⟨y1, live1, hreach1, -, halone, ⟨x, hx, hframe⟩, h1⟩
  rcases next_delivered hb top h1 hx hframe with
    ⟨y2, k', arrived', hreach2, hlt, hfilled, hsent, h2⟩
  refine ⟨y2, live1, k', arrived', Machine.reaches_trans hreach1 hreach2, hlt, ?_, h2⟩
  rw [hfilled, hsent, halone.filled, halone.sent, hall]

/-- A frame behind `lar` that a timer is running for, and whose acknowledgement makes
    `lar` move. -/
theorem Lively.exists_waited (h : Lively b y live a k arrived) (ha : a < y.sent)
    (hmany : 1 < y.sent) :
    ∃ n, a ≤ n ∧ n < y.sent ∧ live (seqOf n) ≠ none ∧
      Function.update y.client.driver.sendbuf (seqOf n) Block.zero (seqOf a) = Block.zero := by
  have hlive : ∀ n, a ≤ n → n < y.sent → y.client.driver.sendbuf (seqOf n) ≠ Block.zero →
      live (seqOf n) ≠ none := fun n hn hlt hne hnone => hne (h.acked n hn hlt hnone)
  by_cases hzero : y.client.driver.sendbuf (seqOf a) = Block.zero
  · -- Frame 0 has been acknowledged, and frame 1 has not.
    rcases (h.behind ha).resolve_left (not_not.mpr hzero) with ⟨rfl, hne⟩
    refine ⟨1, Nat.zero_le 1, hmany, hlive 1 (Nat.zero_le 1) hmany (hne 1 Nat.one_pos hmany), ?_⟩
    rw [Function.update_of_ne (by decide)]
    exact hzero
  · exact ⟨a, Nat.le_refl a, ha, hlive a (Nat.le_refl a) ha hzero, Function.update_self _ _ _⟩

/-- While a block waits, the scan for `lar` is stopped in time by the slot of the
    block, or by what is behind the buffer. -/
theorem Lively.scanStops (h : Lively b y live a k arrived) (hb : ∀ n, b n ≠ Block.zero)
    (hwaits : y.sent < y.filled) (habove : y.client.driver.sendbuf 64 ≠ Block.zero) {n : Nat}
    (hlo : a ≤ n) (hn : n < y.sent) :
    ScanStops y.client.driver.sendbuf y.client.driver.cursors.lar y.client.driver.cursors.lfs
      (seqOf n) := by
  have hblock := (h.going.sender.contents y.sent hwaits).resolve_right fun harr =>
    absurd (h.going.known y.sent harr) (Nat.lt_irrefl _)
  have hbound := h.going.sender.bound
  rcases h.going.sender.cursors with ⟨⟨hlar, hlfs, hcov, -⟩, -, -, -⟩
  right
  by_cases hge : y.client.driver.cursors.lfs ≥ y.client.driver.cursors.lar
  · rw [if_pos hge]
    have hslot : y.client.driver.cursors.lfs + 1 = seqOf y.sent := by
      unfold seqOf
      omega
    refine ⟨y.client.driver.cursors.lfs + 1, by omega, Int.le_refl _, ?_, ?_⟩
    · rw [hslot]
      unfold seqOf
      omega
    · rw [hslot, hblock]
      exact hb y.sent
  · rw [if_neg hge]
    have hslot := seqOf_mem n
    exact ⟨64, by omega, Int.le_refl _, by omega, habove⟩

/-- The driver reads an acknowledgement that is in the network. -/
theorem ack_taken (hb : ∀ n, b n ≠ Block.zero) {top : Int} (htop : 65 ≤ top)
    (h : Lively b y live a k arrived) (hphase : y.client.driver.phase = .ack) {z : Copy Ack}
    (hz : z ∈ y.acks) (hlo : a ≤ z.frame) (hwaits : y.sent < y.filled)
    (habove : y.client.driver.sendbuf 64 ≠ Block.zero) (hmany : 1 < y.sent) :
    ∃ c' live' a', Machine.Reaches (System.step b top) (Steady b) y { y with client := c' } ∧
      c'.driver.phase = .send ∧ c'.timer = y.client.timer ∧ c'.driver.sendbuf
        = Function.update y.client.driver.sendbuf (seqOf z.frame) Block.zero ∧
      Lively b { y with client := c' } live' a' k arrived ∧ a ≤ a' ∧
      (a' < y.sent → c'.driver.sendbuf (seqOf a') ≠ Block.zero) := by
  rcases h.going.acks z hz with ⟨hseq, harr⟩
  have hcur := h.going.sender.cursors
  have hsent := h.going.known _ harr
  have hbound := h.going.sender.bound
  have hfresh : y.sent ≤ z.frame + 44 := by omega
  have hstop := h.scanStops hb hwaits habove hlo hsent
  rw [← hseq] at hstop
  have hlar : -1 ≤ y.client.driver.cursors.lar := by
    have := hcur.lar_eq
    omega
  have hlfs : y.client.driver.cursors.lfs ≤ 63 := by
    have := hcur.lfs_eq
    omega
  rcases larScan_some htop hlar hlfs hstop with ⟨lar, hscan⟩
  have hbuf : y.client.driver.clear z.message.ackSeq
      = Function.update y.client.driver.sendbuf z.message.ackSeq Block.zero := by
    rw [hseq, Driver.clear_seqOf]
  rw [← hbuf] at hscan
  have hok : y.Harmless (.ack z.message.ackSeq z.message.timeStamp ⟨0, 0⟩) := by
    refine ⟨fun _ heq => ClientEvent.noConfusion heq, fun _ _ heq => ClientEvent.noConfusion heq,
      fun n stamp now heq => ?_⟩
    rcases ClientEvent.ack.inj heq with ⟨rfl, -, -⟩
    refine ⟨?_, hstop⟩
    have hfill := hcur.filled_le
    unfold Waits
    rw [hseq, lastIn_eq y.filled z.frame (by omega) (by omega)]
    omega
  -- What the step does to the client, and that it is a steady step of the system.
  let c' : Client := { y.client with
    driver := { y.client.driver with
      cursors := { y.client.driver.cursors with lar := lar }
      sendbuf := y.client.driver.clear z.message.ackSeq
      rtt := calculateRtt ⟨0, 0⟩ z.message.timeStamp
      phase := .send }
    commands := y.client.commands ++ [canceltimer z.message.ackSeq] }
  have hstep : y.client.step top (.ack z.message.ackSeq z.message.timeStamp ⟨0, 0⟩)
      = some (c', none) := by
    simp only [Client.step, Client.acknowledge, Driver.acknowledge, hphase, hscan, if_true,
      Option.map_some]
    rfl
  rcases lively_ack hb top h z hz hfresh ⟨0, 0⟩ hok c' none hstep with
    ⟨-, a', hle, h', hrest⟩
  rcases List.mem_iff_getElem?.mp hz with ⟨i, hi⟩
  have hevent : y.clientEvent b (.ack i ⟨0, 0⟩)
      = some (.ack z.message.ackSeq z.message.timeStamp ⟨0, 0⟩) := by
    simp only [clientEvent, hi, if_pos hfresh]
  have hsystem : y.step b top (.ack i ⟨0, 0⟩) = some { y with client := c' } := by
    simp only [System.step, hevent, Option.bind_some, drive, hstep, Option.map_some]
    rfl
  have hsteady : y.Steady b (.ack i ⟨0, 0⟩) := by
    refine ⟨⟨fun ce hce => ?_, fun ce hce => ?_⟩, fun heq => SystemEvent.noConfusion heq,
      fun _ _ heq => SystemEvent.noConfusion heq⟩
    · rw [hevent, Option.some.injEq] at hce
      exact hce ▸ hok
    · rw [hevent, Option.some.injEq] at hce
      exact hce ▸ trivial
  refine ⟨c', _, a', Machine.reaches_step hsteady hsystem, rfl, rfl, ?_, h', hle, hrest hmany⟩
  rw [← hseq]
  exact hbuf

/-- When all blocks have been sent and have arrived, the next one is read. -/
theorem block_taken (hb : ∀ n, b n ≠ Block.zero) (top : Int) (h : Lively b y live a k arrived)
    (hphase : y.client.driver.phase = .ftpc) (hfilled : y.filled = k) :
    Machine.Reaches (System.step b top) (Steady b) y { y with
        client := { y.client with driver := y.client.driver.refill (b y.filled) buffSize }
        filled := y.filled + 1 } ∧
      Lively b { y with
        client := { y.client with driver := y.client.driver.refill (b y.filled) buffSize }
        filled := y.filled + 1 } live a k arrived ∧
      ∀ i, i ≠ seqOf y.filled →
        (y.client.driver.refill (b y.filled) buffSize).sendbuf i = y.client.driver.sendbuf i := by
  have hcur := h.going.sender.cursors
  have hle := h.going.le_sent
  have hsf := hcur.sent_le_filled
  -- Slot `bufpos` is the one behind `lfs`, and the window is not the whole buffer.
  have hguard : y.client.driver.cursors.refillGuard := by
    rcases hcur with ⟨⟨hlar, hlfs, hcov, hbound⟩, hbuf, -, -⟩
    unfold Cursors.refillGuard
    omega
  have hstep : y.client.step top (.refill (b y.filled) buffSize)
      = some ({ y.client with driver := y.client.driver.refill (b y.filled) buffSize }, none) := by
    simp only [Client.step, Client.refill, hphase, hguard, and_true, le_refl, if_true,
      Option.map_some]
  have hsystem : y.step b top .block = some { y with
      client := { y.client with driver := y.client.driver.refill (b y.filled) buffSize }
      filled := y.filled + 1 } := by
    simp only [System.step, clientEvent, Option.bind_some, drive, hstep, Option.map_some]
    rfl
  have hsteady : y.Steady b .block := by
    refine ⟨timely_block b y, fun _ => ?_, fun _ _ heq => SystemEvent.noConfusion heq⟩
    have hlen := h.going.receiver.length_passed
    dsimp only at hlen
    omega
  refine ⟨Machine.reaches_step hsteady hsystem, (lively_block hb top h _ _ hstep).2, ?_⟩
  intro i hi
  dsimp only [Driver.refill]
  rw [hcur.bufpos_eq]
  exact Function.update_of_ne hi _ _

/-- When all frames have arrived but `lar` is behind, a frame is sent again, and the
    server answers the copy. The driver reads the next block, and the answer lets
    `lar` go on. -/
theorem read_behind (hb : ∀ n, b n ≠ Block.zero) {top : Int} (htop : 65 ≤ top)
    (h : Calm b y live a k arrived) (hall : y.filled = y.sent) (hk : y.sent = k) (hbehind : a < k)
    (hmany : 1 < k) :
    ∃ y' live' a' arrived', Machine.Reaches (System.step b top) (Steady b) y y' ∧
      y'.client.driver.phase = .send ∧ y'.filled = k + 1 ∧ y'.sent = k ∧ k < a' + 20 ∧
      Calm b y' live' a' k arrived' := by
  have hbound := h.going.sender.bound
  have hfar := seqOf_mem y.filled
  rcases h.toLively.exists_waited (hk ▸ hbehind) (hk ▸ hmany) with ⟨n, han, hn, hlive, hclear⟩
  rcases sent_again hb top h hall han hn hlive with
    ⟨y1, live1, hreach1, hphase, halone, ⟨x, hx, rfl⟩, h1⟩
  rcases copy_delivered hb top h1 hx han (hk ▸ hn) with
    ⟨y2, arrived2, hreach2, hclient, hfilled, hsent, ⟨z, hz, hframe⟩, h2⟩
  rw [halone.filled] at hfilled
  rw [halone.sent] at hsent
  rcases block_taken hb top h2.toLively (hclient ▸ hphase) (by omega) with
    ⟨hreach3, h3, hsame⟩
  rw [hfilled] at hsame
  -- The acknowledgement is read while the block waits.
  rcases ack_taken hb htop h3 rfl hz (hframe ▸ han) (by dsimp only; omega)
    (by
      dsimp only
      rw [hfilled, hsame 64 (by omega)]
      exact h2.above) (by dsimp only; omega) with
    ⟨c4, live4, a', hreach4, hphase4, htimer4, hbuf4, h4, hle, hrest⟩
  dsimp only at hbuf4 htimer4
  rw [hfilled] at hbuf4
  refine ⟨_, live4, a', arrived2, Machine.reaches_trans hreach1 (Machine.reaches_trans hreach2
    (Machine.reaches_trans hreach3 hreach4)), hphase4, ?_, ?_, ?_, h2.move h4 ?_ ?_ rfl⟩
  · dsimp only
    omega
  · dsimp only
    omega
  · -- The slot behind `lar` is clear now, so `lar` does not stay.
    by_contra hnot
    have hsame' : a' = a := by omega
    refine hrest (by dsimp only; omega) ?_
    rw [hbuf4, hsame', hframe]
    by_cases hslot : seqOf a = seqOf x.frame
    · rw [hslot, Function.update_self]
    · rw [Function.update_of_ne hslot] at hclear ⊢
      rw [hsame _ (by unfold seqOf; omega), hclient, halone.sendbuf]
      exact hclear
  · dsimp only
    rw [htimer4]
    exact h2.timeout
  · dsimp only
    have hz64 := seqOf_mem z.frame
    rw [hbuf4, Function.update_of_ne (by omega), hsame 64 (by omega)]

/-- When nothing is outstanding, or the first frame at most, the driver reads the
    next block without an answer. -/
theorem read_unanswered (hb : ∀ n, b n ≠ Block.zero) (top : Int) (h : Calm b y live a k arrived)
    (hall : y.filled = y.sent) (hk : y.sent = k) (hfew : k ≤ a ∨ k ≤ 1) :
    ∃ y' live' a' arrived', Machine.Reaches (System.step b top) (Steady b) y y' ∧
      y'.client.driver.phase = .send ∧ y'.filled = k + 1 ∧ y'.sent = k ∧ k < a' + 20 ∧
      Calm b y' live' a' k arrived' := by
  rcases Tracked.to_ftpc top ⟨y.client, live⟩ with ⟨t, hreach, hphase, htimer⟩
  rcases lift hb h.toLively hall hreach with ⟨y1, live1, hreach1, hclient, halone, h1⟩
  rw [← hclient] at hphase htimer
  have hfilled := halone.filled
  have hsent := halone.sent
  rcases block_taken hb top h1 hphase (by omega) with ⟨hreach2, h2, hsame⟩
  have hstep : ({ y1.client with
      driver := y1.client.driver.refill (b y1.filled) buffSize } : Client).step top .noAck
      = some ({ y1.client with
        driver := { y1.client.driver.refill (b y1.filled) buffSize with phase := .send } },
        none) := rfl
  have hquiet : Tracked.Quiet ⟨{ y1.client with
      driver := y1.client.driver.refill (b y1.filled) buffSize }, live1⟩ .noAck := trivial
  rcases own_taken hb h2 hquiet (harmless_of_plain _ _ rfl) hstep with ⟨y3, hreach3, rfl, h3⟩
  have hcov := h.going.covered_le
  have hfar1 := seqOf_mem y1.filled
  refine ⟨_, _, a, arrived, Machine.reaches_trans hreach1 (Machine.reaches_trans hreach2 hreach3),
    rfl, ?_, ?_, by omega, h.move h3 ?_ ?_ halone.server⟩
  · dsimp only
    omega
  · dsimp only [sentAfter]
    omega
  · dsimp only
    rw [htimer]
    exact h.timeout
  · dsimp only
    rw [hsame 64 (by omega), halone.sendbuf]

/-- When all frames have arrived, the driver comes to read the next block, and then
    to its send step, with the window not full. -/
theorem read_next (hb : ∀ n, b n ≠ Block.zero) {top : Int} (htop : 65 ≤ top)
    (h : Calm b y live a k arrived) (hall : y.filled = y.sent) (hk : y.sent = k) :
    ∃ y' live' a' arrived', Machine.Reaches (System.step b top) (Steady b) y y' ∧
      y'.client.driver.phase = .send ∧ y'.filled = k + 1 ∧ y'.sent = k ∧ k < a' + 20 ∧
      Calm b y' live' a' k arrived' := by
  by_cases hmany : a < k ∧ 1 < k
  · exact read_behind hb htop h hall hk hmany.1 hmany.2
  · exact read_unanswered hb top h hall hk (by omega)

/-- When all frames have arrived, the next block is read and sent. -/
theorem send_next (hb : ∀ n, b n ≠ Block.zero) {top : Int} (htop : 65 ≤ top)
    (h : Calm b y live a k arrived) (hall : y.filled = y.sent) (hk : y.sent = k) :
    ∃ y' live' a' arrived', Machine.Reaches (System.step b top) (Steady b) y y' ∧
      y'.filled = y'.sent ∧ k < y'.sent ∧ Calm b y' live' a' k arrived' := by
  rcases read_next hb htop h hall hk with
    ⟨y1, live1, a', arrived', hreach1, hphase, hfilled, hsent, hroom, h1⟩
  have hcur := h1.going.sender.cursors
  rw [hfilled, hsent] at hcur
  have hguard := hcur.guard hroom
  have hok : y1.Harmless (.send ⟨0, 0⟩) := by
    refine ⟨fun _ _ hguard hover => ?_, nofun, nofun⟩
    have := (hcur.guard_overdrawn_iff hguard).mp hover
    omega
  have hstep : ∃ c' p, y1.client.step top (.send ⟨0, 0⟩) = some (c', some p) ∧
      c'.timer = y1.client.timer := by
    simp only [Client.step, Client.send, hphase, hguard, if_true]
    exact ⟨_, _, rfl, rfl⟩
  rcases hstep with ⟨c', p, hstep, htimer⟩
  have hquiet : Tracked.Quiet ⟨y1.client, live1⟩ (.send ⟨0, 0⟩) := trivial
  rcases own_taken hb h1.toLively hquiet hok hstep with ⟨y2, hreach2, rfl, h2⟩
  refine ⟨_, _, a', arrived', Machine.reaches_trans hreach1 hreach2, ?_, ?_, h1.move h2 ?_ ?_ rfl⟩
  · dsimp only [sentAfter]
    omega
  · dsimp only [sentAfter]
    omega
  · dsimp only
    rw [htimer]
    exact h1.timeout
  · dsimp only
    rw [sendbuf_of_quiet hquiet hstep]

/-- One more block is passed on. -/
theorem one_more (hb : ∀ n, b n ≠ Block.zero) {top : Int} (htop : 65 ≤ top)
    (h : Calm b y live a k arrived) (hall : y.filled = y.sent) :
    ∃ y' live' a' k' arrived', Machine.Reaches (System.step b top) (Steady b) y y' ∧ k < k' ∧
      y'.filled = y'.sent ∧ Calm b y' live' a' k' arrived' := by
  rcases Nat.lt_or_ge k y.sent with hlt | hge
  · rcases pass_next hb top h hall hlt with ⟨y1, live1, k1, arrived1, hreach, hk, hall1, h1⟩
    exact ⟨y1, live1, a, k1, arrived1, hreach, hk, hall1, h1⟩
  · have hle := h.going.le_sent
    rcases send_next hb htop h hall (by omega) with
      ⟨y1, live1, a1, arrived1, hreach1, hall1, hlt, h1⟩
    rcases pass_next hb top h1 hall1 hlt with ⟨y2, live2, k2, arrived2, hreach2, hk, hall2, h2⟩
    exact ⟨y2, live2, a1, k2, arrived2, Machine.reaches_trans hreach1 hreach2, hk, hall2, h2⟩

/-- Any number of blocks are passed on. -/
theorem many_more (hb : ∀ n, b n ≠ Block.zero) {top : Int} (htop : 65 ≤ top)
    (h : Calm b y live a k arrived) (hall : y.filled = y.sent) (n : Nat) :
    ∃ y' live' a' k' arrived', Machine.Reaches (System.step b top) (Steady b) y y' ∧ n ≤ k' ∧
      y'.filled = y'.sent ∧ Calm b y' live' a' k' arrived' := by
  induction n with
  | zero => exact ⟨y, live, a, k, arrived, Machine.reaches_refl y, Nat.zero_le k, hall, h⟩
  | succ n ih =>
      rcases ih with ⟨y1, live1, a1, k1, arrived1, hreach1, hle, hall1, h1⟩
      rcases one_more hb htop h1 hall1 with
        ⟨y2, live2, a2, k2, arrived2, hreach2, hlt, hall2, h2⟩
      exact ⟨y2, live2, a2, k2, arrived2, Machine.reaches_trans hreach1 hreach2, by omega, hall2,
        h2⟩

/-- Losing what is under way does not spoil the transfer. -/
theorem Lively.forgotten (h : Lively b y live a k arrived) :
    Lively b y.forgotten live a k arrived where
  going := ⟨h.going.receiver, h.going.sender, h.going.known, List.forall_mem_nil _,
    List.forall_mem_nil _, h.going.asks⟩
  ready := h.ready
  acked := h.acked
  behind := h.behind

end System

/-- From every state that a transfer comes to without having been spoilt, and even
    if everything is lost that is under way then, ftps can receive any number of
    blocks, each of them the right one, when all that has been read has been sent,
    `select` accepts the timeout of the timer process, and the server has not
    stalled and is not doomed to. -/
theorem transfer_goes_on (b : Nat → Block) (hb : ∀ n, b n ≠ Block.zero) (top : Int)
    (htop : 65 ≤ top) (sendbuf : Int → Block) (cell : Heap) (start : ClockReading)
    (es : List SystemEvent) (y : System)
    (hes : Machine.Meets (System.step b top) (System.Timely b)
      (System.init sendbuf cell start.toTimeval) es)
    (hrun : Machine.run (System.step b top) (System.init sendbuf cell start.toTimeval) es = some y)
    (hall : y.filled = y.sent) (htimeout : y.client.timer.TimeoutValid)
    (hlfr : y.server.lfr ≠ 63) (hdoom : ¬ y.server.Doomed)
    (habove : y.client.driver.sendbuf 64 ≠ Block.zero) (n : Nat) :
    ∃ y', Machine.Reaches (System.step b top) (System.Steady b) y.forgotten y' ∧
      n ≤ y'.passed.length ∧ y'.InPrefix b := by
  rcases System.lives_run hb top sendbuf cell start es y hes hrun with
    hstuck | ⟨live, a, k, arrived, h⟩
  · exact absurd hstuck.lfr_eq hlfr
  · have hcalm : System.Calm b y.forgotten live a k arrived :=
      { toLively := h.forgotten, timeout := htimeout, above := habove, flowing := hlfr,
        spared := hdoom }
    rcases System.many_more hb htop hcalm hall n with
      ⟨y', live', a', k', arrived', hreach, hle, -, h'⟩
    have hlen := h'.going.receiver.length_passed
    dsimp only at hlen
    exact ⟨y', hreach, hlen ▸ hle, h'.going.inPrefix⟩

/-- Two frames are sent and get lost, and a third block is still received. -/
theorem transfer_goes_on_lost :
    ∃ y y', Machine.run (System.step ones 65) System.fresh
        (iteration true none ++ iteration true none) = some y ∧
      y.passed = [] ∧ Machine.Reaches (System.step ones 65) (System.Steady ones) y.forgotten y' ∧
      3 ≤ y'.passed.length ∧ y'.InPrefix ones := by
  have hes : Machine.Meets (System.step ones 65) (System.Timely ones) System.fresh
      (iteration true none ++ iteration true none) := by
    have hplain : ∀ (y : System) (e : ClientEvent), System.plain e = true → e.Clocked →
        y.Timely ones (.client e) := fun y e he =>
      System.timely_client (System.harmless_of_plain y e he)
    refine Machine.meets_cons _ (hplain _ _ rfl trivial) rfl ?_
    refine Machine.meets_cons _ (System.timely_block _ _) rfl ?_
    refine Machine.meets_cons _ (hplain _ _ rfl trivial) rfl ?_
    -- The window does not cross slot 63.
    refine Machine.meets_cons _ (System.timely_client
      ⟨fun _ _ _ => by decide, nofun, nofun⟩ trivial) rfl ?_
    refine Machine.meets_cons _ (hplain _ _ rfl trivial) rfl ?_
    refine Machine.meets_cons _ (System.timely_block _ _) rfl ?_
    refine Machine.meets_cons _ (hplain _ _ rfl trivial) rfl ?_
    exact ⟨System.timely_client ⟨fun _ _ _ => by decide, nofun, nofun⟩ trivial, fun _ _ => trivial⟩
  have hrun : (Machine.run (System.step ones 65) System.fresh
      (iteration true none ++ iteration true none)).map
      (fun y => (y.passed, decide (y.filled = y.sent), y.client.timer.timeout1, y.server.lfr,
        (y.client.driver.sendbuf 64).isEmpty)) = some ([], true, none, -1, false) := by
    decide +kernel
  rcases Option.map_eq_some_iff.mp hrun with ⟨y, hy, hval⟩
  simp only [Prod.mk.injEq, decide_eq_true_eq] at hval
  rcases hval with ⟨hpassed, hall, htimeout, hlfr, habove⟩
  have htimer : y.client.timer.TimeoutValid := fun a ha =>
    absurd (htimeout ▸ ha) (Option.not_mem_none a)
  have hdoom : ¬ y.server.Doomed := fun hdoomed => by
    have := hdoomed.lfr_eq
    omega
  rcases transfer_goes_on ones (fun _ => Block.single_ne_zero 1 (by decide)) 65 (Int.le_refl 65)
    _ _ ⟨⟨0, 0⟩, by decide, by decide⟩ _ y hes hy hall htimer (by omega) hdoom
    ((Block.isEmpty_eq_false_iff _).mp habove) 3 with ⟨y', hreach, hlen, hprefix⟩
  exact ⟨y, y', hy, hpassed, hreach, hlen, hprefix⟩

end Cse5462
