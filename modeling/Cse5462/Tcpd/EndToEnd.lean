import Cse5462.Tcpd.System

/-!
# End-to-End Delivery

When ftps receives a prefix of what ftpc has handed over. Four kinds of step can
spoil a transfer. The client sends a frame that does not fit into the window of
the server, because the send guard miscounts a window that crosses slot 63. It
clears the slot of a block that has not been sent yet, for an acknowledgement
of the frame that had the slot before. It sends such a block before its turn,
for a resend request that comes too late. Or the scan for `lar` runs past the
frames that have been sent, because nothing stops it. `System.Harmless` rules
these out, and `prefix_delivery` says that then nothing is lost, duplicated,
reordered or altered, whatever the network and the timer process do.

The invariant follows a list of the frames that have arrived at the server, the
one that `Receiver.Assembled` speaks of. Everything that `lar` covers has
arrived; the slot of a frame that has not arrived holds its block, and so does
every packet about it; every acknowledgement is for a frame that has arrived. A
server whose `lfr` has come to stand at slot 63 passes nothing on any more, and
nothing else needs to be said about it.

## Main definitions

* `ScanStops`: The scan for `lar` is stopped in time.
* `System.Harmless`: The step does not spoil the transfer.
* `Sender`: The invariant of the driver.
* `System.Going`: The invariant of a transfer that goes on.
* `System.Stuck`: The server has stopped passing blocks on.

## Theorems

* `Sending.scanned`: A scan that is stopped in time passes over empty slots.
* `sender_step`: Every harmless step of the client keeps the invariant.
* `going_arrive`: So does every delivery, unless the server gets stuck.
* `prefix_delivery`: In runs of harmless steps ftps receives a prefix.
* `wrong_block_delivered`: A run after which it has not.
-/

namespace Cse5462

/-- The scan is stopped in time: its condition keeps it from starting, or a slot
    that is not empty lies between `lar` and the slot after `lfs`, or slot 64 if
    the window is wrapped. Slot `ack` is the one that is cleared before. -/
def ScanStops (sendbuf : Int → Block) (lar lfs ack : Int) : Prop :=
  (lfs = 0 ∧ lar ≤ 0) ∨
    ∃ i, lar < i ∧ i ≤ (if lfs ≥ lar then lfs + 1 else 64) ∧ i ≠ ack ∧ sendbuf i ≠ Block.zero

/-- A scan that is stopped in time moves `lar` over frames whose slots are
    empty, and no further than `lfs`. -/
theorem Cursors.Sending.scanned {c : Cursors} {a s : Nat} (h : c.Sending a s)
    (hbound : s ≤ a + 20) (top : Int) (sendbuf : Int → Block) (ack last : Int)
    (hstop : ScanStops sendbuf c.lar c.lfs ack)
    (hscan : larScan top (Function.update sendbuf ack Block.zero) c.lar c.lfs = some last) :
    ∃ a', a ≤ a' ∧ a' ≤ s ∧ Cursors.Sending { c with lar := last } a' s ∧
      ∀ n, a ≤ n → n < a' → Function.update sendbuf ack Block.zero (seqOf n) = Block.zero := by
  have hlar := h.lar_eq
  have hlfs := h.lfs_eq
  have hle := h.covered_le
  by_cases hzero : c.lfs = 0 ∧ c.lar ≤ 0
  · rw [hzero.1, larScan_zero top _ _ (by omega) hzero.2, Option.some.injEq] at hscan
    exact ⟨a, Nat.le_refl a, hle, hscan ▸ h, fun n hn hlt => by omega⟩
  · rcases hstop.resolve_left hzero with ⟨i, hi, hbehind, hia, hne⟩
    rw [← Function.update_of_ne hia Block.zero sendbuf] at hne
    -- The scan comes to rest at slot `j`, not behind the slot that stops it.
    rcases larScan_stopped top _ _ _ last i hzero hi hne hscan with
      ⟨j, hlo, hji, hclear, ⟨hj, hlast⟩ | ⟨hj, m, hm0, hm, hfront, hlast⟩⟩
    · have hj64 : j < 64 := by
        split at hbehind <;> omega
      refine ⟨a + (j - 1 - c.lar).toNat, by omega, ?_, ⟨?_, hlfs, ?_, ?_⟩, fun n hn hlt => ?_⟩
      · split at hbehind <;> omega
      · dsimp only
        omega
      · split at hbehind <;> omega
      · omega
      · refine hclear _ ?_ ?_
        all_goals
          unfold seqOf
          omega
    · -- The scan has gone round: the slots up to 63 are empty, and `m` more.
      refine ⟨a + (63 - c.lar + m).toNat, by omega, ?_, ⟨?_, hlfs, ?_, ?_⟩, fun n hn hlt => ?_⟩
      · split at hbehind <;> omega
      · dsimp only
        split at hbehind <;> split at hlast <;> omega
      · split at hbehind <;> omega
      · omega
      · by_cases hn' : seqOf n < m
        · exact hfront _ (by unfold seqOf; omega) hn'
        · refine hclear _ ?_ ?_
          all_goals
            unfold seqOf at hn' ⊢
            omega

namespace System

/-- The block that was last read into slot `i` has not been sent yet. -/
def Waits (y : System) (i : Int) : Prop := y.sent ≤ lastIn y.filled i

instance (y : System) (i : Int) : Decidable (y.Waits i) := by
  unfold Waits
  exact inferInstance

/-- The step of the client does not spoil the transfer: nothing is sent out of a
    full window that crosses slot 63, nothing is sent again or acknowledged out
    of the slot of a block that has not been sent, and the scan for `lar` is
    stopped in time. -/
structure Harmless (y : System) (e : ClientEvent) : Prop where
  send : ∀ now, e = .send now → y.client.driver.cursors.sendGuard →
    ¬ y.client.driver.cursors.Overdrawn
  resend : ∀ now id, e = .resend now → y.client.driver.phase = .resending id → ¬ y.Waits id
  ack : ∀ n stamp now, e = .ack n stamp now → ¬ y.Waits n ∧
    ScanStops y.client.driver.sendbuf y.client.driver.cursors.lar y.client.driver.cursors.lfs n

/-- The step of the transfer, if it is one of the client, is harmless. -/
def Careful (b : Nat → Block) (y : System) (e : SystemEvent) : Prop :=
  ∀ ce, y.clientEvent b e = some ce → y.Harmless ce

/-- The steps of the client that cannot spoil the transfer. -/
def plain : ClientEvent → Bool
  | .send _ => false
  | .resend _ => false
  | .ack _ _ _ => false
  | _ => true

theorem harmless_of_plain (y : System) (e : ClientEvent) (h : plain e = true) : y.Harmless e := by
  cases e with
  | send now => cases h
  | resend now => cases h
  | ack n stamp now => cases h
  | _ => exact ⟨nofun, nofun, nofun⟩

/-- Delivering a packet or a block is harmless, and a step that the client takes
    for itself is so if it is for the client. -/
theorem careful_packet (b : Nat → Block) (y : System) (i : Nat) : y.Careful b (.packet i) :=
  fun _ hce => by cases hce

theorem careful_block (b : Nat → Block) (y : System) : y.Careful b .block := by
  intro ce hce
  cases hce
  exact harmless_of_plain y _ rfl

theorem careful_client (b : Nat → Block) (y : System) (e : ClientEvent) (h : y.Harmless e) :
    y.Careful b (.client e) := by
  intro ce hce
  simp only [clientEvent, Option.ite_none_right_eq_some, Option.some.injEq] at hce
  exact hce.2 ▸ h

theorem careful_plain (b : Nat → Block) (y : System) (e : ClientEvent) (h : plain e = true) :
    y.Careful b (.client e) := careful_client b y e (harmless_of_plain y e h)

end System

/-- The driver has not come to its acknowledgement step yet. -/
def Phase.early : Phase → Bool
  | .select => true
  | .resending _ => true
  | .ftpc => true
  | .ack => false
  | .send => false

/-- The invariant of the driver, when `a` frames are covered by `lar`: they have
    arrived, and the slot of any other frame holds its block, unless the frame
    has arrived. -/
structure Sender (b : Nat → Block) (arrived : List Nat) (d : Driver) (filled sent a : Nat) :
    Prop where
  cursors : d.cursors.Filled a sent filled
  bound : sent ≤ a + 20
  covered : ∀ n, n < a → n ∈ arrived
  slot : ∀ n, a ≤ n → n < filled → d.sendbuf (seqOf n) = b n ∨ n ∈ arrived
  idle : d.phase.early = true → sent = a → filled = sent
  few : d.phase.early = false → filled ≤ sent + 63

/-- A packet says what frame it is about, that frame has been sent, and the
    packet carries its block unless it has arrived. -/
structure Carries (b : Nat → Block) (arrived : List Nat) (sent n : Nat) (p : Packet) : Prop where
  seq_eq : p.seq = seqOf n
  frame_lt : n < sent
  body_eq : p.body = b n ∨ n ∈ arrived

section Sender

variable {b : Nat → Block} {arrived : List Nat} {d : Driver} {filled sent a : Nat}

/-- What is in the slot of a frame that has been read from ftpc. -/
theorem Sender.contents (h : Sender b arrived d filled sent a) (n : Nat) (hn : n < filled) :
    d.sendbuf (seqOf n) = b n ∨ n ∈ arrived := by
  rcases Nat.lt_or_ge n a with hlt | hge
  · exact Or.inr (h.covered n hlt)
  · exact h.slot n hge hn

/-- Between two steps of the driver that change none of the cursors. -/
theorem Sender.move (h : Sender b arrived d filled sent a) (d' : Driver)
    (hcur : d'.cursors = d.cursors) (hbuf : ∀ n, d'.sendbuf (seqOf n) = d.sendbuf (seqOf n))
    (hidle : d'.phase.early = true → sent = a → filled = sent)
    (hfew : d'.phase.early = false → filled ≤ sent + 63) :
    Sender b arrived d' filled sent a where
  cursors := hcur ▸ h.cursors
  bound := h.bound
  covered := h.covered
  slot := by
    intro n hn hn'
    rw [hbuf]
    exact h.slot n hn hn'
  idle := hidle
  few := hfew

/-- The bound on what waits to be sent, when the driver comes to its
    acknowledgement step. -/
theorem Sender.few_of_idle (h : Sender b arrived d filled sent a)
    (hearly : d.phase.early = true) : filled ≤ sent + 63 := by
  -- At most 64 blocks are not covered, and none waits alone.
  have hfill := h.cursors.filled_le
  have hcov := h.cursors.covered_le
  have hidle := h.idle hearly
  omega

/-- The next block is read into its slot. -/
theorem Sender.refill (h : Sender b arrived d filled sent a) (hearly : d.phase.early = true)
    (hguard : d.cursors.refillGuard) :
    Sender b arrived (d.refill (b filled) buffSize) (filled + 1) sent a := by
  have hidle := h.idle hearly
  have hcov := h.cursors.covered_le
  have hroom := h.cursors.room hidle hguard
  have hpos : d.cursors.bufpos = seqOf filled := h.cursors.bufpos_eq
  refine ⟨h.cursors.refill hroom, h.bound, h.covered, fun n hn hn' => ?_, fun he => ?_, fun _ => ?_⟩
  · dsimp only [Driver.refill]
    rw [hpos, Block.copy_full]
    by_cases heq : n = filled
    · rw [heq, Function.update_self]
      exact Or.inl rfl
    · -- The slots of the frames not covered are all different.
      have hne : seqOf n ≠ seqOf filled := by
        unfold seqOf
        omega
      rw [Function.update_of_ne hne]
      exact h.slot n hn (by omega)
  · cases he
  · omega

/-- An acknowledgement of a frame that has arrived clears the slot of that
    frame, and `lar` moves over frames that have arrived. -/
theorem Sender.acknowledge (h : Sender b arrived d filled sent a) (hb : ∀ n, b n ≠ Block.zero)
    (hfew : filled ≤ sent + 63) (m : Nat) (hm : m ∈ arrived) (hsent : m < sent)
    (hfresh : sent ≤ m + 44)
    (hwaits : lastIn filled (seqOf m) < sent) (top lar : Int)
    (hstop : ScanStops d.sendbuf d.cursors.lar d.cursors.lfs (seqOf m))
    (hscan : larScan top (d.clear (seqOf m)) d.cursors.lar d.cursors.lfs = some lar)
    (d' : Driver) (hcur : d'.cursors = { d.cursors with lar := lar })
    (hbuf : d'.sendbuf = d.clear (seqOf m)) (hphase : d'.phase = .send) :
    ∃ a', Sender b arrived d' filled sent a' := by
  have hfill := h.cursors.filled_le
  have hsf := h.cursors.sent_le_filled
  rw [Driver.clear_seqOf] at hscan hbuf
  -- The slot still belongs to the frame that is acknowledged.
  rcases lastIn_spec filled m (by omega) with ⟨hlo, _, _, hseq⟩
  have hsame : lastIn filled (seqOf m) = m :=
    Server.seqOf_inj m _ m hlo (by omega) (Nat.le_refl m) (by omega) hseq
  have hslot : ∀ n, a ≤ n → n < filled →
      Function.update d.sendbuf (seqOf m) Block.zero (seqOf n) = b n ∨ n ∈ arrived :=
    fun n hn hn' => by
      by_cases heq : seqOf n = seqOf m
      · have hnm : n = m := by
          rw [← hsame, ← heq]
          exact (lastIn_eq filled n hn' (by omega)).symm
        exact Or.inr (hnm ▸ hm)
      · rw [Function.update_of_ne heq]
        exact h.slot n hn hn'
  -- The scan passes over empty slots only.
  rcases h.cursors.toSending.scanned h.bound top d.sendbuf (seqOf m) lar hstop hscan with
    ⟨a', hle, hle', hsend, hempty⟩
  refine ⟨a', ⟨?_, ?_, fun n hn => ?_, fun n hn hn' => ?_, fun he => ?_, fun _ => hfew⟩⟩
  · rw [hcur]
    exact ⟨hsend, h.cursors.bufpos_eq, hsf, by omega⟩
  · have := h.bound
    omega
  · rcases Nat.lt_or_ge n a with hlt | hge
    · exact h.covered n hlt
    · -- Its slot is empty, so it does not hold the block.
      have hzero := hempty n hge hn
      rcases hslot n hge (by omega) with hblock | harr
      · exact absurd (hblock.symm.trans hzero) (hb n)
      · exact harr
  · rw [hbuf]
    exact hslot n (by omega) hn'
  · rw [hphase] at he
    cases he

/-- The next frame is sent. -/
theorem Sender.send (h : Sender b arrived d filled sent a) (hguard : d.cursors.sendGuard)
    (hover : ¬ d.cursors.Overdrawn) (d' : Driver) (hcur : d'.cursors = d.cursors.sent)
    (hbuf : d'.sendbuf = d.sendbuf) (hphase : d'.phase = .select) :
    Sender b arrived d' filled (sent + 1) a := by
  have hle := h.cursors.guard_le hguard
  have hcov := h.cursors.covered_le
  -- The window is not full, so one more frame fits.
  have hnot : ¬ sent = a + 20 := fun heq =>
    hover ((h.cursors.guard_overdrawn_iff hguard).mpr heq)
  refine ⟨?_, by omega, h.covered, fun n hn hn' => ?_, fun _ => by omega, fun he => ?_⟩
  · rw [hcur]
    exact h.cursors.send hguard
  · rw [hbuf]
    exact h.slot n hn hn'
  · rw [hphase] at he
    cases he

/-- A packet out of the slot of a frame that has been sent. -/
theorem Sender.carries (h : Sender b arrived d filled sent a) (n : Nat) (hn : n < filled)
    (s : Nat) (hs : n < s) (now : Timeval) :
    Carries b arrived s n (d.packet (seqOf n) now) where
  seq_eq := rfl
  frame_lt := hs
  body_eq := h.contents n hn

end Sender

namespace System

variable {b : Nat → Block} {y : System} {a k : Nat} {arrived : List Nat}

/-- The invariant of a transfer that goes on: `arrived` are the frames that have
    reached the server, which has passed on the first `k` blocks. -/
structure Going (b : Nat → Block) (y : System) (a k : Nat) (arrived : List Nat) : Prop where
  receiver : Receiver.Assembled b ⟨y.server, y.passed, arrived⟩ k
  sender : Sender b arrived y.client.driver y.filled y.sent a
  known : ∀ n ∈ arrived, n < y.sent
  packets : ∀ x ∈ y.packets, Carries b arrived y.sent x.frame x.message
  acks : ∀ x ∈ y.acks, x.message.ackSeq = seqOf x.frame ∧ x.frame ∈ arrived
  asks : y.client.Asks fun i => ∃ n, n < y.sent ∧ i = seqOf n

/-- The server has passed on a prefix, and its delivery loop has no slot to look
    at any more. -/
structure Stuck (b : Nat → Block) (y : System) : Prop where
  lfr_eq : y.server.lfr = 63
  laf_lt : y.server.laf < 63
  inPrefix : y.InPrefix b

theorem going_init (b : Nat → Block) (sendbuf : Int → Block) (cell : Heap) (start : Timeval) :
    Going b (init sendbuf cell start) 0 0 [] where
  receiver := Receiver.assembled_init b
  sender :=
    { cursors := Cursors.filled_init
      bound := Nat.zero_le 20
      covered := fun n hn => absurd hn (Nat.not_lt_zero n)
      slot := fun n _ hn => absurd hn (Nat.not_lt_zero n)
      idle := fun _ _ => rfl
      few := fun _ => Nat.zero_le 63 }
  known := fun _ hn => absurd hn List.not_mem_nil
  packets := fun _ hx => absurd hx List.not_mem_nil
  acks := fun _ hx => absurd hx List.not_mem_nil
  asks := Client.asks_init _ sendbuf cell start

/-- Every harmless step of the client keeps the invariant of the driver, and the
    packet that it sends, if any, carries the block of its frame. -/
theorem sender_step (hb : ∀ n, b n ≠ Block.zero) (top : Int) (h : Going b y a k arrived)
    (e : ClientEvent) (hfed : Fed b y e) (hok : y.Harmless e) (c' : Client) (out : Option Packet)
    (hstep : y.client.step top e = some (c', out)) :
    ∃ a', Sender b arrived c'.driver (filledAfter y.filled e) (sentAfter y.sent e out) a' ∧
      ∀ p, out = some p →
        Carries b arrived (sentAfter y.sent e out) (lastIn y.filled p.seq) p := by
  have hs := h.sender
  cases Client.step_cases top y.client c' e out hstep with
  | nothingAsked hphase hreq =>
      have hearly : y.client.driver.phase.early = true := by rw [hphase]; rfl
      exact ⟨a, hs.move _ rfl (fun _ => rfl) (fun _ => hs.idle hearly) (fun he => by cases he),
        fun p hp => by cases hp⟩
  | asked id requests hphase hreq =>
      have hearly : y.client.driver.phase.early = true := by rw [hphase]; rfl
      exact ⟨a, hs.move _ rfl (fun _ => rfl) (fun _ => hs.idle hearly) (fun he => by cases he),
        fun p hp => by cases hp⟩
  | resent id now hphase =>
      have hearly : y.client.driver.phase.early = true := by rw [hphase]; rfl
      refine ⟨a, hs.move _ rfl (fun _ => rfl) (fun _ => hs.idle hearly) (fun he => by cases he),
        fun p hp => ?_⟩
      cases hp
      -- The request is for a number that has been sent, and so has the frame in its slot.
      rcases h.asks.answered id hphase with ⟨n, hn, rfl⟩
      have hsf := hs.cursors.sent_le_filled
      have hwaits : lastIn y.filled (seqOf n) < y.sent :=
        Nat.lt_of_not_le (hok.resend now _ rfl hphase)
      rcases lastIn_spec y.filled n (by omega) with ⟨_, hlt, _, hseq⟩
      have hcarry := hs.carries (lastIn y.filled (seqOf n)) hlt y.sent hwaits now
      rw [hseq] at hcarry
      exact hcarry
  | refilled body length hphase hguard hlen =>
      have hearly : y.client.driver.phase.early = true := by rw [hphase]; rfl
      cases hfed with
      | block => exact ⟨a, hs.refill hearly hguard, fun p hp => by cases hp⟩
      | own _ hown => cases hown
  | notRefilled hphase =>
      have hearly : y.client.driver.phase.early = true := by rw [hphase]; rfl
      exact ⟨a, hs.move _ rfl (fun _ => rfl) (fun he => by cases he)
        (fun _ => hs.few_of_idle hearly), fun p hp => by cases hp⟩
  | acked n stamp now lar hphase hscan =>
      have hlate : y.client.driver.phase.early = false := by rw [hphase]; rfl
      rcases hok.ack n stamp now rfl with ⟨hwaits, hstop⟩
      cases hfed with
      | ack x hmem hfresh =>
          rcases h.acks x hmem with ⟨hseq, harr⟩
          rw [hseq] at hwaits hstop hscan
          rcases hs.acknowledge hb (hs.few hlate) x.frame harr (h.known _ harr) hfresh
            (Nat.lt_of_not_le hwaits) top lar hstop hscan
            { y.client.driver with
              cursors := { y.client.driver.cursors with lar := lar }
              sendbuf := y.client.driver.clear x.message.ackSeq
              rtt := calculateRtt now x.message.timeStamp
              phase := .send } rfl (by rw [hseq]) rfl with ⟨a', ha'⟩
          exact ⟨a', ha', fun p hp => by cases hp⟩
      | own _ hown => cases hown
  | notAcked hphase =>
      have hlate : y.client.driver.phase.early = false := by rw [hphase]; rfl
      exact ⟨a, hs.move _ rfl (fun _ => rfl) (fun he => by cases he) (fun _ => hs.few hlate),
        fun p hp => by cases hp⟩
  | sent now hphase hguard =>
      -- The slot after `lfs` is that of the oldest block that waits.
      have hpend := hs.cursors.pending hguard
      have hfill := hs.cursors.filled_le
      have hcov := hs.cursors.covered_le
      refine ⟨a, hs.send hguard (hok.send now rfl hguard) _ rfl rfl rfl, ?_⟩
      intro p hp
      cases hp
      have hcarry := hs.carries y.sent hpend (y.sent + 1) (Nat.lt_succ_self _) now
      rw [← hs.cursors.next_eq] at hcarry
      have hlast := lastIn_eq y.filled y.sent hpend (by omega)
      rw [← hs.cursors.next_eq] at hlast
      dsimp only [Driver.packet]
      rw [hlast]
      exact hcarry
  | notSent now hphase hguard =>
      have hlate : y.client.driver.phase.early = false := by rw [hphase]; rfl
      exact ⟨a, hs.move _ rfl (fun _ => rfl)
        (fun _ hempty => hs.cursors.idle hempty (hs.few hlate) hguard) (fun he => by cases he),
        fun p hp => by cases hp⟩
  | commanded left now m commands p hcmd hp =>
      exact ⟨a, hs, fun p hp => by cases hp⟩
  | expired left now p ids hp => exact ⟨a, hs, fun p hp => by cases hp⟩
  | changed i x hi =>
      refine ⟨a, hs.move _ rfl (fun n => ?_) hs.idle hs.few, fun p hp => by cases hp⟩
      -- The slots are not outside of the buffer.
      have hne : seqOf n ≠ i := by
        rintro rfl
        refine hi ?_
        unfold seqOf sendRecvBufSize
        omega
      exact Function.update_of_ne hne _ _

theorem Going.le_sent (h : Going b y a k arrived) : k ≤ y.sent := by
  by_contra hlt
  -- Otherwise the next frame to be sent would have arrived.
  have := h.known y.sent (h.receiver.below y.sent (by omega))
  omega

theorem Going.covered_le (h : Going b y a k arrived) : a ≤ k := by
  by_contra hlt
  exact h.receiver.missing (h.sender.covered k (by omega))

theorem Going.inPrefix (h : Going b y a k arrived) : y.InPrefix b := by
  have hle := h.le_sent
  have hsf := h.sender.cursors.sent_le_filled
  exact ⟨k, by omega, h.receiver.passed_eq⟩

theorem Going.stuck (h : Going b y a k arrived) (hlfr : y.server.lfr = 63) : Stuck b y where
  lfr_eq := hlfr
  laf_lt := by
    have hlo := h.receiver.cursors.lfr_eq
    have hlaf := h.receiver.cursors.laf_eq
    dsimp only at hlo hlaf
    omega
  inPrefix := h.inPrefix

/-- Every harmless step of the client keeps the invariant. -/
theorem going_drive (hb : ∀ n, b n ≠ Block.zero) (top : Int) (h : Going b y a k arrived)
    (e : ClientEvent) (hfed : Fed b y e) (hok : y.Harmless e) (c' : Client) (out : Option Packet)
    (hstep : y.client.step top e = some (c', out)) :
    ∃ a', Going b { y with
      client := c'
      filled := filledAfter y.filled e
      sent := sentAfter y.sent e out
      packets := y.packetsAfter out } a' k arrived := by
  rcases sender_step hb top h e hfed hok c' out hstep with ⟨a', hsender, hcarry⟩
  have hsent : y.sent ≤ sentAfter y.sent e out := by
    unfold sentAfter
    split <;> omega
  refine ⟨a', h.receiver, hsender, fun n hn => ?_, fun x hx => ?_, h.acks, ?_⟩
  · have := h.known n hn
    dsimp only
    omega
  · -- A packet in the network is one that was there or the one just sent.
    have hold : ∀ x ∈ y.packets, Carries b arrived (sentAfter y.sent e out) x.frame x.message :=
      fun x hx => by
        rcases h.packets x hx with ⟨hseq, hlt, hbody⟩
        exact ⟨hseq, by omega, hbody⟩
    cases hout : out with
    | none =>
        rw [hout] at hx hold
        exact hold x hx
    | some p =>
        rw [hout] at hx hold hcarry
        rcases List.mem_cons.mp hx with rfl | hx
        · exact hcarry p rfl
        · exact hold x hx
  · refine Client.asks_step top e out (h.asks.mono fun i hi => ?_) hstep fun p hp => ?_
    · rcases hi with ⟨n, hn, rfl⟩
      exact ⟨n, by dsimp only; omega, rfl⟩
    · rcases hcarry p hp with ⟨hseq, hlt, _⟩
      exact ⟨_, hlt, hseq⟩

/-- A packet that is delivered in time keeps the invariant, unless the server
    gets stuck. -/
theorem going_arrive (hb : ∀ n, b n ≠ Block.zero) (h : Going b y a k arrived) (x : Copy Packet)
    (hx : x ∈ y.packets) (hfresh : y.sent ≤ x.frame + 44) (hlfr : y.server.lfr ≠ 63) (s' : Server)
    (out : List (List UInt8)) (ack : Ack)
    (hstep : y.server.step (fullSize x.message) = some (s', out, ack)) :
    ∃ k' arrived', Going b { y with
      server := s'
      acks := { frame := x.frame, message := ack } :: y.acks
      passed := y.passed ++ out } a k' arrived' := by
  rcases h.packets x hx with ⟨hseq, hlt, hbody⟩
  have hk := h.le_sent
  have ha := h.covered_le
  have hbound := h.sender.bound
  have hack : ack.ackSeq = seqOf x.frame := by
    rcases Option.map_eq_some_iff.mp hstep with ⟨r, _, hr⟩
    cases hr
    exact hseq
  by_cases harr : x.frame ∈ arrived
  · -- The server has the frame, whatever the packet carries.
    have hsame := Receiver.receive_again h.receiver hb x.frame harr (by omega) x.message hseq
    unfold Server.step at hstep
    dsimp only at hsame
    rw [hsame] at hstep
    cases hstep
    refine ⟨k, arrived, ?_, h.sender, h.known, h.packets, fun z hz => ?_, h.asks⟩
    · rw [List.append_nil]
      exact h.receiver
    · rcases List.mem_cons.mp hz with rfl | hz
      · exact ⟨hack, harr⟩
      · exact h.acks z hz
  · -- The packet is the one that carries the block of its frame.
    have hpacket : x.message = Arrival.packet b ⟨x.frame, x.message.timeStamp⟩ := by
      have hblock := hbody.resolve_right harr
      cases hm : x.message with
      | mk seq timeStamp body =>
          rw [hm] at hseq hblock
          cases hseq
          cases hblock
          rfl
    have hlen := h.receiver.length_passed
    rcases Receiver.receiver_step (a := ⟨x.frame, x.message.timeStamp⟩) h.receiver hb
      ⟨by rw [hlen]; dsimp only; omega, by rw [hlen]; dsimp only; omega⟩ (fun hc => hlfr hc.1) with
      ⟨r', j, hr', hassembled⟩
    rw [hpacket] at hstep
    unfold Receiver.step at hr'
    split at hr'
    · dsimp only at hr'
      rw [hstep] at hr'
      cases hr'
      refine ⟨j, x.frame :: arrived, hassembled, ?_, fun n hn => ?_, fun z hz => ?_,
        fun z hz => ?_, h.asks⟩
      · rcases h.sender with ⟨hcur, hbnd, hcov, hslot, hidle, hfew⟩
        exact ⟨hcur, hbnd, fun n hn => List.mem_cons_of_mem _ (hcov n hn),
          fun n hn hn' => (hslot n hn hn').imp_right (List.mem_cons_of_mem _), hidle, hfew⟩
      · rcases List.mem_cons.mp hn with rfl | hn
        · exact hlt
        · exact h.known n hn
      · rcases h.packets z hz with ⟨hseq', hlt', hbody'⟩
        exact ⟨hseq', hlt', hbody'.imp_right (List.mem_cons_of_mem _)⟩
      · rcases List.mem_cons.mp hz with rfl | hz
        · exact ⟨hack, List.mem_cons_self⟩
        · exact ⟨(h.acks z hz).1, List.mem_cons_of_mem _ (h.acks z hz).2⟩
    · cases hr'

/-- The transfer goes on, or the server is stuck. -/
def Sound (b : Nat → Block) (y : System) : Prop :=
  Stuck b y ∨ ∃ a k arrived, Going b y a k arrived

theorem Sound.inPrefix (h : Sound b y) : y.InPrefix b := by
  rcases h with hstuck | ⟨a, k, arrived, hgoing⟩
  · exact hstuck.inPrefix
  · exact hgoing.inPrefix

/-- A stuck server stays stuck. -/
theorem stuck_step (top : Int) (e : SystemEvent) (y' : System) (h : Stuck b y)
    (hstep : y.step b top e = some y') : Stuck b y' := by
  rcases h with ⟨hlfr, hlaf, k, hk, hpassed⟩
  rcases step_cases b top y y' e hstep with
    ⟨x, _, _, s', out, ack, hs, rfl⟩ | ⟨ce, c', out, _, _, rfl⟩
  · rcases Option.map_eq_some_iff.mp hs with ⟨⟨s1, out1⟩, hrec, hr⟩
    cases hr
    rcases Server.receive_of_stuck _ _ _ _ hlfr hlaf hrec with ⟨hlfr', hlaf', rfl⟩
    exact ⟨hlfr', hlaf', k, hk, by rw [List.append_nil]; exact hpassed⟩
  · refine ⟨hlfr, hlaf, k, ?_, hpassed⟩
    dsimp only
    unfold filledAfter
    split <;> omega

/-- Every harmless step of the transfer keeps the invariant. -/
theorem sound_step (hb : ∀ n, b n ≠ Block.zero) (top : Int) (y : System) (e : SystemEvent)
    (y' : System) (h : Sound b y) (hok : y.Careful b e) (hstep : y.step b top e = some y') :
    Sound b y' := by
  rcases h with hstuck | ⟨a, k, arrived, hgoing⟩
  · exact Or.inl (stuck_step top e y' hstuck hstep)
  · by_cases hlfr : y.server.lfr = 63
    · exact Or.inl (stuck_step top e y' (hgoing.stuck hlfr) hstep)
    · rcases step_cases b top y y' e hstep with
        ⟨x, hx, hfresh, s', out, ack, hs, rfl⟩ | ⟨ce, c', out, hce, hc, rfl⟩
      · rcases going_arrive hb hgoing x hx hfresh hlfr s' out ack hs with ⟨k', arrived', h'⟩
        exact Or.inr ⟨a, k', arrived', h'⟩
      · rcases going_drive hb top hgoing ce (clientEvent_fed b y e ce hce) (hok ce hce) c' out hc
          with ⟨a', h'⟩
        exact Or.inr ⟨a', k, arrived, h'⟩

end System

/-- In every run of harmless steps what ftps has received is a prefix of the
    blocks that ftpc has handed over. -/
theorem prefix_delivery (b : Nat → Block) (hb : ∀ n, b n ≠ Block.zero) (top : Int)
    (sendbuf : Int → Block) (cell : Heap) (start : Timeval) (es : List SystemEvent)
    (h : Machine.Meets (System.step b top) (System.Careful b) (System.init sendbuf cell start) es)
    (y : System)
    (hrun : Machine.run (System.step b top) (System.init sendbuf cell start) es = some y) :
    y.InPrefix b :=
  (Machine.run_induction (System.sound_step hb top) es _ y
    (Or.inr ⟨0, 0, [], System.going_init b sendbuf cell start⟩) h hrun).inPrefix

/-- Both ends before a transfer, with something in every slot of the send
    buffer. -/
def System.fresh : System :=
  System.init (fun _ => Block.single 1) (fun _ => ⟨0, ⟨0, 0⟩, none, none⟩) ⟨0, 0⟩

/-- An iteration of the driver that reads a block or not, reads the
    acknowledgement `ack` or none, and sends. -/
def iteration (block : Bool) (ack : Option Nat) : List SystemEvent :=
  [.client .select, if block then .block else .client .noRefill,
    match ack with
    | some i => .ack i ⟨0, 0⟩
    | none => .client .noAck,
    .client (.send ⟨0, 0⟩)]

/-- Two blocks are sent, and then both of them are delivered. -/
theorem prefix_delivery_two :
    ∃ y, Machine.run (System.step ones 65) System.fresh
        (iteration true none ++ iteration true none ++ [.packet 1, .packet 0]) = some y ∧
      y.InPrefix ones ∧ y.passed.length = 2 := by
  have hrun : (Machine.run (System.step ones 65) System.fresh
      (iteration true none ++ iteration true none ++ [.packet 1, .packet 0])).map
      (fun y => y.passed.length) = some 2 := by
    decide +kernel
  rcases Option.map_eq_some_iff.mp hrun with ⟨y, hy, hlen⟩
  refine ⟨y, hy, prefix_delivery ones (fun _ => Block.single_ne_zero 1 (by decide)) 65 _ _ _ _ ?_
    y hy, hlen⟩
  refine Machine.meets_cons _ (System.careful_plain _ _ _ rfl) rfl ?_
  refine Machine.meets_cons _ (System.careful_block _ _) rfl ?_
  refine Machine.meets_cons _ (System.careful_plain _ _ _ rfl) rfl ?_
  -- The window does not cross slot 63.
  refine Machine.meets_cons _ (System.careful_client _ _ _
    ⟨fun _ _ _ => by decide, nofun, nofun⟩) rfl ?_
  refine Machine.meets_cons _ (System.careful_plain _ _ _ rfl) rfl ?_
  refine Machine.meets_cons _ (System.careful_block _ _) rfl ?_
  refine Machine.meets_cons _ (System.careful_plain _ _ _ rfl) rfl ?_
  refine Machine.meets_cons _ (System.careful_client _ _ _
    ⟨fun _ _ _ => by decide, nofun, nofun⟩) rfl ?_
  exact ⟨System.careful_packet _ _ _, fun _ _ => ⟨System.careful_packet _ _ _, fun _ _ => trivial⟩⟩

/-- A transfer of which all blocks but one are equal. -/
def transfer : Nat → Block := fun n => Block.single (if n = 128 then 2 else 1)

/-- The next `n` blocks are sent, while the oldest `n` of 20 outstanding
    acknowledgements are read. -/
def sendFrames (n : Nat) : List SystemEvent :=
  (List.range n).flatMap fun j => iteration true (some (19 - j))

/-- The last `n` packets are delivered, in order. -/
def deliverFrames (n : Nat) : List SystemEvent := (List.range n).map fun j => .packet (n - 1 - j)

/-- The frames up to 43 are sent, delivered and acknowledged, and then frames 44
    to 64 are sent, one more than the window has. Frame 64 is delivered first,
    discarded and acknowledged. The transfer goes on up to frame 128, which is
    delivered in its place. -/
def overdrawnEvents : List SystemEvent :=
  (List.range 20).flatMap (fun _ => iteration true none) ++ deliverFrames 20 ++
    sendFrames 20 ++ deliverFrames 20 ++ sendFrames 4 ++ deliverFrames 4 ++ sendFrames 20 ++
    iteration true none ++ .packet 0 :: (List.range 20).map (fun j => .packet (20 - j)) ++
    iteration false (some 20) ++ sendFrames 20 ++ deliverFrames 20 ++
    sendFrames 20 ++ deliverFrames 20 ++ sendFrames 20 ++ deliverFrames 20 ++
    sendFrames 4 ++ [.packet 0]

/-- Block 128 has been passed to ftps in the place of block 64. -/
theorem wrong_block_delivered :
    (∀ n, transfer n ≠ Block.zero) ∧
      ∃ y, Machine.run (System.step transfer 65) System.fresh overdrawnEvents = some y ∧
        ¬ y.InPrefix transfer := by
  refine ⟨fun n => Block.single_ne_zero _ (by split <;> decide), ?_⟩
  have hrun : (Machine.run (System.step transfer 65) System.fresh overdrawnEvents).map
      (fun y => (y.passed[64]?).bind List.head?) = some (some 2) := by
    decide +kernel
  rcases Option.map_eq_some_iff.mp hrun with ⟨y, hy, hval⟩
  refine ⟨y, hy, ?_⟩
  rintro ⟨k, _, hk⟩
  rw [hk, List.getElem?_map] at hval
  by_cases h64 : 64 < k
  · rw [List.getElem?_range h64] at hval
    cases hval
  · rw [List.getElem?_eq_none (by rw [List.length_range]; omega)] at hval
    cases hval

end Cse5462
