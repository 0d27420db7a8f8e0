import Cse5462.Tcpd.Reassembly

/-!
# When the Server Stalls

The branch of the delivery for a window that does not cross slot 63 folds `lfr`
only when it is greater than 63, which it never is. When the last run of such a
window goes up to slot 63, `lfr` stays there, and the branch for the other shape
finds no slot behind it to look at, now or ever again.

This happens in one way. `lfr` stands at slot 43, so that the window is exactly
the last 20 slots, 19 of them are full, and a datagram fills the one that was
missing. From then on nothing is passed on, whatever arrives, and everything
that arrives is acknowledged.

Out of a network that does not reorder, no slot but the next one is ever full.
So the server does not stall, and it passes every block on when it arrives.

## Main definitions

* `Server.Fills`: The datagram fills the last empty slot of the last 20.
* `Server.Doomed`: Only the first of the last 20 slots is empty.
* `Serving`: The server with what it has passed on, under any datagrams.
* `Serving.Answered`: What a server that has stalled does with a datagram.
* `Receiver.InSequence`: The arrival is the next frame, or a copy.
* `Receiver.Settled`: No slot holds anything.

## Theorems

* `flush_lfr_iff`: When a delivery leaves `lfr` at slot 63.
* `receive_lfr_iff`: When a datagram does.
* `stall_iff`: The runs in which the server does not stall, and what follows if
  it does.
* `spared_next`: The next frame does not stall a server that is not doomed, and
  does not doom it.
* `in_sequence`: Without reordering every block is passed on at once.
-/

namespace Cse5462

/-- The loop runs to the end of its range exactly if no slot in it is empty. -/
theorem passLoop_end_iff (recvbuf : Int → Block) (length : Nat) (n : Nat) (i : Int) :
    (passLoop recvbuf length n i).1 = i + n ↔
      ∀ j, i ≤ j → j < i + n → recvbuf j ≠ Block.zero := by
  induction n generalizing i with
  | zero =>
      simp only [passLoop, Int.natCast_zero, Int.add_zero, true_iff]
      intro j hlo hhi
      omega
  | succ n ih =>
      rw [passLoop]
      by_cases hempty : (recvbuf i).isEmpty = true
      · rw [if_pos hempty]
        refine ⟨fun heq => ?_, fun hall => ?_⟩
        · dsimp only at heq
          omega
        · exact absurd ((Block.isEmpty_iff _).mp hempty) (hall i (Int.le_refl i) (by omega))
      · rw [if_neg hempty]
        dsimp only
        rw [show i + ((n + 1 : Nat) : Int) = i + 1 + n by omega, ih (i + 1)]
        constructor
        · intro hall j hlo hhi
          by_cases hj : j = i
          · rw [hj]
            exact mt (Block.isEmpty_iff _).mpr hempty
          · exact hall j (by omega) hhi
        · exact fun hall j hlo hhi => hall j (by omega) hhi

namespace Server

/-- The window is the last 20 slots, and the datagram brings a block that is not
    empty to the only one of them that is. -/
structure Fills (s : Server) (d : Datagram) : Prop where
  lfr_eq : s.lfr = 43
  seq_ge : 44 ≤ d.packet.seq
  seq_le : d.packet.seq ≤ 63
  long : headerSize ≤ d.length
  free : s.recvbuf d.packet.seq = Block.zero
  block : Block.zero.copy d.packet.body (d.length - headerSize).toNat ≠ Block.zero
  others : ∀ i, 44 ≤ i → i ≤ 63 → i ≠ d.packet.seq → s.recvbuf i ≠ Block.zero

variable {s : Server}

/-- A delivery leaves `lfr` at slot 63 exactly if the window is the last 20
    slots and all of them are full. -/
theorem flush_lfr_iff (h : s.Shaped) (hlfr : s.lfr ≠ 63) (length : Nat) :
    (s.flush length).1.lfr = 63 ↔
      s.lfr = 43 ∧ ∀ i, 44 ≤ i → i ≤ 63 → s.recvbuf i ≠ Block.zero := by
  have hcur := h.cursors
  have hsize : sendRecvBufSize = 64 := rfl
  rw [flush]
  by_cases hplain : s.laf > s.lfr
  · -- The run ends at `laf` at the latest, and `laf` is 63 only with `lfr` at 43.
    rw [if_pos hplain]
    have hle := passLoop_le s.recvbuf length (s.laf - s.lfr).toNat (s.lfr + 1)
    have hend := passLoop_end_iff s.recvbuf length (s.laf - s.lfr).toNat (s.lfr + 1)
    rw [show s.lfr + 1 + ((s.laf - s.lfr).toNat : Int) = s.laf + 1 by omega] at hend
    dsimp only
    generalize passLoop s.recvbuf length (s.laf - s.lfr).toNat (s.lfr + 1) = r at hle hend ⊢
    by_cases hmoved : r.1 ≠ s.lfr + 1
    · rw [if_pos hmoved]
      dsimp only
      rw [if_neg (show ¬ r.1 - 1 > 63 by omega)]
      constructor
      · intro heq
        have hlaf : s.laf = 63 := by omega
        refine ⟨by omega, fun i hlo hhi => ?_⟩
        exact hend.mp (by omega) i (by omega) (by omega)
      · rintro ⟨h43, hfull⟩
        have := hend.mpr fun j hlo hhi => hfull j (by omega) (by omega)
        omega
    · rw [if_neg hmoved]
      dsimp only
      refine ⟨fun heq => absurd heq hlfr, ?_⟩
      rintro ⟨h43, hfull⟩
      have := hend.mpr fun j hlo hhi => hfull j (by omega) (by omega)
      omega
  · -- The other branch ends before slot 63 or behind it, at the front.
    rw [if_neg hplain, if_pos (show s.laf < s.lfr by omega)]
    have hle := passLoop_le s.recvbuf length (sendRecvBufSize - (s.lfr + 1)).toNat (s.lfr + 1)
    dsimp only
    generalize passLoop s.recvbuf length (sendRecvBufSize - (s.lfr + 1)).toNat (s.lfr + 1) = r
      at hle ⊢
    have hle' := passLoop_le (bzeroSlots s.recvbuf (s.lfr + 1) r.1) length (s.laf + 1).toNat 0
    generalize passLoop (bzeroSlots s.recvbuf (s.lfr + 1) r.1) length (s.laf + 1).toNat 0 = q
      at hle' ⊢
    split
    · split
      · dsimp only
        omega
      · split
        · dsimp only
          omega
        · dsimp only
          omega
    · dsimp only
      omega

/-- A datagram leaves `lfr` at slot 63 exactly if it fills the last slot. -/
theorem receive_lfr_iff (h : s.Shaped) (hlfr : s.lfr ≠ 63) {d : Datagram} {s' : Server}
    {out : List (List UInt8)} (hrec : s.receive d = some (s', out)) :
    s'.lfr = 63 ↔ s.Fills d := by
  have hcur := h.cursors
  rcases receive_cases hrec with
    ⟨hunchanged, rfl, -⟩ | ⟨length, slot, hlen, hacc, hzero, hslot, hflush⟩
  · refine ⟨fun heq => absurd heq hlfr, fun hfills => ?_⟩
    rcases hunchanged with hacc | hfull
    · -- In that window the number would be accepted.
      refine absurd (Or.inl ?_) hacc
      have := hfills.lfr_eq
      have := hfills.seq_ge
      have := hfills.seq_le
      omega
    · exact absurd hfills.free hfull
  · have hiff := flush_lfr_iff (h.stored hacc slot) hlfr length
    rw [hflush] at hiff
    have hsub : ((d.length : Int) - headerSize).toNat = length := by omega
    rw [hzero] at hslot
    dsimp only at hiff
    rw [hiff]
    constructor
    · rintro ⟨h43, hfull⟩
      have hseq : 44 ≤ d.packet.seq ∧ d.packet.seq ≤ 63 := by
        unfold accepts at hacc
        omega
      refine ⟨h43, hseq.1, hseq.2, by omega, hzero, ?_, fun i hlo hhi hne => ?_⟩
      · have := hfull d.packet.seq hseq.1 hseq.2
        rwa [Function.update_self, hslot, ← hsub] at this
      · have := hfull i hlo hhi
        rwa [Function.update_of_ne hne] at this
    · intro hfills
      refine ⟨hfills.lfr_eq, fun i hlo hhi => ?_⟩
      by_cases hi : i = d.packet.seq
      · rw [hi, Function.update_self, hslot, ← hsub]
        exact hfills.block
      · rw [Function.update_of_ne hi]
        exact hfills.others i hlo hhi hi

/-- The window is the last 20 slots, and all of them but the first are full. The
    block that is missing next will stall the server. -/
structure Doomed (s : Server) : Prop where
  lfr_eq : s.lfr = 43
  full : ∀ i, 45 ≤ i → i ≤ 63 → s.recvbuf i ≠ Block.zero

theorem Shaped.laf_lt (h : s.Shaped) (hlfr : s.lfr = 63) : s.laf < 63 := by
  have := h.cursors
  omega

/-- The server survives a datagram that fills the last slot. -/
theorem Fills.survived {d : Datagram} (hf : s.Fills d) : ∃ r, s.receive d = some r := by
  rcases hf with ⟨-, hlo, hhi, hlong, hfree, -, -⟩
  unfold receive
  dsimp only
  by_cases hacc : s.accepts d.packet.seq
  · rw [if_pos hacc, if_neg (show ¬ (d.packet.seq < 0 ∨ sendRecvBufSize ≤ d.packet.seq) by
      unfold sendRecvBufSize
      omega), hfree, Block.isEmpty_zero, if_pos rfl, if_neg (Int.not_lt.mpr hlong)]
    exact ⟨_, rfl⟩
  · rw [if_neg hacc]
    exact ⟨_, rfl⟩

end Server

/-- The server and the datagrams it has passed to ftps. -/
structure Serving where
  server : Server
  passed : List (List UInt8)

namespace Serving

def init : Serving := { server := Server.init, passed := [] }

/-- The server takes a datagram that passed the checksum, whatever it holds. -/
def step (v : Serving) (d : Datagram) : Option Serving :=
  (v.server.step d).map fun o => { server := o.1, passed := v.passed ++ o.2.1 }

theorem shaped_step (v : Serving) (d : Datagram) (v' : Serving) (h : v.server.Shaped)
    (hstep : step v d = some v') : v'.server.Shaped := by
  rw [step, Server.step, Option.map_map, Option.map_eq_some_iff] at hstep
  rcases hstep with ⟨⟨s', out⟩, hrec, rfl⟩
  exact Server.shaped_receive v.server d h s' out hrec

theorem shaped_run (ds : List Datagram) (v : Serving)
    (hrun : Machine.run step init ds = some v) : v.server.Shaped :=
  Machine.run_invariant (P := fun v => v.server.Shaped) (fun v d v' h => shaped_step v d v' h) ds
    init v Server.shaped_init hrun

/-- The server has stalled, and what it survives is answered with its own number
    and time stamp and passed on to no one. -/
structure Answered (v : Serving) (passed : List (List UInt8)) : Prop where
  lfr_eq : v.server.lfr = 63
  passed_eq : v.passed = passed
  ack : ∀ d s' out a, v.server.step d = some (s', out, a) →
    out = [] ∧ a = ⟨d.packet.seq, d.packet.timeStamp⟩

theorem answered_of_lfr {v : Serving} (h : v.server.Shaped) (hlfr : v.server.lfr = 63) :
    v.Answered v.passed where
  lfr_eq := hlfr
  passed_eq := rfl
  ack := by
    intro d s' out a hstep
    rcases Option.map_eq_some_iff.mp hstep with ⟨⟨s1, out1⟩, hrec, heq⟩
    cases heq
    exact ⟨(Server.receive_of_stuck _ _ _ _ hlfr (h.laf_lt hlfr) hrec).2.2, rfl⟩

/-- A server that has stalled has stalled for good. -/
theorem lfr_step {v v' : Serving} (h : v.server.Shaped) (hlfr : v.server.lfr = 63) (d : Datagram)
    (hstep : step v d = some v') : v'.server.lfr = 63 ∧ v'.passed = v.passed := by
  rw [step, Server.step, Option.map_map, Option.map_eq_some_iff] at hstep
  rcases hstep with ⟨⟨s', out⟩, hrec, rfl⟩
  rcases Server.receive_of_stuck _ _ _ _ hlfr (h.laf_lt hlfr) hrec with ⟨hlfr', -, rfl⟩
  exact ⟨hlfr', List.append_nil _⟩

theorem answered_run {v v' : Serving} (h : v.server.Shaped) (hlfr : v.server.lfr = 63)
    (ds : List Datagram) (hrun : Machine.run step v ds = some v') : v'.Answered v.passed := by
  have hinv : v'.server.Shaped ∧ v'.server.lfr = 63 ∧ v'.passed = v.passed := by
    refine Machine.run_invariant (P := fun w =>
      w.server.Shaped ∧ w.server.lfr = 63 ∧ w.passed = v.passed) ?_ ds v v' ⟨h, hlfr, rfl⟩ hrun
    intro w d w' hw hs
    rcases lfr_step hw.1 hw.2.1 d hs with ⟨hlfr', hpassed⟩
    exact ⟨shaped_step w d w' hw.1 hs, hlfr', hpassed.trans hw.2.2⟩
  have hans := answered_of_lfr hinv.1 hinv.2.1
  rw [hinv.2.2] at hans
  exact hans

/-- What decides whether a step stalls the server. -/
theorem step_lfr_iff {v : Serving} (h : v.server.Shaped) (hlfr : v.server.lfr ≠ 63) (d : Datagram) :
    (∀ v', step v d = some v' → v'.server.lfr ≠ 63) ↔ ¬ v.server.Fills d := by
  constructor
  · intro hall hfills
    rcases hfills.survived with ⟨⟨s', out⟩, hrec⟩
    refine hall { server := s', passed := v.passed ++ out } ?_
      ((Server.receive_lfr_iff h hlfr hrec).mpr hfills)
    rw [step, Server.step, hrec]
    rfl
  · intro hnot v' hstep
    rw [step, Server.step, Option.map_map, Option.map_eq_some_iff] at hstep
    rcases hstep with ⟨⟨s', out⟩, hrec, rfl⟩
    exact mt (Server.receive_lfr_iff h hlfr hrec).mp hnot

end Serving

/-- Whatever datagrams the server receives, it does not stall exactly if none of
    them fills the last empty slot of the last 20. Once it has stalled, it
    passes nothing on any more and still acknowledges all that it receives. -/
theorem stall_iff (ds : List Datagram) :
    (Machine.Throughout Serving.step (fun v => v.server.lfr ≠ 63) Serving.init ds ↔
        Machine.Meets Serving.step (fun v d => ¬ v.server.Fills d) Serving.init ds) ∧
      ∀ v, Machine.run Serving.step Serving.init ds = some v → v.server.lfr = 63 →
        ∀ ds' v', Machine.run Serving.step v ds' = some v' → v'.Answered v.passed := by
  refine ⟨?_, fun v hrun hlfr ds' v' hrun' => ?_⟩
  · refine Machine.throughout_iff (P := fun v => v.server.Shaped)
      (fun v d v' h _ hstep => Serving.shaped_step v d v' h hstep)
      (fun v d h hlfr => Serving.step_lfr_iff h hlfr d) ds Serving.init Server.shaped_init ?_
    decide
  · exact Serving.answered_run (Serving.shaped_run ds v hrun) hlfr ds' hrun'

/-- Out of the first 65 frames, in an order in which frame 44 comes after the 19
    behind it, the server passes on 64 and stalls. -/
theorem stall_behind_44 :
    ∃ v, Machine.run Serving.step Serving.init
        (stallingArrivals.map fun a => fullSize (a.packet ones)) = some v ∧
      v.passed.length = 64 ∧ v.Answered v.passed := by
  have hrun : (Machine.run Serving.step Serving.init
      (stallingArrivals.map fun a => fullSize (a.packet ones))).map
      (fun v => (v.passed.length, v.server.lfr)) = some (64, 63) := by
    decide +kernel
  rcases Option.map_eq_some_iff.mp hrun with ⟨v, hv, hval⟩
  rw [Prod.mk.injEq] at hval
  exact ⟨v, hv, hval.1, (stall_iff _).2 v hv hval.2 [] v rfl⟩

namespace Receiver

section Spared

variable {b : Nat → Block} {r : Receiver} {a : Arrival} {k : Nat}

/-- The cursors and slots of a server in the middle of a transfer. -/
theorem Assembled.shaped (h : Assembled b r k) : r.server.Shaped := by
  rcases h.cursors with ⟨hlfr, hlaf⟩
  refine ⟨by omega, fun i h0 h64 hnot => ?_⟩
  -- Slot `i` belongs to one of the 64 frames from `k` on, and not to one of the first 20.
  have hseq : seqOf (k + ((i - k) % 64).toNat) = i := by
    unfold seqOf
    omega
  have hslot := h.slots (k + ((i - k) % 64).toNat) (by omega) (by omega)
  rw [hseq] at hslot
  rw [hslot]
  refine h.beyond _ ?_
  by_contra hlt
  refine hnot ?_
  rw [← hseq, Server.accepts_iff r.server k _ h.cursors (by omega) (by omega)]
  omega

/-- The next frame does not stall a server that is not doomed, and does not doom
    it. -/
theorem spared_next (h : Assembled b r k) (hb : ∀ n, b n ≠ Block.zero) (hadm : r.Admits a)
    (hnext : a.frame = k) (hlfr : r.server.lfr ≠ 63) (hdoom : ¬ r.server.Doomed) :
    ∃ r' j, step b r a = some r' ∧ Assembled b r' j ∧ k < j ∧ r'.server.lfr ≠ 63 ∧
      ¬ r'.server.Doomed := by
  have hnew : a.frame ∉ r.arrived := fun hmem => h.missing (hnext ▸ hmem)
  rcases step_new h hb hadm hnew hlfr with ⟨r', j, hr', hassembled⟩
  have hstep := hr'
  unfold step at hstep
  rw [if_pos hadm] at hstep
  rcases Option.map_eq_some_iff.mp hstep with ⟨⟨s', out, ack⟩, hserver, heq⟩
  rcases Option.map_eq_some_iff.mp hserver with ⟨⟨s1, out1⟩, hrec, heq'⟩
  cases heq'
  subst heq
  have hmiss := hassembled.missing
  rw [List.mem_cons, not_or] at hmiss
  have hj : k < j := by
    by_contra hle
    exact hmiss.2 (h.below j (by omega))
  refine ⟨_, j, hr', hassembled, hj, fun hstalled => ?_, fun hdoomed => ?_⟩
  · -- The frame that is missing next has the first of the 20 slots.
    have hfills := (Server.receive_lfr_iff h.shaped hlfr hrec).mp hstalled
    have h43 := hfills.lfr_eq
    have hseq : (fullSize (a.packet b)).packet.seq = 44 := by
      have hat := h.cursors.lfr_eq
      show seqOf a.frame = 44
      rw [hnext]
      unfold seqOf
      omega
    exact hdoom ⟨h43, fun i hlo hhi => hfills.others i (by omega) hhi (by omega)⟩
  · -- A frame so far ahead had no place in the window before.
    have h43 := hdoomed.lfr_eq
    have hat := hassembled.cursors.lfr_eq
    have hslot := hassembled.slots (j + 19) (by omega) (by omega)
    rw [show seqOf (j + 19) = 63 by unfold seqOf; omega] at hslot
    have hmem : j + 19 ∈ a.frame :: r.arrived := by
      by_contra hnot
      exact hdoomed.full 63 (by decide) (by decide) (hslot.trans (if_neg hnot))
    rcases List.mem_cons.mp hmem with heq | hmem
    · omega
    · have := h.within _ hmem
      omega

end Spared

/-- The arrival is the next frame or a copy of one of the last 44. -/
def InSequence (r : Receiver) (a : Arrival) : Prop :=
  a.frame ≤ r.passed.length ∧ r.passed.length ≤ a.frame + 44

instance (r : Receiver) (a : Arrival) : Decidable (r.InSequence a) := by
  unfold InSequence
  exact inferInstance

/-- What the receiver looks like without reordering: all that has arrived has
    been passed on, in order, and no slot holds anything. -/
structure Settled (b : Nat → Block) (r : Receiver) : Prop where
  passed_eq : r.passed = (List.range r.passed.length).map fun n => (b n).bytes
  arrived_iff : ∀ n, n ∈ r.arrived ↔ n < r.passed.length
  clear : ∀ i, 0 ≤ i → i < 64 → r.server.recvbuf i = Block.zero
  lfr_ne : r.server.lfr ≠ 63

variable {b : Nat → Block} {r : Receiver} {a : Arrival} {k : Nat}

/-- The invariant: nothing beyond the first `k` frames has arrived, and `lfr` is
    not at slot 63. -/
structure Sequential (b : Nat → Block) (r : Receiver) (k : Nat) : Prop where
  assembled : Assembled b r k
  shaped : r.server.Shaped
  lfr_ne : r.server.lfr ≠ 63
  none_beyond : ∀ n ∈ r.arrived, n < k

theorem Sequential.settled (h : Sequential b r k) : Settled b r := by
  have hlen := h.assembled.length_passed
  refine ⟨hlen ▸ h.assembled.passed_eq, fun n => ?_, fun i h0 h64 => ?_, h.lfr_ne⟩
  · rw [hlen]
    exact ⟨h.none_beyond n, h.assembled.below n⟩
  · -- Slot `i` belongs to one of the 64 frames from `k` on.
    have hslot := h.assembled.slots (k + ((i - k) % 64).toNat) (by omega) (by omega)
    rw [show seqOf (k + ((i - k) % 64).toNat) = i by unfold seqOf; omega] at hslot
    rw [hslot, stored, if_neg]
    intro hmem
    have := h.none_beyond _ hmem
    omega

/-- A copy of a frame changes nothing. -/
theorem sequential_again (h : Sequential b r k) (hb : ∀ n, b n ≠ Block.zero) (hadm : r.Admits a)
    (hmem : a.frame ∈ r.arrived) : ∃ r', step b r a = some r' ∧ Sequential b r' k := by
  have hlen := h.assembled.length_passed
  have hsame := receive_again h.assembled hb a.frame hmem (hlen ▸ hadm.1) (a.packet b) rfl
  rcases step_again h.assembled hb hadm hmem with ⟨r', hr', hassembled⟩
  have heq := (step_of_receive hadm _ _ hsame).symm.trans hr'
  cases heq
  refine ⟨_, hr', hassembled, h.shaped, h.lfr_ne, fun n hn => ?_⟩
  rcases List.mem_cons.mp hn with rfl | hn
  · exact h.none_beyond _ hmem
  · exact h.none_beyond n hn

/-- The next frame is passed on when it arrives. -/
theorem sequential_next (h : Sequential b r k) (hb : ∀ n, b n ≠ Block.zero) (hadm : r.Admits a)
    (hnext : a.frame = k) : ∃ r', step b r a = some r' ∧ Sequential b r' (k + 1) := by
  have hnew : a.frame ∉ r.arrived := fun hmem => h.assembled.missing (hnext ▸ hmem)
  rcases step_new h.assembled hb hadm hnew h.lfr_ne with ⟨r', j, hr', hassembled⟩
  have hstep := hr'
  unfold step at hstep
  rw [if_pos hadm] at hstep
  rcases Option.map_eq_some_iff.mp hstep with ⟨⟨s', out, ack⟩, hserver, heq⟩
  rcases Option.map_eq_some_iff.mp hserver with ⟨⟨s1, out1⟩, hrec, heq'⟩
  cases heq'
  subst heq
  -- The first frame that has not arrived is the one after it.
  have hj : j = k + 1 := by
    have hmiss := hassembled.missing
    rw [List.mem_cons, not_or] at hmiss
    rcases Nat.lt_trichotomy j (k + 1) with hlt | heq | hgt
    · refine absurd (h.assembled.below j ?_) hmiss.2
      omega
    · exact heq
    · rcases List.mem_cons.mp (hassembled.below (k + 1) hgt) with heq | hmem
      · omega
      · have := h.none_beyond _ hmem
        omega
  refine ⟨_, hr', hj ▸ hassembled, Server.shaped_receive _ _ h.shaped _ _ hrec, ?_, fun n hn => ?_⟩
  · -- The slot behind it is empty, so it does not fill the last one.
    intro hlfr
    have hfills := (Server.receive_lfr_iff h.shaped h.lfr_ne hrec).mp hlfr
    have hnone := h.settled.clear
    have hseq : seqOf k = 44 := by
      have h43 := hfills.lfr_eq
      have hfrom := h.assembled.cursors.next_eq h.lfr_ne
      omega
    refine hfills.others 45 (by decide) (by decide) ?_ (hnone 45 (by decide) (by decide))
    change (45 : Int) ≠ seqOf a.frame
    rw [hnext, hseq]
    decide
  · rcases List.mem_cons.mp hn with rfl | hn
    · omega
    · have := h.none_beyond n hn
      omega

theorem sequential_step (hb : ∀ n, b n ≠ Block.zero) (h : Sequential b r k)
    (ha : r.InSequence a) : ∃ r' j, step b r a = some r' ∧ Sequential b r' j := by
  have hlen := h.assembled.length_passed
  have hadm : r.Admits a := ⟨ha.2, by have := ha.1; omega⟩
  rcases Nat.lt_or_eq_of_le ha.1 with hlt | heq
  · rcases sequential_again h hb hadm (h.assembled.below _ (by omega)) with ⟨r', hr', h'⟩
    exact ⟨r', k, hr', h'⟩
  · rcases sequential_next h hb hadm (by omega) with ⟨r', hr', h'⟩
    exact ⟨r', k + 1, hr', h'⟩

/-- The frames that have arrived are those of the arrivals. -/
theorem arrived_run (b : Nat → Block) (as : List Arrival) (r r' : Receiver)
    (hrun : Machine.run (step b) r as = some r') :
    r'.arrived = (as.map Arrival.frame).reverse ++ r.arrived := by
  induction as generalizing r with
  | nil =>
      cases hrun
      rfl
  | cons a as ih =>
      simp only [Machine.run_cons, Option.bind_eq_some_iff] at hrun
      rcases hrun with ⟨t, ht, hrest⟩
      unfold step at ht
      split at ht
      · rcases Option.map_eq_some_iff.mp ht with ⟨o, -, rfl⟩
        rw [ih _ hrest, List.map_cons, List.reverse_cons, List.append_assoc]
        rfl
      · cases ht

theorem sequential_init (b : Nat → Block) : Sequential b init 0 where
  assembled := assembled_init b
  shaped := Server.shaped_init
  lfr_ne := by decide
  none_beyond := fun _ hn => absurd hn List.not_mem_nil

end Receiver

/-- In every run in which each arrival is the next frame or a copy, the server
    goes on: it passes every block on when it arrives, in order, holds nothing
    back, and the blocks that it has passed on reach up to the last frame that
    has arrived. -/
theorem in_sequence (b : Nat → Block) (hb : ∀ n, b n ≠ Block.zero) (as : List Arrival)
    (has : Machine.Meets (Receiver.step b) Receiver.InSequence Receiver.init as) :
    ∃ r, Machine.run (Receiver.step b) Receiver.init as = some r ∧ r.Settled b ∧
      ∀ a ∈ as, a.frame < r.passed.length := by
  have htotal : ∀ (r : Receiver) a, (∃ k, r.Sequential b k) → r.InSequence a →
      ∃ r', r.step b a = some r' ∧ ∃ k, r'.Sequential b k := by
    rintro r a ⟨k, h⟩ ha
    rcases Receiver.sequential_step hb h ha with ⟨r', j, hr', h'⟩
    exact ⟨r', hr', j, h'⟩
  rcases Machine.run_total htotal as _ ⟨0, Receiver.sequential_init b⟩ has with ⟨r, hrun, k, h⟩
  refine ⟨r, hrun, h.settled, fun a ha => ?_⟩
  rw [← h.settled.arrived_iff, Receiver.arrived_run b as _ r hrun]
  exact List.mem_append_left _ (List.mem_reverse.mpr (List.mem_map_of_mem ha))

/-- The frames up to 64 arrive in order, and frame 50 once more. -/
theorem in_sequence_round :
    ∃ r, Machine.run (Receiver.step ones) Receiver.init
        ((List.range 65 ++ [50]).map fun n => { frame := n, timeStamp := ⟨0, 0⟩ }) = some r ∧
      r.Settled ones ∧ 64 < r.passed.length := by
  rcases in_sequence ones (fun _ => Block.single_ne_zero 1 (by decide))
    ((List.range 65 ++ [50]).map fun n => { frame := n, timeStamp := ⟨0, 0⟩ }) (by decide +kernel)
    with ⟨r, hrun, hsettled, hlen⟩
  refine ⟨r, hrun, hsettled, hlen { frame := 64, timeStamp := ⟨0, 0⟩ } ?_⟩
  exact List.mem_map_of_mem (by decide)

end Cse5462
