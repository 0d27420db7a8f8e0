import Cse5462.Tcpd.System

/-!
# What an Acknowledgement Erases

When the driver reads an acknowledgement, it clears the slot of the number that the
acknowledgement carries, whatever number that is. Only the slot of a frame that is
outstanding should be cleared, and only for an acknowledgement of that frame: the
slot is used again 64 frames later, and then a late acknowledgement of the earlier
frame has the same number.

To tell the two apart, an acknowledgement is given the frame that it answers, and
the client is run with the number of blocks that it has read and of frames that it
has sent. An acknowledgement may also carry any other number. The offset of the
slot is an `int`, which a large number makes wrap, and then the bytes that are
cleared are parts of two slots. So what is erased is stated of single bytes.

## Main definitions

* `byteAt`: A byte of the send buffer.
* `Numbered`: The client, with its counts.
* `NumberedEvent`: A step, with the frame that an acknowledgement answers.
* `Numbered.ErasesAcked`: Only slots of outstanding frames are changed, and no later
  frame is in them.
* `Cursors.inFlight`: The number of outstanding frames.
* `Numbered.AnswersInFlight`: The frame that is answered is in flight.

## Theorems

* `byteAt_bzeroAt`: The bytes that are cleared.
* `outstanding_iff`: The slots of the outstanding frames are those of the last ones.
* `ack_erasure_iff`: When acknowledgements erase what they acknowledge only.
-/

namespace Cse5462

/-- The byte at an offset of the send buffer. -/
def byteAt (buf : Int → Block) (j : Int) : Option UInt8 :=
  (buf (j / buffSize)).bytes[(j % buffSize).toNat]?

theorem Block.getElem?_copy (dst src : Block) (n r : Nat) :
    (dst.copy src n).bytes[r]? = if r < n then src.bytes[r]? else dst.bytes[r]? := by
  have hsrc := src.length_eq
  have hdst := dst.length_eq
  unfold Block.copy
  dsimp only
  rw [List.getElem?_append, List.length_take, List.getElem?_take, List.getElem?_drop]
  by_cases hr : r < n
  · rw [if_pos hr, if_pos hr]
    split
    · rfl
    · rw [List.getElem?_eq_none (by omega), List.getElem?_eq_none (by omega)]
  · rw [if_neg hr, if_neg (by omega), if_neg hr]
    by_cases hn : n ≤ buffSize
    · rw [show n + (r - min n src.bytes.length) = r by omega]
    · rw [List.getElem?_eq_none (by omega), List.getElem?_eq_none (by omega)]

/-- As many bytes as a block has are cleared, and no others. -/
theorem byteAt_bzeroAt (buf : Int → Block) (offset j : Int) :
    byteAt (bzeroAt buf offset) j
      = if offset ≤ j ∧ j < offset + buffSize then some 0 else byteAt buf j := by
  have hsize : (buffSize : Int) = 1000 := rfl
  have hbyte : ∀ r : Nat, r < 1000 → Block.zero.bytes[r]? = some 0 := fun r hr => by
    rw [show Block.zero.bytes = List.replicate 1000 0 from rfl, List.getElem?_replicate, if_pos hr]
  unfold byteAt bzeroAt
  dsimp only
  rw [hsize]
  by_cases hfst : j / 1000 = offset / 1000
  · -- The slot that the offset is in.
    rw [if_pos hfst, Block.getElem?_copy]
    by_cases hr : (j % 1000).toNat < (offset % 1000).toNat
    · rw [if_pos hr, if_neg (by omega)]
    · rw [if_neg hr, if_pos (by omega), hbyte _ (by omega)]
  · rw [if_neg hfst]
    by_cases hsnd : j / 1000 = offset / 1000 + 1
    · rw [if_pos hsnd, Block.getElem?_copy]
      by_cases hr : (j % 1000).toNat < (offset % 1000).toNat
      · rw [if_pos hr, if_pos (by omega), hbyte _ (by omega)]
      · rw [if_neg hr, if_neg (by omega)]
    · rw [if_neg hsnd, if_neg (by omega)]

/-- The client, with the number of blocks that it has read from ftpc and of frames
    that it has sent for the first time. -/
structure Numbered where
  client : Client
  filled : Nat
  sent : Nat

/-- A step of the client. An acknowledgement answers a frame, or it is one of the
    other steps and carries any number. -/
inductive NumberedEvent where
  | ack (frame : Nat) (stamp now : Timeval)
  | client (e : ClientEvent)

/-- The number of outstanding frames, as the source counts them. -/
def Cursors.inFlight (c : Cursors) : Int :=
  if c.lfs ≥ c.lar then c.lfs - c.lar else max 0 (63 - c.lar) + c.lfs + 1

namespace Numbered

def init (sendbuf : Int → Block) (cell : Heap) (start : Timeval) : Numbered :=
  { client := Client.init sendbuf cell start, filled := 0, sent := 0 }

/-- What the step is for the client. Only a frame that has been sent is answered. -/
def event (y : Numbered) : NumberedEvent → Option ClientEvent
  | .ack n stamp now => if n < y.sent then some (.ack (seqOf n) stamp now) else none
  | .client e => some e

def step (top : Int) (y : Numbered) (e : NumberedEvent) : Option Numbered :=
  (y.event e).bind fun ce => (y.client.step top ce).map fun r =>
    { client := r.1
      filled := System.filledAfter y.filled ce
      sent := System.sentAfter y.sent ce r.2 }

/-- Every byte that an acknowledgement changes is in the slot of an outstanding frame,
    and no block that was read later than that of the frame it answers has gone to
    that slot. -/
def ErasesAcked (y : Numbered) (e : NumberedEvent) : Prop :=
  y.client.driver.phase = .ack → match e with
    | .ack m _ _ => m < y.sent → ∀ j,
        byteAt (y.client.driver.clear (seqOf m)) j ≠ byteAt y.client.driver.sendbuf j →
        Outstanding y.client.driver.cursors.lar y.client.driver.cursors.lfs (j / buffSize) ∧
          ∀ k, m < k → k < y.filled → seqOf k ≠ j / buffSize
    | .client (.ack n _ _) => ∀ j,
        byteAt (y.client.driver.clear n) j ≠ byteAt y.client.driver.sendbuf j →
        Outstanding y.client.driver.cursors.lar y.client.driver.cursors.lfs (j / buffSize)
    | .client _ => True

/-- An acknowledgement that is read answers one of the frames in flight, and the
    block of no later frame has been read into its slot, or the slot is clear already.
    One that answers no frame finds no byte to clear outside of the slots of
    outstanding frames. -/
def AnswersInFlight (y : Numbered) (e : NumberedEvent) : Prop :=
  y.client.driver.phase = .ack → match e with
    | .ack m _ _ => m < y.sent → y.client.driver.sendbuf (seqOf m) = Block.zero ∨
        (y.sent ≤ m + y.client.driver.cursors.inFlight ∧ y.filled ≤ m + 64)
    | .client (.ack n _ _) => ∀ j, cInt (buffSize * n) ≤ j → j < cInt (buffSize * n) + buffSize →
        byteAt y.client.driver.sendbuf j ≠ some 0 →
        Outstanding y.client.driver.cursors.lar y.client.driver.cursors.lfs (j / buffSize)
    | .client _ => True

/-- What the cursors have to do with the counts, wherever `lar` has come to. -/
structure Counted (y : Numbered) : Prop where
  lar_ge : -1 ≤ y.client.driver.cursors.lar
  lfs_eq : y.client.driver.cursors.lfs = (y.sent : Int) % 64 - 1
  bufpos_eq : y.client.driver.cursors.bufpos = (y.filled : Int) % 64
  sent_le : y.sent ≤ y.filled

end Numbered

theorem le_larLoop (sendbuf : Int → Block) (lar lfs : Int) (n : Nat) (i j : Int)
    (h : larLoop sendbuf lar lfs n i = some j) : i ≤ j := by
  induction n generalizing i with
  | zero =>
      unfold larLoop at h
      split at h
      · cases h
      · exact (Option.some.inj h).le
  | succ n ih =>
      unfold larLoop at h
      split at h
      · split at h
        · have := ih (i + 1) h
          omega
        · exact (Option.some.inj h).le
      · exact (Option.some.inj h).le

/-- The scan never moves `lar` before the buffer. -/
theorem larScan_ge {top : Int} {sendbuf : Int → Block} {lar lfs last : Int} (hlar : -1 ≤ lar)
    (h : larScan top sendbuf lar lfs = some last) : -1 ≤ last := by
  rcases Option.map_eq_some_iff.mp h with ⟨i, hloop, hlast⟩
  have hi := le_larLoop sendbuf lar lfs _ _ _ hloop
  have hj := le_scanWhile (p := fun j => (sendbuf j).isEmpty) (lfs + 1).toNat 0
  dsimp only at hlast
  split at hlast
  · split at hlast <;> omega
  · omega

namespace Numbered

theorem counted_init (sendbuf : Int → Block) (cell : Heap) (start : Timeval) :
    (init sendbuf cell start).Counted where
  lar_ge := le_refl (-1)
  lfs_eq := rfl
  bufpos_eq := rfl
  sent_le := Nat.le_refl 0

theorem counted_step (top : Int) (y : Numbered) (e : NumberedEvent) (y' : Numbered)
    (h : y.Counted) (hstep : y.step top e = some y') : y'.Counted := by
  have hsize : sendRecvBufSize = 64 := rfl
  rcases h with ⟨hlar, hlfs, hbuf, hle⟩
  rcases Option.bind_eq_some_iff.mp hstep with ⟨ce, -, hc⟩
  rcases Option.map_eq_some_iff.mp hc with ⟨⟨c', out⟩, hclient, rfl⟩
  cases Client.step_cases top y.client c' ce out hclient with
  | acked n stamp now lar hphase hscan => exact ⟨larScan_ge hlar hscan, hlfs, hbuf, hle⟩
  | refilled body length hphase hguard hlen =>
      refine ⟨hlar, hlfs, ?_, Nat.le_succ_of_le hle⟩
      dsimp only [Driver.refill, Cursors.refill, System.filledAfter]
      split <;> omega
  | sent now hphase hguard =>
      -- With nothing waiting `bufpos` is the slot behind `lfs`, and the guard fails.
      have hwaits : y.sent < y.filled := by
        simp only [Cursors.sendGuard, window] at hguard
        by_contra hc
        omega
      refine ⟨hlar, ?_, hbuf, hwaits⟩
      -- The slot behind slot 62 is folded.
      dsimp only [Cursors.sent, System.sentAfter]
      split <;> omega
  | _ => exact ⟨hlar, hlfs, hbuf, hle⟩

/-- The slots of the outstanding frames are those of the last frames that have been
    sent. -/
theorem outstanding_iff {y : Numbered} (h : y.Counted) {m : Nat} (hm : m < y.sent)
    (hlast : y.sent ≤ m + 64) :
    Outstanding y.client.driver.cursors.lar y.client.driver.cursors.lfs (seqOf m) ↔
      y.sent ≤ m + y.client.driver.cursors.inFlight := by
  rcases h with ⟨hlar, hlfs, -, -⟩
  unfold Outstanding Cursors.inFlight seqOf
  split <;> omega

/-- The slot of a frame is taken over by the frame that is read 64 blocks later. -/
theorem overtaken_iff {m filled : Nat} :
    (∀ k, m < k → k < filled → seqOf k ≠ seqOf m) ↔ filled ≤ m + 64 := by
  constructor
  · intro h
    by_contra hlt
    exact h (m + 64) (by omega) (by omega) (by unfold seqOf; omega)
  · intro h k hk hk' heq
    unfold seqOf at heq
    omega

/-- The bytes that change are those that are cleared and were not zero. -/
theorem byteAt_clear_ne_iff (d : Driver) (n j : Int) :
    byteAt (d.clear n) j ≠ byteAt d.sendbuf j ↔ (cInt (buffSize * n) ≤ j ∧
      j < cInt (buffSize * n) + buffSize) ∧ byteAt d.sendbuf j ≠ some 0 := by
  rw [Driver.clear, byteAt_bzeroAt]
  by_cases hj : cInt (buffSize * n) ≤ j ∧ j < cInt (buffSize * n) + buffSize
  · rw [if_pos hj]
    exact ⟨fun h => ⟨hj, Ne.symm h⟩, fun h => Ne.symm h.2⟩
  · rw [if_neg hj]
    exact ⟨fun h => absurd rfl h, fun h => absurd h.1 hj⟩

/-- What an acknowledgement of a frame changes is in the slot of the frame, and it
    changes something unless the slot is clear. -/
theorem clear_slot_ne_iff (d : Driver) (m : Nat) (P : Int → Prop) :
    (∀ j, byteAt (d.clear (seqOf m)) j ≠ byteAt d.sendbuf j → P (j / buffSize)) ↔
      (d.sendbuf (seqOf m) = Block.zero ∨ P (seqOf m)) := by
  have hslot := seqOf_mem m
  have hsize : (buffSize : Int) = 1000 := rfl
  have hoffset : cInt (1000 * seqOf m) = 1000 * seqOf m := (cInt_eq_self_iff _).mpr (by omega)
  simp only [byteAt_clear_ne_iff, hsize, hoffset]
  constructor
  · intro h
    by_cases hzero : d.sendbuf (seqOf m) = Block.zero
    · exact Or.inl hzero
    · -- Some byte of the slot is not zero.
      rw [← Block.isEmpty_iff, Block.isEmpty, checkEmpty_iff _ _ (Nat.le_of_eq (Block.length_eq _))]
        at hzero
      simp only [not_forall] at hzero
      rcases hzero with ⟨c, hc, hne⟩
      rcases List.mem_iff_getElem?.mp hc with ⟨r, hr⟩
      have hlt : r < 1000 := by
        have := (List.getElem?_eq_some_iff.mp hr).1
        rwa [Block.length_eq] at this
      have hdiv : (1000 * seqOf m + r) / 1000 = seqOf m := by omega
      have hmod : ((1000 * seqOf m + r) % 1000).toNat = r := by omega
      have hchanged := h (1000 * seqOf m + r) ⟨by omega, by
        rw [byteAt, hsize, hdiv, hmod, hr]
        exact fun heq => hne (Option.some.inj heq)⟩
      rw [hdiv] at hchanged
      exact Or.inr hchanged
  · rintro h j ⟨hin, hne⟩
    have hdiv : j / 1000 = seqOf m := by omega
    rw [hdiv]
    refine h.resolve_left fun hzero => hne ?_
    rw [byteAt, hsize, hdiv, hzero, show Block.zero.bytes = List.replicate 1000 0 from rfl,
      List.getElem?_replicate, if_pos (by omega)]

theorem erases_iff_answers {y : Numbered} (h : y.Counted) (e : NumberedEvent) :
    y.ErasesAcked e ↔ y.AnswersInFlight e := by
  unfold ErasesAcked AnswersInFlight
  refine imp_congr_right fun _ => ?_
  cases e with
  | ack m stamp now =>
      refine imp_congr_right fun hm => ?_
      rw [clear_slot_ne_iff y.client.driver m fun i =>
        Outstanding y.client.driver.cursors.lar y.client.driver.cursors.lfs i ∧
          ∀ k, m < k → k < y.filled → seqOf k ≠ i, overtaken_iff]
      refine or_congr_right (and_congr_left fun hlast => ?_)
      exact outstanding_iff h hm (h.sent_le.trans hlast)
  | client e =>
      cases e with
      | ack n stamp now =>
          refine forall_congr' fun j => ?_
          rw [byteAt_clear_ne_iff, and_imp, and_imp]
      | _ => exact Iff.rfl

end Numbered

/-- In every run of the client the acknowledgements erase nothing but the blocks of
    outstanding frames that they answer, exactly if each of them answers a frame that
    is in flight or finds nothing to clear. The code makes no such check. -/
theorem ack_erasure_iff (top : Int) (sendbuf : Int → Block) (cell : Heap) (start : Timeval)
    (es : List NumberedEvent) :
    Machine.Meets (Numbered.step top) Numbered.ErasesAcked (Numbered.init sendbuf cell start) es ↔
      Machine.Meets (Numbered.step top) Numbered.AnswersInFlight
        (Numbered.init sendbuf cell start) es :=
  Machine.meets_iff (P := Numbered.Counted)
    (fun y e y' h _ hs => Numbered.counted_step top y e y' h hs) (fun _ e h => Numbered.erases_iff_answers h e) es _ (Numbered.counted_init sendbuf cell start)

/-- An iteration of the driver in which block `k` is read, frame `k - 1` is
    acknowledged, and frame `k` is sent. -/
def pacedIteration (k : Nat) : List NumberedEvent :=
  [.client .select, .client (.refill (Block.single 1) buffSize),
    if k = 0 then .client .noAck else .ack (k - 1) ⟨0, 0⟩ ⟨0, 0⟩, .client (.send ⟨0, 0⟩)]

/-- The first 64 frames are sent, all but the last are acknowledged, and block 64 is
    read. -/
def pacedEvents : List NumberedEvent :=
  (List.range 64).flatMap pacedIteration ++
    [.client .select, .client (.refill (Block.single 1) buffSize)]

def Numbered.fresh : Numbered :=
  Numbered.init (fun _ => Block.zero) (fun _ => ⟨0, ⟨0, 0⟩, none, none⟩) ⟨0, 0⟩

/-- Block 64 waits in slot 0 and has not been sent yet. A second acknowledgement of
    frame 0 erases it. -/
theorem late_ack_erases :
    ∃ y, Machine.run (Numbered.step 64) Numbered.fresh pacedEvents = some y ∧
      ¬ y.ErasesAcked (.ack 0 ⟨0, 0⟩ ⟨0, 0⟩) := by
  have hrun : (Machine.run (Numbered.step 64) Numbered.fresh pacedEvents).map (fun y =>
      (y.client.driver.phase, y.sent, y.filled, (y.client.driver.sendbuf 0).isEmpty))
      = some (.ack, 64, 65, false) := by
    decide +kernel
  rcases Option.map_eq_some_iff.mp hrun with ⟨y, hy, hval⟩
  simp only [Prod.mk.injEq] at hval
  rcases hval with ⟨hphase, hsent, hfilled, hfull⟩
  have hcounted : y.Counted := Machine.run_invariant (Numbered.counted_step 64) _ _ y
    (Numbered.counted_init _ _ _) hy
  refine ⟨y, hy, fun h => ?_⟩
  rcases (Numbered.erases_iff_answers hcounted _).mp h hphase (by omega) with hzero | ⟨-, hlast⟩
  · exact (Block.isEmpty_eq_false_iff _).mp hfull hzero
  · omega

end Cse5462
