import Cse5462.Tcpd.Head

/-!
# The Cursors of the Client

The driver keeps its place in the circular buffer with three integers: `lar`,
the slot of the last frame acknowledged, `lfs`, the slot of the last frame
sent, and `bufpos`, the slot that the next block from ftpc goes to. The guards
of the refill and of the send step are read off these three alone.

The encodings differ. `lfs` is folded, so that after slot 63 it is `-1`, while
`lar` is `-1` only before the first acknowledgement and `63` later, and
`bufpos` runs from 0 to 63. `Sending c a s` says what `lar` and `lfs` mean in
terms of the number `a` of frames covered by `lar` and the number `s` of frames
sent, and `Filled c a s f` adds the number `f` of blocks taken from ftpc.

An empty buffer and a full one have the same cursors, and a refill looks only
at the frames that are outstanding, not at the ones that wait to be sent. What
keeps a refill from overwriting a block is that the loop sends in every
iteration in which it can: at its head nothing waits while nothing is
outstanding, which is `Filled.room`.

## Main definitions

* `Cursors`: The three cursors.
* `Cursors.refillGuard`, `Cursors.refill`: Taking a block from ftpc.
* `Cursors.sendGuard`, `Cursors.sent`: Sending the next frame.
* `Cursors.outstanding`: The size of the cyclic interval from `lar` to `lfs`.
* `Cursors.Overdrawn`: The state in which the send guard miscounts.
* `Cursors.Sending`: The meaning of `lar` and `lfs`.
* `Cursors.Filled`: The meaning of `bufpos`.

## Theorems

* `Sending.outstanding_eq`: The interval counts the frames not covered.
* `Sending.guard_overdrawn_iff`: Where the send guard lets one frame too many
  pass.
* `Filled.room`: A refill has room.
* `Filled.pending`: The frame that is sent has been filled.
* `Filled.idle`: A send step that does not send leaves nothing waiting.
-/

namespace Cse5462

/-- `lar`, `lfs` and `bufpos`. -/
structure Cursors where
  lar : Int
  lfs : Int
  bufpos : Int
  deriving DecidableEq, Repr

namespace Cursors

/-- The cursors when the driver enters its loop. -/
def init : Cursors := { lar := -1, lfs := -1, bufpos := 0 }

/-- The guard under which the driver reads a block from ftpc. -/
def refillGuard (c : Cursors) : Prop :=
  -- The slot is not among those of the outstanding frames, in either shape.
  (c.lfs ≥ c.lar ∧ (c.bufpos > c.lfs ∨ c.bufpos ≤ c.lar)) ∨
    (c.lfs < c.lar ∧ c.bufpos ≤ c.lar ∧ c.bufpos > c.lfs)

instance (c : Cursors) : Decidable c.refillGuard := by
  unfold refillGuard
  exact inferInstance

/-- The cursors after a block has been read. -/
def refill (c : Cursors) : Cursors :=
  { c with bufpos := if c.bufpos + 1 = sendRecvBufSize then 0 else c.bufpos + 1 }

/-- The guard under which the driver sends the next frame. -/
def sendGuard (c : Cursors) : Prop :=
  -- The window is not full, and the slot after `lfs` has a block that waits.
  (c.lfs ≥ c.lar ∧ c.lfs - c.lar < window ∧ (c.lfs + 1 < c.bufpos ∨ c.bufpos ≤ c.lar)) ∨
    (c.lfs < c.lar ∧ 63 - c.lar + c.lfs < window ∧ c.lfs + 1 < c.bufpos)

instance (c : Cursors) : Decidable c.sendGuard := by
  unfold sendGuard
  exact inferInstance

/-- The cursors after the next frame has been sent. -/
def sent (c : Cursors) : Cursors :=
  { c with lfs := if c.lfs + 1 = sendRecvBufSize - 1 then -1 else c.lfs + 1 }

/-- The size of the cyclic interval of slots after `lar` up to `lfs`. -/
def outstanding (c : Cursors) : Int := (c.lfs - c.lar) % 64

/-- A full window that crosses slot 63. The guard for that shape counts one
    frame less than there are and lets another one pass. -/
def Overdrawn (c : Cursors) : Prop := c.lfs < c.lar ∧ 63 - c.lar + c.lfs = window - 1

instance (c : Cursors) : Decidable c.Overdrawn := by
  unfold Overdrawn
  exact inferInstance

/-- `a` frames are covered by `lar` and `s` frames have been sent. -/
structure Sending (c : Cursors) (a s : Nat) : Prop where
  lar_eq : (a = 0 ∧ c.lar = -1) ∨ (0 < a ∧ c.lar = ((a : Int) - 1) % 64)
  lfs_eq : c.lfs = (s : Int) % 64 - 1
  covered_le : a ≤ s
  sent_le : s ≤ a + 21

/-- Of the `f` blocks taken from ftpc, those not covered fit into the buffer. -/
structure Filled (c : Cursors) (a s f : Nat) : Prop extends Sending c a s where
  bufpos_eq : c.bufpos = (f : Int) % 64
  sent_le_filled : s ≤ f
  filled_le : f ≤ a + 64

theorem sending_init : Sending init 0 0 where
  lar_eq := Or.inl ⟨rfl, rfl⟩
  lfs_eq := rfl
  covered_le := Nat.le_refl 0
  sent_le := by omega

theorem filled_init : Filled init 0 0 0 where
  toSending := sending_init
  bufpos_eq := rfl
  sent_le_filled := Nat.le_refl 0
  filled_le := by omega

variable {c : Cursors} {a s f : Nat}

/-- The cyclic interval from `lar` to `lfs` has as many slots as there are
    frames sent and not covered. -/
theorem Sending.outstanding_eq (h : Sending c a s) : c.outstanding = (s : Int) - a := by
  rcases h with ⟨hlar, hlfs, hle, hbound⟩
  rw [outstanding]
  omega

/-- The number of the next frame. -/
theorem Sending.next_eq (h : Sending c a s) : c.lfs + 1 = seqOf s := by
  rw [h.lfs_eq, seqOf]
  omega

theorem Sending.refill (h : Sending c a s) : Sending c.refill a s :=
  ⟨h.lar_eq, h.lfs_eq, h.covered_le, h.sent_le⟩

/-- `lar` moves forward to frame `n`, in the encoding of the source. -/
theorem Sending.ack (h : Sending c a s) (n : Nat) (hn : a ≤ n) (hn' : n < s) :
    Sending { c with lar := seqOf n } (n + 1) s where
  -- `lar` is never folded, so slot 63 stays 63.
  lar_eq := Or.inr ⟨by omega, by
    simp only [seqOf]
    omega⟩
  lfs_eq := h.lfs_eq
  covered_le := by omega
  sent_le := by
    have := h.sent_le
    omega

/-- The send guard never lets more than 20 frames be outstanding before it, in
    either shape of the window. -/
theorem Sending.guard_le (h : Sending c a s) (hguard : c.sendGuard) : s ≤ a + 20 := by
  rcases h with ⟨hlar, hlfs, hle, hbound⟩
  simp only [sendGuard, window] at hguard
  omega

/-- Where the guard holds, it lets the window grow beyond 20 frames exactly in
    the overdrawn states. -/
theorem Sending.guard_overdrawn_iff (h : Sending c a s) (hguard : c.sendGuard) :
    c.Overdrawn ↔ s = a + 20 := by
  -- With `lfs` not below `lar` the guard counts right, and otherwise one too few.
  have hle := h.guard_le hguard
  rcases h with ⟨hlar, hlfs, hle', hbound⟩
  simp only [sendGuard, window] at hguard
  simp only [Overdrawn, window]
  omega

theorem Sending.send (h : Sending c a s) (hguard : c.sendGuard) : Sending c.sent a (s + 1) where
  lar_eq := h.lar_eq
  lfs_eq := by
    have hlfs := h.lfs_eq
    have hsize : sendRecvBufSize = 64 := rfl
    dsimp only [sent]
    split <;> omega
  covered_le := by
    have := h.covered_le
    omega
  sent_le := by
    have := h.guard_le hguard
    omega

/-- If the window is empty or not, a refill that its guard permits has room,
    provided that nothing waits while the window is empty. -/
theorem Filled.room (h : Filled c a s f) (hidle : s = a → f = s) (hguard : c.refillGuard) :
    f < a + 64 := by
  rcases h with ⟨⟨hlar, hlfs, hle, hbound⟩, hbuf, hsf, hfa⟩
  simp only [refillGuard] at hguard
  by_contra hc
  -- A full buffer has `bufpos` right behind `lar`, inside the window.
  omega

theorem Filled.refill (h : Filled c a s f) (hroom : f < a + 64) : Filled c.refill a s (f + 1) where
  toSending := h.toSending.refill
  bufpos_eq := by
    have hbuf := h.bufpos_eq
    have hsize : sendRecvBufSize = 64 := rfl
    dsimp only [Cursors.refill]
    split <;> omega
  sent_le_filled := by
    have := h.sent_le_filled
    omega
  filled_le := by omega

theorem Filled.ack (h : Filled c a s f) (n : Nat) (hn : a ≤ n) (hn' : n < s) :
    Filled { c with lar := seqOf n } (n + 1) s f where
  toSending := h.toSending.ack n hn hn'
  bufpos_eq := h.bufpos_eq
  sent_le_filled := h.sent_le_filled
  filled_le := by
    have := h.filled_le
    omega

/-- The send guard holds only if a block waits to be sent. -/
theorem Filled.pending (h : Filled c a s f) (hguard : c.sendGuard) : s < f := by
  rcases h with ⟨⟨hlar, hlfs, hle, hbound⟩, hbuf, hsf, hfa⟩
  simp only [sendGuard, window] at hguard
  by_contra hc
  -- With nothing waiting `bufpos` is the slot of the next frame.
  omega

/-- With an empty window the send guard fails only if nothing waits, unless the
    whole buffer does. -/
theorem Filled.idle (h : Filled c a s f) (hempty : s = a) (hfew : f ≤ s + 63)
    (hguard : ¬ c.sendGuard) : f = s := by
  rcases h with ⟨⟨hlar, hlfs, hle, hbound⟩, hbuf, hsf, hfa⟩
  -- An empty window is not full, so the guard fails for want of a block.
  simp only [sendGuard, window] at hguard
  omega

theorem Filled.send (h : Filled c a s f) (hguard : c.sendGuard) : Filled c.sent a (s + 1) f where
  toSending := h.toSending.send hguard
  bufpos_eq := h.bufpos_eq
  sent_le_filled := by
    have := h.pending hguard
    omega
  filled_le := h.filled_le

end Cursors

end Cse5462
