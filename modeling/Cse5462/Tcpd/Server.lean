import Cse5462.Lib.Scan
import Cse5462.Tcpd.Head
import Cse5462.Tcpd.Timeval
import Mathlib.Logic.Function.Basic

/-!
# The Server Loop

One iteration of the receive loop of `server`, from a datagram that passed the
checksum to the acknowledgement it is answered with.

The state is the two cursors and the receive buffer. `lfr` is the slot of the
last frame passed to ftps, `laf` the last slot that is accepted; a window that
crosses slot 63 has `laf < lfr`, and the acceptance test and the delivery have
a branch for each of the two shapes. `recvbuf` is read as a function of the
slot number.

A datagram may be shorter than a full packet, and its sequence number is
whatever four bytes it carries. `receive` is `none` where the source would
touch memory outside `recvbuf`, or copy a negative number of bytes.

## Main definitions

* `Packet`, `Ack`, `Datagram`: What travels on the network.
* `Server`: The cursors and the receive buffer.
* `Server.accepts`: The acceptance test.
* `passLoop`: The loop that passes consecutive slots to ftps.
* `Server.flush`: Delivery and the window update.
* `Server.receive`: What a datagram does to the state, and what it delivers.
* `Server.step`: The same, with the acknowledgement.
* `Server.Shaped`: What the cursors and the buffer look like in every state.

## Theorems

* `passLoop_eq`: The loop passes on the run of full slots it starts at.
* `Server.flush_stuck`: With `lfr` at slot 63 nothing is delivered.
* `Server.receive_cases`: The two things that a datagram can do.
* `Server.receive_of_stuck`: A server that is stuck stays so.
* `Server.flush_keeps`: A slot that delivery clears has been passed on.
* `Server.shaped_receive`: Every datagram keeps the shape of the window.
-/

namespace Cse5462

/-- The fields of `struct Packet` that the transport uses. -/
structure Packet where
  seq : Int
  timeStamp : Timeval
  body : Block

/-- The acknowledgement record. -/
structure Ack where
  ackSeq : Int
  timeStamp : Timeval

/-- What `recvfrom` hands to the server: a packet in a buffer that was cleared
    before, and the number of bytes that were received. -/
structure Datagram where
  length : Nat
  packet : Packet

/-- `sizeof(struct Packet)`. -/
def packetSize : Nat := 1056

/-- A datagram of the full size of `struct Packet`. -/
def fullSize (p : Packet) : Datagram := ⟨packetSize, p⟩

/-- The variables of `server` that live from one iteration to the next. -/
structure Server where
  lfr : Int
  laf : Int
  recvbuf : Int → Block

namespace Server

/-- The state in which `server` enters its loop. -/
def init : Server := { lfr := -1, laf := -1 + window, recvbuf := fun _ => Block.zero }

/-- The acceptance test of `server`. -/
def accepts (s : Server) (seqNum : Int) : Prop :=
  (s.laf ≥ s.lfr ∧ seqNum > s.lfr ∧ seqNum ≤ s.laf) ∨
    (s.laf < s.lfr ∧ (seqNum > s.lfr ∨ seqNum ≤ s.laf))

instance (s : Server) (seqNum : Int) : Decidable (s.accepts seqNum) := by
  unfold accepts
  exact inferInstance

end Server

/-- `bzero` of the slots from `a` up to, not including, `b`. -/
def bzeroSlots (buf : Int → Block) (a b : Int) : Int → Block :=
  fun j => if a ≤ j ∧ j < b then Block.zero else buf j

theorem bzeroSlots_in (buf : Int → Block) (a b j : Int) (h : a ≤ j ∧ j < b) :
    bzeroSlots buf a b j = Block.zero := if_pos h

theorem bzeroSlots_out (buf : Int → Block) (a b j : Int) (h : ¬ (a ≤ j ∧ j < b)) :
    bzeroSlots buf a b j = buf j := if_neg h

/-- The loop that passes slots from `i` on to ftps, `length` bytes of each, up
    to the first empty one; `n` slots are in its range. It returns the index
    at which it leaves off and what it has sent. -/
def passLoop (recvbuf : Int → Block) (length : Nat) : Nat → Int → Int × List (List UInt8)
  | 0, i => (i, [])
  | n + 1, i =>
      if (recvbuf i).isEmpty then (i, [])
      else
        let r := passLoop recvbuf length n (i + 1)
        (r.1, (recvbuf i).bytes.take length :: r.2)

namespace Server

/-- Delivery: pass on what is contiguous, clear it, and move the window. -/
def flush (s : Server) (length : Nat) : Server × List (List UInt8) :=
  -- The window does not cross slot 63.
  if s.laf > s.lfr then
    let r := passLoop s.recvbuf length (s.laf - s.lfr).toNat (s.lfr + 1)
    if r.1 ≠ s.lfr + 1 then
      -- The run ends at slot 63 at the latest, where this test does not yet apply.
      let lfr := if r.1 - 1 > 63 then -1 else r.1 - 1
      let laf := if lfr + window > 63 then lfr + window - 64 else lfr + window
      ({ lfr := lfr, laf := laf, recvbuf := bzeroSlots s.recvbuf (s.lfr + 1) r.1 }, r.2)
    else (s, r.2)
  -- The window crosses slot 63: first the slots up to the end of the buffer.
  else if s.laf < s.lfr then
    let r := passLoop s.recvbuf length (sendRecvBufSize - (s.lfr + 1)).toNat (s.lfr + 1)
    if r.1 ≠ s.lfr + 1 then
      let recvbuf := bzeroSlots s.recvbuf (s.lfr + 1) r.1
      if r.1 < sendRecvBufSize then
        ({ lfr := r.1 - 1, laf := s.laf + (r.1 - s.lfr - 1), recvbuf := recvbuf }, r.2)
      else
        -- The run reaches the end of the buffer and goes on at slot 0.
        let q := passLoop recvbuf length (s.laf + 1).toNat 0
        if q.1 ≠ 0 then
          ({ lfr := q.1 - 1, laf := q.1 - 1 + window, recvbuf := bzeroSlots recvbuf 0 q.1 },
            r.2 ++ q.2)
        else ({ lfr := -1, laf := -1 + window, recvbuf := recvbuf }, r.2 ++ q.2)
    else (s, r.2)
  else (s, [])

/-- What a datagram that passed the checksum does: the new state and the
    datagrams sent to ftps. -/
def receive (s : Server) (d : Datagram) : Option (Server × List (List UInt8)) :=
  let seqNum := d.packet.seq
  if s.accepts seqNum then
    -- The slot is outside of `recvbuf`.
    if seqNum < 0 ∨ sendRecvBufSize ≤ seqNum then none
    -- Only an empty slot is written.
    else if (s.recvbuf seqNum).isEmpty then
      -- The length of the block would be negative.
      if (d.length : Int) < headerSize then none
      else
        let length := (d.length - headerSize).toNat
        let slot := (s.recvbuf seqNum).copy d.packet.body length
        some (flush { s with recvbuf := Function.update s.recvbuf seqNum slot } length)
    else some (s, [])
  else some (s, [])

/-- One iteration on a datagram that passed the checksum. The acknowledgement
    repeats the sequence number and the time stamp, whatever became of the
    block. -/
def step (s : Server) (d : Datagram) : Option (Server × List (List UInt8) × Ack) :=
  (s.receive d).map fun r =>
    (r.1, r.2, { ackSeq := d.packet.seq, timeStamp := d.packet.timeStamp })

end Server

/-- Where the slots in range carry the contents `c` of the frames from `m` on,
    the loop passes on the longest run of non-zero ones. -/
theorem passLoop_eq (recvbuf : Int → Block) (length : Nat) (c : Nat → Block) :
    ∀ (n : Nat) (i : Int) (m d : Nat), (∀ t, t < n → recvbuf (i + t) = c (m + t)) → d ≤ n →
      (∀ t, t < d → c (m + t) ≠ Block.zero) → (d < n → c (m + d) = Block.zero) →
      passLoop recvbuf length n i
        = (i + d, (List.range d).map fun t => (c (m + t)).bytes.take length) := by
  intro n
  induction n with
  | zero =>
      intro i m d _ hd _ _
      have hd0 : d = 0 := by omega
      subst hd0
      simp only [passLoop, Nat.cast_zero, add_zero, List.range_zero, List.map_nil]
  | succ n ih =>
      intro i m d hmem hd hfull hstop
      have hi : recvbuf i = c m := by
        simpa only [Nat.cast_zero, add_zero] using hmem 0 (by omega)
      rw [passLoop, hi]
      cases d with
      | zero =>
          have hm : c m = Block.zero := hstop (by omega)
          rw [hm, Block.isEmpty_zero, if_pos rfl]
          simp only [Nat.cast_zero, add_zero, List.range_zero, List.map_nil]
      | succ d =>
          have hm : (c m).isEmpty = false :=
            (Block.isEmpty_eq_false_iff _).mpr (hfull 0 (by omega))
          -- The rest of the loop starts one slot and one frame further on.
          have hrest := ih (i + 1) (m + 1) d
            (fun t ht => by
              have h := hmem (t + 1) (by omega)
              rw [show i + 1 + (t : Int) = i + ((t + 1 : Nat) : Int) by omega,
                show m + 1 + t = m + (t + 1) by omega]
              exact h)
            (by omega)
            (fun t ht => by
              rw [show m + 1 + t = m + (t + 1) by omega]
              exact hfull (t + 1) (by omega))
            (fun hlt => by
              rw [show m + 1 + d = m + (d + 1) by omega]
              exact hstop (by omega))
          rw [hm, if_neg Bool.false_ne_true, hrest, List.range_succ_eq_map, List.map_cons,
            List.map_map]
          refine Prod.ext ?_ ?_
          · push_cast
            omega
          · simp only [Nat.add_zero, List.cons.injEq, true_and]
            refine List.map_congr_left ?_
            intro t _
            simp only [Function.comp_apply]
            rw [show m + 1 + t = m + t.succ by omega]

theorem passLoop_le (recvbuf : Int → Block) (length : Nat) :
    ∀ (n : Nat) (i : Int), i ≤ (passLoop recvbuf length n i).1 ∧
      (passLoop recvbuf length n i).1 ≤ i + n := by
  intro n
  induction n with
  | zero =>
      intro i
      simp only [passLoop]
      omega
  | succ n ih =>
      intro i
      have h := ih (i + 1)
      rw [passLoop]
      split
      · dsimp only
        omega
      · dsimp only
        omega

/-- As many slots as the loop moves past are sent. -/
theorem length_passLoop (recvbuf : Int → Block) (length : Nat) (n : Nat) (i : Int) :
    ((passLoop recvbuf length n i).2.length : Int) = (passLoop recvbuf length n i).1 - i := by
  induction n generalizing i with
  | zero => simp only [passLoop, List.length_nil, Nat.cast_zero, sub_self]
  | succ n ih =>
      have hrest := ih (i + 1)
      rw [passLoop]
      split
      · simp only [List.length_nil, Nat.cast_zero, sub_self]
      · simp only [List.length_cons]
        omega

/-- Every slot the loop moves past has been sent, each in its turn. -/
theorem passLoop_sent (recvbuf : Int → Block) (length : Nat) (t : Nat) :
    ∀ (n : Nat) (i : Int), i + t < (passLoop recvbuf length n i).1 →
      (passLoop recvbuf length n i).2[t]? = some ((recvbuf (i + t)).bytes.take length) := by
  induction t with
  | zero =>
      intro n i ht
      cases n with
      | zero =>
          simp only [passLoop] at ht
          omega
      | succ n =>
          rw [passLoop] at ht ⊢
          split at ht
          · dsimp only at ht
            omega
          · rw [if_neg ‹_›, Nat.cast_zero, add_zero, List.getElem?_cons_zero]
  | succ t ih =>
      intro n i ht
      cases n with
      | zero =>
          simp only [passLoop] at ht
          omega
      | succ n =>
          rw [passLoop] at ht ⊢
          -- The loop stops at an empty slot, so the slot is behind it.
          split at ht
          · dsimp only at ht
            omega
          · dsimp only at ht
            have hrest := ih n (i + 1) (by omega)
            rw [if_neg ‹_›, List.getElem?_cons_succ, hrest]
            congr 4
            omega

namespace Server

/-- With `lfr` at slot 63 and a wrapped window the delivery loop has no slot to
    look at, so nothing is ever passed on. -/
theorem flush_stuck (s : Server) (length : Nat) (hlfr : s.lfr = 63) (hlaf : s.laf < 63) :
    s.flush length = (s, []) := by
  have hn : (sendRecvBufSize - (s.lfr + 1)).toNat = 0 := by
    simp only [sendRecvBufSize]
    omega
  rw [flush, if_neg (by omega), if_pos (by omega), hn]
  simp only [passLoop, ne_eq, not_true_eq_false, if_false]

/-- A datagram that the server survives leaves it as it was, because its number
    is not accepted or its slot not empty, or is stored and followed by a
    delivery. -/
theorem receive_cases {s s' : Server} {d : Datagram} {out : List (List UInt8)}
    (h : s.receive d = some (s', out)) :
    ((¬ s.accepts d.packet.seq ∨ s.recvbuf d.packet.seq ≠ Block.zero) ∧ s' = s ∧ out = []) ∨
      ∃ (length : Nat) (slot : Block), d.length = headerSize + length ∧
        s.accepts d.packet.seq ∧ s.recvbuf d.packet.seq = Block.zero ∧
        slot = (s.recvbuf d.packet.seq).copy d.packet.body length ∧
        flush { s with recvbuf := Function.update s.recvbuf d.packet.seq slot } length
          = (s', out) := by
  unfold receive at h
  dsimp only at h
  split at h
  · rename_i hacc
    split at h
    · cases h
    · split at h
      · rename_i hempty
        split at h
        · cases h
        · rename_i hlen
          rw [Option.some.injEq] at h
          exact Or.inr ⟨(d.length - headerSize).toNat, _, by omega, hacc,
            (Block.isEmpty_iff _).mp hempty, rfl, h⟩
      · rename_i hfull
        cases h
        exact Or.inl ⟨Or.inr (mt (Block.isEmpty_iff _).mpr hfull), rfl, rfl⟩
  · rename_i hacc
    cases h
    exact Or.inl ⟨Or.inl hacc, rfl, rfl⟩

/-- Such a server stays as it is, whatever it receives. -/
theorem receive_of_stuck (s s' : Server) (d : Datagram) (out : List (List UInt8))
    (hlfr : s.lfr = 63) (hlaf : s.laf < 63) (h : s.receive d = some (s', out)) :
    s'.lfr = 63 ∧ s'.laf < 63 ∧ out = [] := by
  rcases receive_cases h with ⟨_, rfl, rfl⟩ | ⟨length, slot, _, _, _, _, hflush⟩
  · exact ⟨hlfr, hlaf, rfl⟩
  · -- The block is stored, and the loop has nothing to look at.
    have hstuck := flush_stuck { s with recvbuf := Function.update s.recvbuf d.packet.seq slot }
      length hlfr hlaf
    rw [hstuck] at hflush
    cases hflush
    exact ⟨hlfr, hlaf, rfl⟩

/-- Delivery leaves a slot alone or has sent what was in it, in the turn that the
    slot has behind `lfr`. -/
theorem flush_keeps (s : Server) (length : Nat) (i : Int) (h0 : 0 ≤ i) (h64 : i < 64) :
    (s.flush length).1.recvbuf i = s.recvbuf i ∨ ∃ t : Nat, (s.lfr + 1 + t) % 64 = i ∧
      (s.flush length).2[t]? = some ((s.recvbuf i).bytes.take length) := by
  have hclear : ∀ (buf : Int → Block) (n : Nat) (a : Int),
      bzeroSlots buf a (passLoop buf length n a).1 i = buf i ∨ ∃ t : Nat, a + t = i ∧
        (passLoop buf length n a).2[t]? = some ((buf i).bytes.take length) := by
    intro buf n a
    by_cases hi : a ≤ i ∧ i < (passLoop buf length n a).1
    · have hturn : a + (i - a).toNat = i := by omega
      refine Or.inr ⟨(i - a).toNat, hturn, ?_⟩
      rw [passLoop_sent buf length _ n a (by omega), hturn]
    · exact Or.inl (bzeroSlots_out _ _ _ _ hi)
  have hsize : sendRecvBufSize = 64 := rfl
  rw [flush]
  by_cases hplain : s.laf > s.lfr
  · rw [if_pos hplain]
    dsimp only
    split
    · exact (hclear _ _ _).imp_right fun ⟨t, ht, hsent⟩ => ⟨t, by omega, hsent⟩
    · exact Or.inl rfl
  · rw [if_neg hplain]
    by_cases hwrap : s.laf < s.lfr
    · rw [if_pos hwrap]
      have hle := passLoop_le s.recvbuf length (sendRecvBufSize - (s.lfr + 1)).toNat (s.lfr + 1)
      have hlen :=
        length_passLoop s.recvbuf length (sendRecvBufSize - (s.lfr + 1)).toNat (s.lfr + 1)
      have hfst := hclear s.recvbuf (sendRecvBufSize - (s.lfr + 1)).toNat (s.lfr + 1)
      dsimp only
      generalize passLoop s.recvbuf length (sendRecvBufSize - (s.lfr + 1)).toNat (s.lfr + 1) = r
        at hle hlen hfst ⊢
      split
      · split
        · exact hfst.imp_right fun ⟨t, ht, hsent⟩ => ⟨t, by omega, hsent⟩
        · -- The second loop sees the buffer that the first one has cleared.
          have hsnd := hclear (bzeroSlots s.recvbuf (s.lfr + 1) r.1) (s.laf + 1).toNat 0
          have hfront : ∀ (out : List (List UInt8)) (t : Nat) (b : List UInt8),
              s.lfr + 1 + t = i → r.2[t]? = some b →
              ∃ t : Nat, (s.lfr + 1 + t) % 64 = i ∧ (r.2 ++ out)[t]? = some b :=
            fun out t b ht hsent => ⟨t, by omega, by
              rw [List.getElem?_append_left (List.getElem?_eq_some_iff.mp hsent).1, hsent]⟩
          split
          · rcases hfst with hfst | ⟨t, ht, hsent⟩
            · rw [hfst] at hsnd
              -- Slot 0 comes in the turn after that of slot 63.
              exact hsnd.imp_right fun ⟨t, ht, hsent⟩ => ⟨r.2.length + t, by omega, by
                rw [List.getElem?_append_right (by omega), Nat.add_sub_cancel_left, hsent]⟩
            · exact Or.inr (hfront _ t _ ht hsent)
          · exact hfst.imp_right fun ⟨t, ht, hsent⟩ => hfront _ t _ ht hsent
      · exact Or.inl rfl
    · rw [if_neg hwrap]
      exact Or.inl rfl

/-- The cursors are 20 slots apart around the circle, and slots outside the
    window are clear. -/
structure Shaped (s : Server) : Prop where
  cursors : (-1 ≤ s.lfr ∧ s.lfr ≤ 43 ∧ s.laf = s.lfr + 20) ∨
    (44 ≤ s.lfr ∧ s.lfr ≤ 63 ∧ s.laf = s.lfr - 44)
  outside : ∀ i, 0 ≤ i → i < 64 → ¬ s.accepts i → s.recvbuf i = Block.zero

theorem shaped_init : Shaped init := ⟨Or.inl (by decide), fun _ _ _ _ => rfl⟩

/-- The window after a delivery that moved `lfr` forward: a slot outside the
    new one was outside the old one or has been cleared. -/
theorem shaped_of_moved (s : Server) (h : Shaped s) (s' : Server)
    (hcur : (-1 ≤ s'.lfr ∧ s'.lfr ≤ 43 ∧ s'.laf = s'.lfr + 20) ∨
      (44 ≤ s'.lfr ∧ s'.lfr ≤ 63 ∧ s'.laf = s'.lfr - 44))
    (hout : ∀ i, 0 ≤ i → i < 64 → ¬ s'.accepts i → s'.recvbuf i = Block.zero ∨
      (¬ s.accepts i ∧ s'.recvbuf i = s.recvbuf i)) : Shaped s' := by
  refine ⟨hcur, ?_⟩
  intro i h0 h64 hi
  rcases hout i h0 h64 hi with hz | ⟨hold, heq⟩
  · exact hz
  · rw [heq]
    exact h.outside i h0 h64 hold

/-- The window after a delivery that cleared one run of slots: outside of the new
    one and of the run, there is nothing of the old one. -/
theorem shaped_of_cleared (s : Server) (h : Shaped s) (s' : Server) (a b : Int)
    (hcur : (-1 ≤ s'.lfr ∧ s'.lfr ≤ 43 ∧ s'.laf = s'.lfr + 20) ∨
      (44 ≤ s'.lfr ∧ s'.lfr ≤ 63 ∧ s'.laf = s'.lfr - 44))
    (hbuf : s'.recvbuf = bzeroSlots s.recvbuf a b)
    (hout : ∀ i, 0 ≤ i → i < 64 → ¬ s'.accepts i → ¬ (a ≤ i ∧ i < b) → ¬ s.accepts i) :
    Shaped s' := by
  refine shaped_of_moved s h s' hcur ?_
  intro i h0 h64 hi
  rw [hbuf]
  by_cases hrun : a ≤ i ∧ i < b
  · exact Or.inl (bzeroSlots_in _ _ _ _ hrun)
  · exact Or.inr ⟨hout i h0 h64 hi hrun, bzeroSlots_out _ _ _ _ hrun⟩

theorem shaped_flush (s : Server) (length : Nat) (h : Shaped s) : Shaped (s.flush length).1 := by
  have hcur := h.cursors
  have hwindow : window = 20 := rfl
  have hsize : sendRecvBufSize = 64 := rfl
  rw [flush]
  -- One case per exit of the source, each with the bounds of its loops.
  by_cases hplain : s.laf > s.lfr
  · rw [if_pos hplain]
    have hle := passLoop_le s.recvbuf length (s.laf - s.lfr).toNat (s.lfr + 1)
    dsimp only
    generalize passLoop s.recvbuf length (s.laf - s.lfr).toNat (s.lfr + 1) = r at hle ⊢
    split
    · refine shaped_of_cleared s h _ (s.lfr + 1) r.1 ?_ rfl (fun i h0 h64 hi hrun => ?_)
      · dsimp only
        split <;> split <;> omega
      · dsimp only [accepts] at hi ⊢
        split at hi <;> split at hi <;> omega
    · exact h
  · rw [if_neg hplain]
    by_cases hwrap : s.laf < s.lfr
    · rw [if_pos hwrap]
      have hle := passLoop_le s.recvbuf length (sendRecvBufSize - (s.lfr + 1)).toNat (s.lfr + 1)
      dsimp only
      generalize passLoop s.recvbuf length (sendRecvBufSize - (s.lfr + 1)).toNat (s.lfr + 1) = r
        at hle ⊢
      have hle' := passLoop_le (bzeroSlots s.recvbuf (s.lfr + 1) r.1) length (s.laf + 1).toNat 0
      generalize passLoop (bzeroSlots s.recvbuf (s.lfr + 1) r.1) length (s.laf + 1).toNat 0 = q
        at hle' ⊢
      split
      · split
        · refine shaped_of_cleared s h _ (s.lfr + 1) r.1 (by dsimp only; omega) rfl ?_
          intro i h0 h64 hi hrun
          dsimp only [accepts] at hi ⊢
          omega
        · split
          · -- Both runs have been cleared.
            refine shaped_of_moved s h _ (by dsimp only; omega) ?_
            intro i h0 h64 hi
            dsimp only [accepts] at hi ⊢
            by_cases hrun : 0 ≤ i ∧ i < q.1
            · exact Or.inl (bzeroSlots_in _ _ _ _ hrun)
            · rw [bzeroSlots_out _ _ _ _ hrun]
              by_cases hrun' : s.lfr + 1 ≤ i ∧ i < r.1
              · exact Or.inl (bzeroSlots_in _ _ _ _ hrun')
              · exact Or.inr ⟨by omega, bzeroSlots_out _ _ _ _ hrun'⟩
          · refine shaped_of_cleared s h _ (s.lfr + 1) r.1 (by dsimp only; omega) rfl ?_
            intro i h0 h64 hi hrun
            dsimp only [accepts] at hi ⊢
            omega
      · exact h
    · rw [if_neg hwrap]
      exact h

theorem receive_full (s : Server) (p : Packet) (hacc : s.accepts p.seq) (h0 : 0 ≤ p.seq)
    (h63 : p.seq < 64) (hempty : s.recvbuf p.seq = Block.zero) :
    s.receive (fullSize p)
      = some (flush { s with recvbuf := Function.update s.recvbuf p.seq p.body } buffSize) := by
  have hlen : ((packetSize : Int) - headerSize).toNat = buffSize := by decide
  simp only [receive, fullSize, if_pos hacc, hempty, Block.isEmpty_zero, if_true, hlen,
    Block.copy_full]
  rw [if_neg (show ¬(p.seq < 0 ∨ sendRecvBufSize ≤ p.seq) by unfold sendRecvBufSize; omega),
    if_neg (by decide)]

theorem receive_duplicate (s : Server) (d : Datagram) (h0 : 0 ≤ d.packet.seq)
    (h63 : d.packet.seq < 64) (hfull : s.recvbuf d.packet.seq ≠ Block.zero) :
    s.receive d = some (s, []) := by
  rw [← Block.isEmpty_eq_false_iff] at hfull
  simp only [receive, hfull, Bool.false_eq_true, if_false]
  rw [if_neg (show ¬(d.packet.seq < 0 ∨ sendRecvBufSize ≤ d.packet.seq) by
    unfold sendRecvBufSize; omega)]
  split <;> rfl

theorem receive_outside (s : Server) (d : Datagram) (h : ¬ s.accepts d.packet.seq) :
    s.receive d = some (s, []) := by
  rw [receive, if_neg h]

/-- The slot of a number that is accepted is inside of the window. -/
theorem Shaped.stored {s : Server} (h : s.Shaped) {seq : Int} (hacc : s.accepts seq) (b : Block) :
    Shaped { s with recvbuf := Function.update s.recvbuf seq b } := by
  refine ⟨h.cursors, ?_⟩
  intro i h0 h64 hi
  have hne : i ≠ seq := by
    rintro rfl
    exact hi hacc
  dsimp only
  rw [Function.update_of_ne hne]
  exact h.outside i h0 h64 hi

/-- Every datagram keeps the shape of the window. -/
theorem shaped_receive (s : Server) (d : Datagram) (h : Shaped s) (s' : Server)
    (out : List (List UInt8)) (hrec : s.receive d = some (s', out)) : Shaped s' := by
  rcases receive_cases hrec with ⟨_, rfl, rfl⟩ | ⟨length, slot, _, hacc, _, _, hflush⟩
  · exact h
  · have hshaped := shaped_flush _ length (h.stored hacc slot)
    rw [hflush] at hshaped
    exact hshaped

end Server

end Cse5462
