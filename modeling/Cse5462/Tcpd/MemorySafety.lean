import Cse5462.Lib.Machine
import Cse5462.Tcpd.Wire

/-!
# What the Server Touches

The slots of `recvbuf` that one iteration of the server uses: the one that it
looks at for a duplicate and copies the block to, those that the delivery looks
at and sends, and those that are cleared. A block is copied with the length of
the datagram less that of the headers.

Nothing but the acceptance test is between a sequence number and the buffer, and
nothing is between the length of a datagram and the copy. While the window does
not cross slot 63 the test lets only slots pass; when it does, one side of it is
open, and any number above `lfr` or up to `laf` passes, negative ones included.
What delivery uses is always a slot.

## Main definitions

* `Access`: A use of `recvbuf`.
* `Server.accesses`: The uses of one iteration, in order.
* `Server.Guarded`: What the server relies on.

## Theorems

* `deliveries_safe`: Delivery stays inside of the buffer.
* `accesses_safe_iff`: When an iteration stays inside of the buffer.
* `memory_safe_iff`: The same, in every reachable state.
-/

namespace Cse5462

/-- A use of `recvbuf`: the look for a duplicate, the copy of a block of some
    length, the look of the delivery loops, which also send what they find, and
    the clearing of what has been passed on. -/
inductive Access where
  | probe (i : Int)
  | copy (i length : Int)
  | scan (i : Int)
  | clear (i : Int)
  deriving DecidableEq, Repr

/-- The slot is one of the buffer, and the length one of a block. -/
def Access.Safe : Access → Prop
  | .probe i => 0 ≤ i ∧ i ≤ 63
  | .copy i length => (0 ≤ i ∧ i ≤ 63) ∧ 0 ≤ length ∧ length ≤ 1000
  | .scan i => 0 ≤ i ∧ i ≤ 63
  | .clear i => 0 ≤ i ∧ i ≤ 63

/-- The slots that `passLoop` looks at. -/
def scans (recvbuf : Int → Block) : Nat → Int → List Access
  | 0, _ => []
  | n + 1, i => if (recvbuf i).isEmpty then [.scan i] else .scan i :: scans recvbuf n (i + 1)

/-- The slots from `a` up to, not including, `b`, as they are cleared. -/
def clears (a b : Int) : List Access :=
  (List.range (b - a).toNat).map fun n : Nat => .clear (a + n)

namespace Server

/-- The slots that `flush` uses. -/
def deliveries (s : Server) (length : Nat) : List Access :=
  if s.laf > s.lfr then
    let n := (s.laf - s.lfr).toNat
    let i := (passLoop s.recvbuf length n (s.lfr + 1)).1
    scans s.recvbuf n (s.lfr + 1) ++ clears (s.lfr + 1) i
  else if s.laf < s.lfr then
    let n := (sendRecvBufSize - (s.lfr + 1)).toNat
    let i := (passLoop s.recvbuf length n (s.lfr + 1)).1
    let recvbuf := bzeroSlots s.recvbuf (s.lfr + 1) i
    scans s.recvbuf n (s.lfr + 1) ++ clears (s.lfr + 1) i ++
      -- The second loop is only entered when the first one has passed slot 63.
      if i ≠ s.lfr + 1 ∧ ¬ i < sendRecvBufSize then
        let m := (s.laf + 1).toNat
        scans recvbuf m 0 ++ clears 0 (passLoop recvbuf length m 0).1
      else []
  else []

/-- The uses of `recvbuf` in an iteration on a datagram that passed the
    checksum. The list ends where the program has left the buffer. -/
def accesses (s : Server) (d : Datagram) : List Access :=
  let seqNum := d.packet.seq
  let length : Int := d.length - headerSize
  if s.accepts seqNum then
    .probe seqNum ::
      if (0 ≤ seqNum ∧ seqNum < sendRecvBufSize) ∧ (s.recvbuf seqNum).isEmpty then
        .copy seqNum length ::
          if 0 ≤ length then
            let slot := (s.recvbuf seqNum).copy d.packet.body length.toNat
            deliveries { s with recvbuf := Function.update s.recvbuf seqNum slot } length.toNat
          else []
      else []
  else []

/-- What the server relies on: a number that is accepted is a slot, and a
    datagram for an empty slot has at least its headers. -/
def Guarded (s : Server) (d : Datagram) : Prop :=
  s.accepts d.packet.seq → (0 ≤ d.packet.seq ∧ d.packet.seq ≤ 63) ∧
    (s.recvbuf d.packet.seq = Block.zero → headerSize ≤ d.length)

end Server

theorem scans_range (recvbuf : Int → Block) (n : Nat) (i : Int) (a : Access)
    (h : a ∈ scans recvbuf n i) : ∃ j, a = .scan j ∧ i ≤ j ∧ j < i + n := by
  induction n generalizing i with
  | zero => cases h
  | succ n ih =>
      rw [scans] at h
      split at h
      · exact ⟨i, List.mem_singleton.mp h, Int.le_refl i, by omega⟩
      · rcases List.mem_cons.mp h with rfl | h
        · exact ⟨i, rfl, Int.le_refl i, by omega⟩
        · rcases ih (i + 1) h with ⟨j, hj, hrange⟩
          exact ⟨j, hj, by omega, by omega⟩

theorem clears_range (i j : Int) (a : Access) (h : a ∈ clears i j) :
    ∃ k, a = .clear k ∧ i ≤ k ∧ k < j := by
  rcases List.mem_map.mp h with ⟨n, hn, rfl⟩
  rw [List.mem_range] at hn
  exact ⟨i + n, rfl, by omega, by omega⟩

namespace Server

variable {s : Server} {d : Datagram}

/-- A loop that starts at slot `i` and has `n` slots in its range uses none but
    these. -/
theorem loop_safe (recvbuf : Int → Block) (length n : Nat) (i : Int) (hi : 0 ≤ i)
    (hn : i + n ≤ 64) (a : Access)
    (h : a ∈ scans recvbuf n i ++ clears i (passLoop recvbuf length n i).1) : a.Safe := by
  rcases List.mem_append.mp h with h | h
  · rcases scans_range recvbuf n i a h with ⟨j, rfl, hj, hj'⟩
    exact ⟨by omega, by omega⟩
  · have hle := passLoop_le recvbuf length n i
    rcases clears_range i _ a h with ⟨j, rfl, hj, hj'⟩
    exact ⟨by omega, by omega⟩

/-- Delivery stays inside of the buffer. -/
theorem deliveries_safe (h : s.Shaped) (length : Nat) : ∀ a ∈ s.deliveries length, a.Safe := by
  intro a ha
  have hcur := h.cursors
  have hsize : sendRecvBufSize = 64 := rfl
  unfold deliveries at ha
  by_cases hplain : s.laf > s.lfr
  · rw [if_pos hplain] at ha
    exact loop_safe _ length _ _ (by omega) (by omega) a ha
  · rw [if_neg hplain] at ha
    by_cases hwrap : s.laf < s.lfr
    · rw [if_pos hwrap] at ha
      -- The first loop goes to the end of the buffer, the second one from its start.
      rcases List.mem_append.mp ha with ha | ha
      · exact loop_safe _ length _ _ (by omega) (by omega) a ha
      · split at ha
        · exact loop_safe _ length _ _ (by omega) (by omega) a ha
        · cases ha
    · rw [if_neg hwrap] at ha
      cases ha

/-- An iteration stays inside of the buffer, and copies no more than a block,
    exactly if what the server relies on holds. -/
theorem accesses_safe_iff (h : s.Shaped) (hlen : d.length ≤ packetSize) :
    (∀ a ∈ s.accesses d, a.Safe) ↔ s.Guarded d := by
  have hsize : sendRecvBufSize = 64 := rfl
  have hheader : headerSize = 56 := rfl
  have hpacket : packetSize = 1056 := rfl
  unfold accesses Guarded
  dsimp only
  by_cases hacc : s.accepts d.packet.seq
  · rw [if_pos hacc, List.forall_mem_cons, imp_iff_right hacc]
    refine and_congr_right ?_
    intro hseq
    have hslot : 0 ≤ d.packet.seq ∧ d.packet.seq < sendRecvBufSize := by
      have := hseq.1
      have := hseq.2
      omega
    by_cases hempty : s.recvbuf d.packet.seq = Block.zero
    · rw [if_pos ⟨hslot, (Block.isEmpty_iff _).mpr hempty⟩, List.forall_mem_cons,
        imp_iff_right hempty]
      constructor
      · rintro ⟨⟨-, hlength, -⟩, -⟩
        omega
      · -- With the headers there, the rest is what delivery does.
        intro hlength
        refine ⟨⟨hseq, by omega, by omega⟩, ?_⟩
        rw [if_pos (by omega)]
        exact deliveries_safe (h.stored hacc _) _
    · rw [if_neg fun hc => hempty ((Block.isEmpty_iff _).mp hc.2)]
      exact ⟨fun _ hzero => absurd hzero hempty, fun _ a ha => by cases ha⟩
  · rw [if_neg hacc]
    exact ⟨fun _ hacc' => absurd hacc' hacc, fun _ a ha => by cases ha⟩

/-- The server after an iteration on the bytes that it receives. -/
def heard (s : Server) (bytes : List UInt8) : Option Server := (s.hear bytes).map Prod.fst

theorem shaped_heard {s' : Server} {bytes : List UInt8} (h : s.Shaped)
    (hstep : s.heard bytes = some s') : s'.Shaped := by
  rcases Option.map_eq_some_iff.mp hstep with ⟨r, hr, rfl⟩
  unfold hear at hr
  split at hr
  · rcases Option.map_eq_some_iff.mp hr with ⟨q, hq, rfl⟩
    rcases Option.map_eq_some_iff.mp hq with ⟨⟨t, out⟩, ht, rfl⟩
    exact shaped_receive s _ h t out ht
  · cases hr
    exact h

end Server

/-- In every state that datagrams lead the server to, and for every datagram of
    up to the size of a packet that passes the test, the iteration stays inside
    of the buffer and copies no more than a block exactly if a number that is
    accepted is a slot and a datagram for an empty slot has its headers. -/
theorem memory_safe_iff (ds : List (List UInt8)) (s : Server)
    (hrun : Machine.run Server.heard Server.init ds = some s) (bytes : List UInt8)
    (hlen : bytes.length ≤ packetSize) (d : Datagram) (hd : toDatagram bytes = some d) :
    (∀ a ∈ s.accesses d, a.Safe) ↔ s.Guarded d := by
  have hshaped : s.Shaped := Machine.run_invariant
    (fun s bytes s' hs hstep => Server.shaped_heard hs hstep) ds Server.init s
    Server.shaped_init hrun
  refine Server.accesses_safe_iff hshaped ?_
  rcases Option.map_eq_some_iff.mp hd with ⟨p, -, rfl⟩
  exact hlen

/-- The bytes of a packet that carries a block of the sequence number. -/
def wholePacket (seq : Int) : List UInt8 :=
  writePacket (Bytes.zeros packetSize) ⟨seq, ⟨0, 0⟩, Block.single 1⟩

theorem toDatagram_wholePacket (seq : Int) (h : FitsInt seq) :
    toDatagram (wholePacket seq) = some (fullSize ⟨seq, ⟨0, 0⟩, Block.single 1⟩) :=
  toDatagram_writePacket (Bytes.zeros packetSize) _ (Bytes.length_zeros _)
    (checkField_zeros packetSize (by decide)) h
    (show Timeval.Fits ⟨0, 0⟩ by unfold Timeval.Fits; decide)

/-- Packet 1 has come first and waits in its slot. Packet 0 is stored in front of it,
    and both are passed on and cleared. -/
theorem memory_safe_two :
    ∃ s, Machine.run Server.heard Server.init [wholePacket 1] = some s ∧
      Access.copy 0 1000 ∈ s.accesses (fullSize ⟨0, ⟨0, 0⟩, Block.single 1⟩) ∧
      Access.clear 1 ∈ s.accesses (fullSize ⟨0, ⟨0, 0⟩, Block.single 1⟩) ∧
      ∀ a ∈ s.accesses (fullSize ⟨0, ⟨0, 0⟩, Block.single 1⟩), a.Safe := by
  have hread : Server.init.heard (wholePacket 1)
      = (Server.init.receive (fullSize ⟨1, ⟨0, 0⟩, Block.single 1⟩)).map Prod.fst := by
    unfold Server.heard Server.hear Server.step
    rw [toDatagram_wholePacket 1 (by unfold FitsInt; decide)]
    dsimp only
    rw [Option.map_map, Option.map_map]
    exact congrArg (fun f => Option.map f _) rfl
  have hval : ((Server.init.receive (fullSize ⟨1, ⟨0, 0⟩, Block.single 1⟩)).map Prod.fst).map
      (fun s => (s.accesses (fullSize ⟨0, ⟨0, 0⟩, Block.single 1⟩)).filter
        fun a => a = .copy 0 1000 ∨ a = .clear 1) = some [.copy 0 1000, .clear 1] := by
    decide +kernel
  rcases Option.map_eq_some_iff.mp hval with ⟨s, hs, hmem⟩
  have hrun : Machine.run Server.heard Server.init [wholePacket 1] = some s := by
    rw [Machine.run_cons, hread, hs]
    rfl
  have hfilter : ∀ a ∈ [Access.copy 0 1000, .clear 1],
      a ∈ s.accesses (fullSize ⟨0, ⟨0, 0⟩, Block.single 1⟩) := fun a ha =>
    List.mem_of_mem_filter (hmem ▸ ha)
  refine ⟨s, hrun, hfilter _ (by decide), hfilter _ (by decide), ?_⟩
  exact (memory_safe_iff _ s hrun (wholePacket 0)
    (Nat.le_of_eq (length_writePacket _ _ (Bytes.length_zeros _))) _
    (toDatagram_wholePacket 0 (by unfold FitsInt; decide))).mpr
    fun _ => ⟨by decide, fun _ => by decide⟩

/-- An empty datagram reaches the server before any other. It passes the test,
    and the length of the block that is copied is -56. -/
theorem empty_datagram_unsafe :
    ∃ d, toDatagram [] = some d ∧ Access.copy 0 (-56) ∈ Server.init.accesses d ∧
      ¬ ∀ a ∈ Server.init.accesses d, a.Safe := by
  have hmem : Access.copy 0 (-56) ∈ Server.init.accesses ⟨0, ⟨0, ⟨0, 0⟩, Block.zero⟩⟩ := by
    have hempty : (Server.init.recvbuf 0).isEmpty := Block.isEmpty_zero
    unfold Server.accesses
    dsimp only
    rw [if_pos (by decide), if_pos ⟨by decide, hempty⟩]
    exact List.mem_cons_of_mem _ List.mem_cons_self
  refine ⟨_, toDatagram_nil, hmem, ?_⟩
  intro h
  have hsafe := h _ hmem
  exact absurd hsafe.2.1 (by decide)

end Cse5462
