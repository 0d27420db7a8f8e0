import Cse5462.Lib.Machine
import Cse5462.Tcpd.Server

/-!
# What an Acknowledgement Promises

The server acknowledges every packet that passes the checksum, whatever becomes
of its block. The client clears the slot of an acknowledged frame and never sends
it again, so the acknowledgement should promise that the block is not lost: it
has been passed to ftps, or waits in its slot, and was not discarded.

Two frames may carry the same bytes, and then it does not help the one that was
discarded that the other one was passed on. So the server is run with a record of
whose block is where. The frame of each datagram is given with it, as a number
that the server does not look at. A datagram that is stored becomes the owner of
its slot, and what is passed to ftps is what the slots behind `lfr` hold, in their
order, so each piece is entered with the owner of its slot.

## Main definitions

* `Framed`: A datagram and the frame whose block it carries.
* `Labelled`: The server with the record.
* `Labelled.step`: A step of both.
* `Labelled.Discards`: The block is lost to the server.
* `Labelled.AckSound`: The acknowledgement keeps its promise.
* `Labelled.Wanted`: The block can be stored, or the server has it.

## Theorems

* `recorded_step`: What has an owner has been stored.
* `ackSound_of_stored`: A packet that is stored is passed on at once or held.
* `ack_sound_iff`: When an acknowledgement keeps its promise.
-/

namespace Cse5462

/-- A datagram, and the number of the frame whose block it carries. -/
structure Framed where
  frame : Nat
  datagram : Datagram

/-- The server with a record: the frame whose block was stored last in each slot,
    the frames of all the blocks that were stored, and what was passed to ftps with
    the frame that it is from. -/
structure Labelled where
  server : Server
  owner : Int → Option Nat
  stored : List Nat
  passed : List (Option Nat × List UInt8)

/-- The datagram is stored: its number is accepted and the slot is empty. -/
def Server.Stores (s : Server) (d : Datagram) : Prop :=
  s.accepts d.packet.seq ∧ s.recvbuf d.packet.seq = Block.zero

instance (s : Server) (d : Datagram) : Decidable (s.Stores d) :=
  decidable_of_iff (s.accepts d.packet.seq ∧ (s.recvbuf d.packet.seq).isEmpty = true)
    (and_congr_right fun _ => Block.isEmpty_iff _)

namespace Labelled

def init : Labelled :=
  { server := Server.init, owner := fun _ => none, stored := [], passed := [] }

/-- The owners of the slots once the datagram has been looked at. -/
def owners (v : Labelled) (f : Framed) : Int → Option Nat :=
  if v.server.Stores f.datagram then
    Function.update v.owner f.datagram.packet.seq (some f.frame)
  else v.owner

/-- What is added to the record in a step to `s` that passes on `out`. -/
def note (v : Labelled) (f : Framed) (s : Server) (out : List (List UInt8)) : Labelled :=
  { server := s
    owner := v.owners f
    stored := if v.server.Stores f.datagram then f.frame :: v.stored else v.stored
    -- The pieces come out of the slots behind `lfr`, round the end of the buffer.
    passed := v.passed ++
      out.mapIdx fun t bytes => (v.owners f ((v.server.lfr + 1 + t) % 64), bytes) }

/-- The server takes a datagram that passed the checksum, whatever it holds. -/
def step (v : Labelled) (f : Framed) : Option Labelled :=
  (v.server.step f.datagram).map fun o => v.note f o.1 o.2.1

/-- The slot of the packet holds its block, and as that of this frame. -/
def Holds (v : Labelled) (frame : Nat) (p : Packet) : Prop :=
  v.owner p.seq = some frame ∧ v.server.recvbuf p.seq = p.body

/-- The packet is not stored, and no packet of its frame has been. -/
def Discards (v : Labelled) (frame : Nat) (p : Packet) : Prop :=
  ¬ v.server.Stores (fullSize p) ∧ frame ∉ v.stored

/-- If the packet is acknowledged, the block of its frame was passed on before, is
    passed on now or is held in its slot, and has not been discarded. -/
def AckSound (v : Labelled) (frame : Nat) (p : Packet) : Prop :=
  ∀ s' out ack, v.server.step (fullSize p) = some (s', out, ack) → ack.ackSeq = p.seq →
    ((some frame, p.body.bytes) ∈ (v.note ⟨frame, fullSize p⟩ s' out).passed ∨
      (v.note ⟨frame, fullSize p⟩ s' out).Holds frame p) ∧ ¬ v.Discards frame p

/-- The number of the packet is accepted and its slot is empty, or the block of its
    frame was passed on before, or is held in its slot. -/
def Wanted (v : Labelled) (frame : Nat) (p : Packet) : Prop :=
  v.server.Stores (fullSize p) ∨ (some frame, p.body.bytes) ∈ v.passed ∨ v.Holds frame p

/-- What has an owner has been stored. -/
structure Recorded (v : Labelled) : Prop where
  owner : ∀ i n, v.owner i = some n → n ∈ v.stored
  passed : ∀ n bytes, (some n, bytes) ∈ v.passed → n ∈ v.stored

theorem recorded_init : init.Recorded := ⟨nofun, nofun⟩

theorem recorded_step (v : Labelled) (f : Framed) (v' : Labelled) (h : v.Recorded)
    (hstep : step v f = some v') : v'.Recorded := by
  rcases Option.map_eq_some_iff.mp hstep with ⟨⟨s, out, ack⟩, -, rfl⟩
  have howner : ∀ i n, v.owners f i = some n → n ∈ (v.note f s out).stored := by
    intro i n hi
    unfold owners at hi
    unfold note
    dsimp only
    by_cases hstores : v.server.Stores f.datagram
    · rw [if_pos hstores] at hi ⊢
      by_cases hseq : i = f.datagram.packet.seq
      · rw [hseq, Function.update_self, Option.some.injEq] at hi
        exact hi ▸ List.mem_cons_self
      · rw [Function.update_of_ne hseq] at hi
        exact List.mem_cons_of_mem _ (h.owner i n hi)
    · rw [if_neg hstores] at hi ⊢
      exact h.owner i n hi
  refine ⟨howner, fun n bytes hn => ?_⟩
  rcases List.mem_append.mp hn with hold | hnew
  · -- What was stored stays in the record.
    have := h.passed n bytes hold
    unfold note
    dsimp only
    split
    · exact List.mem_cons_of_mem _ this
    · exact this
  · rcases List.mem_mapIdx.mp hnew with ⟨t, ht, heq⟩
    exact howner _ n (Prod.mk.inj heq).1

/-- A packet that is stored is passed on at once or held. -/
theorem ackSound_of_stored (v : Labelled) (frame : Nat) (p : Packet) (h0 : 0 ≤ p.seq)
    (h63 : p.seq < 64) (hstores : v.server.Stores (fullSize p)) : AckSound v frame p := by
  intro s' out ack hstep _
  refine ⟨?_, fun hdiscards => hdiscards.1 hstores⟩
  rw [Server.step, Server.receive_full v.server p hstores.1 h0 h63 hstores.2, Option.map_some,
    Option.some.injEq, Prod.mk.injEq, Prod.mk.injEq] at hstep
  rcases hstep with ⟨rfl, rfl, -⟩
  have howner : v.owners ⟨frame, fullSize p⟩ p.seq = some frame := by
    unfold owners
    rw [if_pos hstores]
    exact Function.update_self ..
  -- Delivery leaves the slot alone or has sent what was in it.
  have hkeeps := Server.flush_keeps
    { v.server with recvbuf := Function.update v.server.recvbuf p.seq p.body } buffSize p.seq h0 h63
  simp only [Function.update_self] at hkeeps
  rw [List.take_of_length_le (Nat.le_of_eq p.body.length_eq)] at hkeeps
  rcases hkeeps with hheld | ⟨t, ht, hsent⟩
  · exact Or.inr ⟨howner, hheld⟩
  · refine Or.inl (List.mem_append_right _ (List.mem_of_getElem? (i := t) ?_))
    rw [List.getElem?_mapIdx, hsent, Option.map_some, ht, howner]

/-- A packet that changes nothing keeps the promise of its acknowledgement only
    by what was there before. -/
theorem ackSound_of_unchanged (v : Labelled) (hv : v.Recorded) (frame : Nat) (p : Packet)
    (hstores : ¬ v.server.Stores (fullSize p))
    (hrec : v.server.receive (fullSize p) = some (v.server, [])) :
    AckSound v frame p ↔ (some frame, p.body.bytes) ∈ v.passed ∨ v.Holds frame p := by
  have hstep : v.server.step (fullSize p)
      = some (v.server, [], { ackSeq := p.seq, timeStamp := p.timeStamp }) := by
    rw [Server.step, hrec, Option.map_some]
    rfl
  have hnote : v.note ⟨frame, fullSize p⟩ v.server [] = v := by
    unfold note owners
    rw [if_neg hstores, if_neg hstores, List.mapIdx_nil, List.append_nil]
  constructor
  · intro h
    have hsound := (h _ _ _ hstep rfl).1
    rwa [hnote] at hsound
  · intro h s' out ack hstep' _
    rw [hstep, Option.some.injEq, Prod.mk.injEq, Prod.mk.injEq] at hstep'
    rcases hstep' with ⟨rfl, rfl, -⟩
    rw [hnote]
    refine ⟨h, fun hdiscards => hdiscards.2 ?_⟩
    rcases h with hpassed | hheld
    · exact hv.passed _ _ hpassed
    · exact hv.owner _ _ hheld.1

end Labelled

/-- In every state that datagrams lead to, the acknowledgement of a packet keeps
    its promise exactly if the packet is wanted. -/
theorem ack_sound_iff (fs : List Framed) (v : Labelled)
    (hrun : Machine.run Labelled.step Labelled.init fs = some v) (frame : Nat) (p : Packet)
    (h0 : 0 ≤ p.seq) (h63 : p.seq < 64) : v.AckSound frame p ↔ v.Wanted frame p := by
  have hv : v.Recorded := Machine.run_invariant Labelled.recorded_step fs _ v
    Labelled.recorded_init hrun
  by_cases hstores : v.server.Stores (fullSize p)
  · exact ⟨fun _ => Or.inl hstores, fun _ => v.ackSound_of_stored frame p h0 h63 hstores⟩
  · -- The number is outside of the window, or the slot is full.
    have hrec : v.server.receive (fullSize p) = some (v.server, []) := by
      by_cases hacc : v.server.accepts p.seq
      · exact Server.receive_duplicate _ _ h0 h63 fun hempty => hstores ⟨hacc, hempty⟩
      · exact Server.receive_outside _ _ hacc
    rw [v.ackSound_of_unchanged hv frame p hstores hrec]
    exact ⟨Or.inr, fun h => h.resolve_left hstores⟩

/-- A frame of a transfer of equal blocks. -/
def equalFrame (n : Nat) : Framed :=
  { frame := n, datagram := fullSize ⟨n % 64, ⟨0, 0⟩, Block.single 1⟩ }

/-- Frame 1 comes before frame 0, and both are passed on. Frame 0 is then repeated. -/
theorem ack_sound_repeated :
    ∃ v, Machine.run Labelled.step Labelled.init [equalFrame 1, equalFrame 0] = some v ∧
      v.passed.length = 2 ∧ (v.AckSound 0 (equalFrame 0).datagram.packet ↔
        v.Wanted 0 (equalFrame 0).datagram.packet) := by
  have hrun : (Machine.run Labelled.step Labelled.init [equalFrame 1, equalFrame 0]).map
      (fun v => v.passed.length) = some 2 := by
    decide +kernel
  rcases Option.map_eq_some_iff.mp hrun with ⟨v, hv, hlen⟩
  exact ⟨v, hv, hlen, ack_sound_iff _ v hv 0 _ (by decide) (by decide)⟩

/-- Frame 0 has been passed on. Frame 21 carries the same bytes and is outside of
    the window: it is acknowledged, and its block is neither passed on nor held. -/
theorem ack_of_discarded_block :
    ∃ v, Machine.run Labelled.step Labelled.init [equalFrame 0] = some v ∧
      Block.single 1 ≠ Block.zero ∧ v.Discards 21 (equalFrame 21).datagram.packet ∧
      ¬ v.AckSound 21 (equalFrame 21).datagram.packet := by
  have hrun : (Machine.run Labelled.step Labelled.init [equalFrame 0]).map (fun v =>
      (decide (v.server.Stores (equalFrame 21).datagram), v.stored, v.passed.map Prod.fst,
        v.owner 21)) = some (false, [0], [some 0], none) := by
    decide +kernel
  rcases Option.map_eq_some_iff.mp hrun with ⟨v, hv, hval⟩
  simp only [Prod.mk.injEq, decide_eq_false_iff_not] at hval
  rcases hval with ⟨hstores, hstored, hpassed, howner⟩
  refine ⟨v, hv, Block.single_ne_zero 1 (by decide), ⟨hstores, by rw [hstored]; decide⟩, ?_⟩
  intro hsound
  rcases (ack_sound_iff _ v hv 21 _ (by decide) (by decide)).mp hsound with h | h | h
  · exact hstores h
  · have hmem := List.mem_map_of_mem (f := Prod.fst) h
    rw [hpassed] at hmem
    exact absurd hmem (by decide)
  · exact absurd (howner.symm.trans h.1) (by decide)

end Cse5462
