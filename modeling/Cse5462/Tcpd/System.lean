import Cse5462.Tcpd.Client
import Cse5462.Tcpd.Reassembly

/-!
# The Whole Transfer

The client, the server, and the network between them, on a transfer `b` that
ftpc hands over block by block.

The network keeps every packet and every acknowledgement that was ever sent. It
delivers any of them at any time, so it loses, duplicates and reorders; what is
garbled fails its checksum and counts as lost. Each message carries the number
of the frame that it is about, which the programs do not see. A message about
frame `n` is delivered only as long as frame `n + 44` has not been sent for the
first time: with a window of 20 and 64 sequence numbers, one that came later
could be taken for another frame.

A packet is about the frame whose block was the last to be read into its slot.
That is the frame it is sent for, except that a resend request may be answered
after the slot has been filled with a later block.

## Main definitions

* `Copy`: A message in the network.
* `System`: Both ends, the network, and the record of the transfer.
* `SystemEvent`: A step of either end.
* `System.step`: The transfer after an event.
* `System.InPrefix`: What ftps has received is a prefix of the transfer.

## Theorems

* `lastIn_spec`: The last frame with a sequence number.
* `Fed`, `clientEvent_fed`: What the surroundings let happen to the client.
* `clientEvent_cases`: How it happens.
-/

namespace Cse5462

/-- A message in the network, and the number of the frame it is about. -/
structure Copy (α : Type) where
  frame : Nat
  message : α

/-- Client and server, the messages that have been sent, the number of blocks
    that the client has read from ftpc and of frames that it has sent for the
    first time, and the datagrams that the server has passed to ftps. -/
structure System where
  client : Client
  server : Server
  filled : Nat
  sent : Nat
  packets : List (Copy Packet)
  acks : List (Copy Ack)
  passed : List (List UInt8)

/-- A step of the transfer: ftpc hands over the next block, message number `i`
    is delivered, the latest counted as 0, or the client does anything else. -/
inductive SystemEvent where
  | block
  | ack (i : Nat) (now : Timeval)
  | packet (i : Nat)
  | client (e : ClientEvent)

/-- The last of the first `filled` frames that has the sequence number `seq`. -/
def lastIn (filled : Nat) (seq : Int) : Nat :=
  ((filled : Int) - 1 - ((filled : Int) - 1 - seq) % 64).toNat

/-- If there is a frame with that number, `lastIn` has it too, and is less than
    64 frames from the end. -/
theorem lastIn_spec (filled n : Nat) (hn : n < filled) :
    n ≤ lastIn filled (seqOf n) ∧ lastIn filled (seqOf n) < filled ∧
      filled ≤ lastIn filled (seqOf n) + 64 ∧ seqOf (lastIn filled (seqOf n)) = seqOf n := by
  unfold lastIn seqOf
  omega

/-- A frame less than 64 frames from the end is the last one of its number. -/
theorem lastIn_eq (filled n : Nat) (hn : n < filled) (hlast : filled ≤ n + 64) :
    lastIn filled (seqOf n) = n := by
  unfold lastIn seqOf
  omega

namespace System

/-- Both ends before anything has happened. -/
def init (sendbuf : Int → Block) (cell : Heap) (start : Timeval) : System :=
  { client := Client.init sendbuf cell start, server := Server.init, filled := 0, sent := 0,
    packets := [], acks := [], passed := [] }

/-- A step of the client that needs neither a block nor an acknowledgement. -/
def own : ClientEvent → Bool
  | .refill _ _ => false
  | .ack _ _ _ => false
  | _ => true

/-- What a step of the transfer is for the client. -/
def clientEvent (b : Nat → Block) (y : System) : SystemEvent → Option ClientEvent
  | .block => some (.refill (b y.filled) buffSize)
  | .ack i now =>
      -- The acknowledgement is delivered only in time.
      match y.acks[i]? with
      | some a =>
          if y.sent ≤ a.frame + 44 then some (.ack a.message.ackSeq a.message.timeStamp now)
          else none
      | none => none
  | .packet _ => none
  | .client e => if own e then some e else none

/-- The number of blocks read, after a step of the client. -/
def filledAfter (filled : Nat) : ClientEvent → Nat
  | .refill _ _ => filled + 1
  | _ => filled

/-- The number of frames sent for the first time, after a step of the client
    and the packet that it sent. -/
def sentAfter (sent : Nat) : ClientEvent → Option Packet → Nat
  | .send _, some _ => sent + 1
  | _, _ => sent

/-- The packets in the network, after a step of the client. -/
def packetsAfter (y : System) : Option Packet → List (Copy Packet)
  -- The packet is about the last frame whose block was read into its slot.
  | some p => { frame := lastIn y.filled p.seq, message := p } :: y.packets
  | none => y.packets

/-- A step of the client, on the record of the transfer. -/
def drive (top : Int) (y : System) (e : ClientEvent) : Option System :=
  (y.client.step top e).map fun r =>
    { y with
      client := r.1
      filled := filledAfter y.filled e
      sent := sentAfter y.sent e r.2
      packets := y.packetsAfter r.2 }

/-- A packet reaches the server, which answers it. -/
def arrive (y : System) (i : Nat) : Option System :=
  match y.packets[i]? with
  | some x =>
      if y.sent ≤ x.frame + 44 then
        (y.server.step (fullSize x.message)).map fun o =>
          { y with
            server := o.1
            acks := { frame := x.frame, message := o.2.2 } :: y.acks
            passed := y.passed ++ o.2.1 }
      else none
  | none => none

/-- A step of the transfer `b`. -/
def step (b : Nat → Block) (top : Int) (y : System) : SystemEvent → Option System
  | .packet i => y.arrive i
  | e => (y.clientEvent b e).bind (y.drive top)

/-- What ftps has received is a prefix of the blocks that ftpc has handed over. -/
def InPrefix (b : Nat → Block) (y : System) : Prop :=
  ∃ k, k ≤ y.filled ∧ y.passed = (List.range k).map fun n => (b n).bytes

/-- What can happen to the client: the next block is there, an acknowledgement
    is delivered in time, or the step is one of its own. -/
inductive Fed (b : Nat → Block) (y : System) : ClientEvent → Prop where
  | block : Fed b y (.refill (b y.filled) buffSize)
  | ack (a : Copy Ack) (hmem : a ∈ y.acks) (hfresh : y.sent ≤ a.frame + 44) (now : Timeval) :
      Fed b y (.ack a.message.ackSeq a.message.timeStamp now)
  | own (e : ClientEvent) (h : own e = true) : Fed b y e

theorem clientEvent_fed (b : Nat → Block) (y : System) (e : SystemEvent) (ce : ClientEvent)
    (h : y.clientEvent b e = some ce) : Fed b y ce := by
  cases e with
  | block =>
      cases h
      exact .block
  | ack i now =>
      simp only [clientEvent] at h
      split at h
      · rename_i a ha
        split at h
        · rename_i hfresh
          cases h
          exact .ack a (List.mem_of_getElem? ha) hfresh now
        · cases h
      · cases h
  | packet i => cases h
  | client e =>
      simp only [clientEvent] at h
      split at h
      · rename_i hown
        cases h
        exact .own _ hown
      · cases h

/-- The same by the step of the transfer. -/
theorem clientEvent_cases (b : Nat → Block) (y : System) (e : SystemEvent) (ce : ClientEvent)
    (h : y.clientEvent b e = some ce) :
    (e = .block ∧ ce = .refill (b y.filled) buffSize) ∨
    (∃ i now a, e = .ack i now ∧ y.acks[i]? = some a ∧ y.sent ≤ a.frame + 44 ∧
      ce = .ack a.message.ackSeq a.message.timeStamp now) ∨
    (e = .client ce ∧ own ce = true) := by
  cases e with
  | block =>
      cases h
      exact Or.inl ⟨rfl, rfl⟩
  | ack i now =>
      simp only [clientEvent] at h
      split at h
      · rename_i a ha
        split at h
        · rename_i hfresh
          cases h
          exact Or.inr (Or.inl ⟨i, now, a, rfl, ha, hfresh, rfl⟩)
        · cases h
      · cases h
  | packet i => cases h
  | client e =>
      simp only [clientEvent] at h
      split at h
      · rename_i hown
        cases h
        exact Or.inr (Or.inr ⟨rfl, hown⟩)
      · cases h

/-- A step is a delivery to the server or a step of the client. -/
theorem step_cases (b : Nat → Block) (top : Int) (y y' : System) (e : SystemEvent)
    (h : y.step b top e = some y') :
    (∃ x ∈ y.packets, y.sent ≤ x.frame + 44 ∧ ∃ s' out ack,
      y.server.step (fullSize x.message) = some (s', out, ack) ∧
      y' = { y with
        server := s'
        acks := { frame := x.frame, message := ack } :: y.acks
        passed := y.passed ++ out }) ∨
    (∃ ce c' out, y.clientEvent b e = some ce ∧ y.client.step top ce = some (c', out) ∧
      y' = { y with
        client := c'
        filled := filledAfter y.filled ce
        sent := sentAfter y.sent ce out
        packets := y.packetsAfter out }) := by
  -- All steps but deliveries to the server are steps of the client.
  have hdrive : (y.clientEvent b e).bind (y.drive top) = some y' → ∃ ce c' out,
      y.clientEvent b e = some ce ∧ y.client.step top ce = some (c', out) ∧
      y' = { y with
        client := c'
        filled := filledAfter y.filled ce
        sent := sentAfter y.sent ce out
        packets := y.packetsAfter out } := by
    intro h
    rcases Option.bind_eq_some_iff.mp h with ⟨ce, hce, hy'⟩
    rcases Option.map_eq_some_iff.mp hy' with ⟨⟨c', out⟩, hc, rfl⟩
    exact ⟨ce, c', out, hce, hc, rfl⟩
  cases e with
  | packet i =>
      simp only [step, arrive] at h
      split at h
      · rename_i x hx
        split at h
        · rename_i hfresh
          rcases Option.map_eq_some_iff.mp h with ⟨⟨s', out, ack⟩, hs, rfl⟩
          exact Or.inl ⟨x, List.mem_of_getElem? hx, hfresh, s', out, ack, hs, rfl⟩
        · cases h
      · cases h
  | block => exact Or.inr (hdrive h)
  | ack i now => exact Or.inr (hdrive h)
  | client e => exact Or.inr (hdrive h)

end System

end Cse5462
