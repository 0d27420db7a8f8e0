import Cse5462.Tcpd.EndToEnd
import Cse5462.Tcpd.ErrorDetection
import Cse5462.Tcpd.Survival

/-!
# The Transfer on the Wire

The transfer once more, with the bytes that are sent. Both ends build what they
send in their records, the network holds it as bytes, and what it delivers in
place of a message need not be the message. The checksum is all that the other
end has to tell the two apart.

Whatever the network does to a message, the checksum either notices it or has
nothing to notice. Under that condition the programs on the wire do what the
programs do that hand packets and acknowledgements to each other: a packet that
fails the test is as good as lost, and an acknowledgement that fails it is as
good as none. The first acknowledgement may leave the server with a checksum
that is already wrong; to the transfer it is another one that is lost.

## Main definitions

* `Delivers`: What the network may make of a message.
* `Wired`: Both ends with their records, and the bytes in the network.
* `Wired.step`: A step of either end, on bytes.
* `Wired.Follows`: The transfer is in the state that the wire shows.

## Theorems

* `delivers_of_detectable`: The corruptions of the three kinds are noticed.
* `follows_step`: Each step on the wire is one step of the transfer, or none.
* `wire_refines`: Every run on the wire is a run of the transfer.
* `wire_delivery`: What ftps receives at the end of a noisy line is a prefix.
-/

namespace Cse5462

/-- What the network may deliver in place of a message of which the checksum
    covers `n` bytes: as many bytes, and the covered ones are those of the
    message or fail the test. -/
def Delivers (n : Nat) (message bytes : List UInt8) : Prop :=
  bytes.length = message.length ∧
    (Bytes.slice bytes 16 n = Bytes.slice message 16 n ∨ ¬ Intact (Bytes.slice bytes 16 n))

instance (n : Nat) (message bytes : List UInt8) : Decidable (Delivers n message bytes) := by
  unfold Delivers
  exact inferInstance

/-- A corruption of one of the three kinds is one of a packet that the checksum
    notices. -/
theorem delivers_of_detectable {message bytes e : List UInt8}
    (hmessage : message.length = packetSize) (hbytes : bytes.length = packetSize)
    (he : e.length = packetBytes) (herr : Detectable e)
    (hintact : Intact (Bytes.slice message 16 packetBytes))
    (hxor : Bytes.slice bytes 16 packetBytes
      = (Bytes.slice message 16 packetBytes).zipWith (· ^^^ ·) e) :
    Delivers packetBytes message bytes := by
  have hlen : (Bytes.slice message 16 packetBytes).length = packetBytes :=
    Bytes.length_slice (Nat.le_of_eq hmessage.symm)
  refine ⟨hbytes.trans hmessage.symm, Or.inr ?_⟩
  rw [hxor]
  exact not_intact_corrupted hlen he herr hintact

/-- Both ends with their records, the bytes in the network with the numbers of
    the frames they are about, and the record of the transfer. -/
structure Wired where
  sender : PacketSender
  receiver : AckSender
  filled : Nat
  sent : Nat
  packets : List (Copy (List UInt8))
  acks : List (Copy (List UInt8))
  passed : List (List UInt8)

/-- A step of the transfer on the wire: something is delivered in place of a
    message, or it is a step that does without the network. -/
inductive WiredEvent where
  | block
  | ack (i : Nat) (bytes : List UInt8) (now : Timeval)
  | packet (i : Nat) (bytes : List UInt8)
  | client (e : ClientEvent)

namespace Wired

/-- Both ends before anything has happened. -/
def init (memory memory' : List UInt8) (sendbuf : Int → Block) (cell : Heap) (start : Timeval) :
    Wired :=
  { sender := PacketSender.init memory sendbuf cell start, receiver := AckSender.init memory',
    filled := 0, sent := 0, packets := [], acks := [], passed := [] }

/-- What a step is for the client. A garbled acknowledgement is none. -/
def clientEvent (b : Nat → Block) (w : Wired) : WiredEvent → Option ClientEvent
  | .block => some (.refill (b w.filled) buffSize)
  | .ack i bytes now =>
      match w.acks[i]? with
      | some x =>
          if w.sent ≤ x.frame + 44 then
            match readAck bytes with
            | some a => some (.ack a.ackSeq a.timeStamp now)
            | none => some .noAck
          else none
      | none => none
  | .packet _ _ => none
  | .client e => if System.own e then some e else none

/-- A step of the client, which may send a packet. -/
def drive (top : Int) (w : Wired) (e : ClientEvent) : Option Wired :=
  (w.sender.step top e).map fun r =>
    { w with
      sender := r.1
      filled := System.filledAfter w.filled e
      sent := System.sentAfter w.sent e (r.2.map Prod.fst)
      packets :=
        match r.2 with
        | some (p, bytes) => { frame := lastIn w.filled p.seq, message := bytes } :: w.packets
        | none => w.packets }

/-- The server receives `bytes` in place of a packet, and answers them unless they
    are garbled. -/
def arrive (w : Wired) (i : Nat) (bytes : List UInt8) : Option Wired :=
  match w.packets[i]? with
  | some x =>
      if w.sent ≤ x.frame + 44 then
        (w.receiver.server.hear bytes).map fun r =>
          match r.2.2 with
          | some a =>
              let sent := writeAck w.receiver.ack a
              { w with
                receiver := { server := r.1, ack := clearAck sent }
                acks := { frame := x.frame, message := sent } :: w.acks
                passed := w.passed ++ r.2.1 }
          | none =>
              { w with
                receiver := { server := r.1, ack := clearAck w.receiver.ack }
                passed := w.passed ++ r.2.1 }
      else none
  | none => none

/-- A step of the transfer `b` on the wire. -/
def step (b : Nat → Block) (top : Int) (w : Wired) : WiredEvent → Option Wired
  | .packet i bytes => w.arrive i bytes
  | e => (w.clientEvent b e).bind (w.drive top)

/-- The step is one of a network whose damage the checksum notices, and of a
    clock that fits into its type. -/
structure Noisy (b : Nat → Block) (w : Wired) (e : WiredEvent) : Prop where
  packet : ∀ i bytes x, e = .packet i bytes → w.packets[i]? = some x →
    Delivers packetBytes x.message bytes
  ack : ∀ i bytes now x, e = .ack i bytes now → w.acks[i]? = some x →
    Delivers ackBytes x.message bytes
  clock : ∀ ce, w.clientEvent b e = some ce → PacketSender.ClockFits ce

/-- Both ends and the record of the transfer, without the network. -/
def ends (w : Wired) : System :=
  { client := w.sender.client, server := w.receiver.server, filled := w.filled, sent := w.sent,
    packets := [], acks := [], passed := w.passed }

/-- The step of the transfer, if it is one of the client, is harmless. -/
def Careful (b : Nat → Block) (w : Wired) (e : WiredEvent) : Prop :=
  ∀ ce, w.clientEvent b e = some ce → w.ends.Harmless ce

/-- The bytes are those of a packet, whole. -/
def IsPacket (c : Copy (List UInt8)) (x : Copy Packet) : Prop :=
  c.frame = x.frame ∧ c.message.length = packetSize ∧
    ∀ bytes, bytes.length = packetSize →
      Bytes.slice bytes 16 packetBytes = Bytes.slice c.message 16 packetBytes →
      toDatagram bytes = some (fullSize x.message)

/-- The bytes are those of an acknowledgement, or of none. -/
def IsAck (c : Copy (List UInt8)) (x : Copy Ack) : Prop :=
  c.frame = x.frame ∧ c.message.length = 56 ∧
    ∀ bytes, bytes.length = 56 →
      Bytes.slice bytes 16 ackBytes = Bytes.slice c.message 16 ackBytes →
      readAck bytes = some x.message ∨ readAck bytes = none

/-- The transfer is in the state that the wire shows. -/
structure Follows (w : Wired) (y : System) : Prop where
  client_eq : y.client = w.sender.client
  server_eq : y.server = w.receiver.server
  filled_eq : y.filled = w.filled
  sent_eq : y.sent = w.sent
  passed_eq : y.passed = w.passed
  packets : List.Forall₂ IsPacket w.packets y.packets
  acks : List.Forall₂ IsAck w.acks y.acks
  clear : w.sender.Clear
  ack_length : w.receiver.ack.length = 56

variable {b : Nat → Block} {top : Int} {w w' : Wired} {y : System} {c : Copy (List UInt8)}
  {bytes : List UInt8}

theorem readAck_of_not_intact (hlen : bytes.length = 56)
    (h : ¬ Intact (Bytes.slice bytes 16 ackBytes)) : readAck bytes = none := by
  rw [readAck_eq bytes hlen, if_neg h]

theorem toDatagram_of_not_intact (hlen : bytes.length = packetSize)
    (h : ¬ Intact (Bytes.slice bytes 16 packetBytes)) : toDatagram bytes = none := by
  unfold toDatagram readPacket
  dsimp only
  rw [recvBuffer_full hlen, if_neg h]
  rfl

/-- What arrives in place of a packet is taken for the packet or for none. -/
theorem IsPacket.delivered {x : Copy Packet} (h : IsPacket c x)
    (hd : Delivers packetBytes c.message bytes) :
    toDatagram bytes = some (fullSize x.message) ∨ toDatagram bytes = none := by
  have hlen : bytes.length = packetSize := hd.1.trans h.2.1
  rcases hd.2 with hsame | hnot
  · exact Or.inl (h.2.2 bytes hlen hsame)
  · exact Or.inr (toDatagram_of_not_intact hlen hnot)

/-- The same for an acknowledgement. -/
theorem IsAck.delivered {x : Copy Ack} (h : IsAck c x) (hd : Delivers ackBytes c.message bytes) :
    readAck bytes = some x.message ∨ readAck bytes = none := by
  have hlen : bytes.length = 56 := hd.1.trans h.2.1
  rcases hd.2 with hsame | hnot
  · exact h.2.2 bytes hlen hsame
  · exact Or.inr (readAck_of_not_intact hlen hnot)

/-- What the driver sends are the bytes of its packet. -/
theorem isPacket_sent {s s' : PacketSender} {e : ClientEvent} {p : Packet} (h : s.Clear)
    (he : PacketSender.ClockFits e) (hstep : s.step top e = some (s', some (p, bytes))) (n : Nat) :
    IsPacket ⟨n, bytes⟩ ⟨n, p⟩ := by
  refine ⟨rfl, ?_, fun buf => PacketSender.packetSurvives_of_clear h he s' p bytes buf hstep⟩
  rcases Option.map_eq_some_iff.mp hstep with ⟨⟨c', out⟩, -, hout⟩
  cases out with
  | none => cases hout
  | some q =>
      cases hout
      exact length_writePacket s.packet p h.length_eq

/-- What the server sends are the bytes of its acknowledgement, or garbled from
    the start. -/
theorem isAck_sent {s s' : Server} {a : Ack} {out : List (List UInt8)} {record : List UInt8}
    (hlen : record.length = 56) (hbytes : bytes.length ≤ packetSize)
    (hhear : s.hear bytes = some (s', out, some a)) (n : Nat) :
    IsAck ⟨n, writeAck record a⟩ ⟨n, a⟩ := by
  have hsent : (writeAck record a).length = 56 :=
    (put_check_spec (fillAck record a) ackBytes (by decide) (fillAck_spec record a hlen).1).1
  rcases AckSender.hear_fits hbytes hhear with ⟨hseq, htime⟩
  refine ⟨rfl, hsent, fun buf hbuf hsame => ?_⟩
  rw [readAck_congr hbuf hsent hsame, readAck_writeAck record a hlen hseq htime]
  split
  · exact Or.inl rfl
  · exact Or.inr rfl

/-- The transfer follows a step of the client. -/
theorem Follows.drive {ce : ClientEvent} (h : Follows w y) (hclock : PacketSender.ClockFits ce)
    (hstep : w.drive top ce = some w') : ∃ y', y.drive top ce = some y' ∧ Follows w' y' := by
  rcases Option.map_eq_some_iff.mp hstep with ⟨⟨s', sent⟩, hs, rfl⟩
  have hclear : s'.Clear := PacketSender.clear_step h.clear (by
    rw [PacketSender.next, hs]
    rfl)
  have hpacket := fun p bytes (hp : sent = some (p, bytes)) =>
    isPacket_sent h.clear hclock (hp ▸ hs)
  rcases Option.map_eq_some_iff.mp hs with ⟨⟨c', out⟩, hc, hout⟩
  refine ⟨_, by rw [System.drive, h.client_eq, hc, Option.map_some], ?_⟩
  cases out with
  | none =>
      cases hout
      exact { h with client_eq := rfl, filled_eq := by rw [h.filled_eq]
                     sent_eq := by rw [h.sent_eq]; rfl, clear := hclear }
  | some p =>
      cases hout
      refine { h with client_eq := rfl, filled_eq := by rw [h.filled_eq]
                      sent_eq := by rw [h.sent_eq]; rfl, clear := hclear, packets := ?_ }
      have hsent := hpacket p _ rfl (lastIn w.filled p.seq)
      dsimp only [System.packetsAfter]
      rw [h.filled_eq]
      exact .cons hsent h.packets

/-- The transfer follows a delivery to the server, unless what is delivered is
    garbled, and then it need not. -/
theorem Follows.arrive {i : Nat} (h : Follows w y)
    (hd : ∀ x, w.packets[i]? = some x → Delivers packetBytes x.message bytes)
    (hstep : w.arrive i bytes = some w') :
    Follows w' y ∨ ∃ y', y.arrive i = some y' ∧ Follows w' y' := by
  unfold Wired.arrive at hstep
  cases hc : w.packets[i]? with
  | none =>
      rw [hc] at hstep
      cases hstep
  | some c =>
      rw [hc] at hstep
      dsimp only at hstep
      by_cases hfresh : w.sent ≤ c.frame + 44
      · rw [if_pos hfresh] at hstep
        rcases Option.map_eq_some_iff.mp hstep with ⟨⟨s', out, answer⟩, hhear, hw'⟩
        rcases exists_getElem?_of_forall₂ h.packets i hc with ⟨x, hx, hisx⟩
        have hbytes : bytes.length ≤ packetSize :=
          Nat.le_of_eq ((hd c hc).1.trans hisx.2.1)
        rcases hisx.delivered (hd c hc) with hdatagram | hgarbled
        · -- It is taken apart into the packet, and answered.
          obtain ⟨a, rfl, hserver⟩ : ∃ a, answer = some a ∧
              w.receiver.server.step (fullSize x.message) = some (s', out, a) := by
            unfold Server.hear at hhear
            rw [hdatagram] at hhear
            rcases Option.map_eq_some_iff.mp hhear with ⟨⟨s'', out', a⟩, hserver, heq⟩
            cases heq
            exact ⟨a, rfl, hserver⟩
          cases hw'
          have harrive : y.arrive i = some { y with
              server := s'
              acks := { frame := x.frame, message := a } :: y.acks
              passed := y.passed ++ out } := by
            unfold System.arrive
            rw [hx]
            dsimp only
            rw [h.sent_eq, ← hisx.1, if_pos hfresh, h.server_eq, hserver]
            rfl
          have hsent := isAck_sent h.ack_length hbytes hhear c.frame
          refine Or.inr ⟨_, harrive, { h with
            server_eq := rfl
            passed_eq := by rw [h.passed_eq]
            acks := .cons (hisx.1 ▸ hsent) h.acks
            ack_length := (clearAck_spec hsent.2.1 (by decide)).1 }⟩
        · -- It is thrown away.
          unfold Server.hear at hhear
          rw [hgarbled] at hhear
          cases hhear
          cases hw'
          exact Or.inl { h with
            passed_eq := by rw [h.passed_eq, List.append_nil]
            ack_length := (clearAck_spec h.ack_length (by decide)).1 }
      · rw [if_neg hfresh] at hstep
        cases hstep

/-- The transfer follows a step on the wire with a step that is the same for the
    client, or with none. -/
theorem follows_step {e : WiredEvent} (h : Follows w y) (he : Noisy b w e)
    (hstep : w.step b top e = some w') :
    Follows w' y ∨ ∃ e' y', y.step b top e' = some y' ∧ Follows w' y' ∧
      ∀ ce, y.clientEvent b e' = some ce → w.clientEvent b e = some ce := by
  -- A step of the client, if the event is the same for it on either side.
  have hdrive : (w.clientEvent b e).bind (w.drive top) = some w' → ∀ e',
      y.step b top e' = (y.clientEvent b e').bind (y.drive top) →
      y.clientEvent b e' = w.clientEvent b e → ∃ e' y', y.step b top e' = some y' ∧
        Follows w' y' ∧ ∀ ce, y.clientEvent b e' = some ce → w.clientEvent b e = some ce := by
    intro hw' e' hy heq
    rcases Option.bind_eq_some_iff.mp hw' with ⟨ce, hce, hdrive⟩
    rcases h.drive (he.clock ce hce) hdrive with ⟨y', hy', h'⟩
    refine ⟨e', y', ?_, h', fun ce hce => heq ▸ hce⟩
    rw [hy, heq, hce, Option.bind_some, hy']
  cases e with
  | packet i bytes =>
      have hd : ∀ x, w.packets[i]? = some x → Delivers packetBytes x.message bytes :=
        fun x hx => he.packet i bytes x rfl hx
      refine (h.arrive hd hstep).imp_right fun ⟨y', hy', h'⟩ => ⟨.packet i, y', hy', h', ?_⟩
      exact fun ce hce => by cases hce
  | block =>
      refine Or.inr (hdrive hstep .block rfl ?_)
      rw [System.clientEvent, Wired.clientEvent, h.filled_eq]
  | client ce => exact Or.inr (hdrive hstep (.client ce) rfl rfl)
  | ack i bytes now =>
      right
      -- A garbled acknowledgement is the step in which there is none.
      have hstep' := hstep
      simp only [Wired.step, Wired.clientEvent] at hstep'
      cases hc : w.acks[i]? with
      | none =>
          rw [hc] at hstep'
          cases hstep'
      | some c =>
          rw [hc] at hstep'
          dsimp only at hstep'
          by_cases hfresh : w.sent ≤ c.frame + 44
          · rcases exists_getElem?_of_forall₂ h.acks i hc with ⟨x, hx, hisx⟩
            have hd := he.ack i bytes now c rfl hc
            rcases hisx.delivered hd with hack | hgarbled
            · refine hdrive hstep (.ack i now) rfl ?_
              simp only [System.clientEvent, Wired.clientEvent, hx, hc, h.sent_eq, ← hisx.1,
                if_pos hfresh, hack]
            · refine hdrive hstep (.client .noAck) rfl ?_
              simp only [System.clientEvent, Wired.clientEvent, hc, if_pos hfresh, hgarbled]
              rfl
          · rw [if_neg hfresh] at hstep'
            cases hstep'

/-- The driver before its loop has cleared the checksum field of its record. -/
theorem clear_init {memory : List UInt8} (hmemory : memory.length = 1056) (sendbuf : Int → Block)
    (cell : Heap) (start : Timeval) : (PacketSender.init memory sendbuf cell start).Clear := by
  have hcheck : 32 + (Bytes.zeros 2).length ≤ memory.length := by
    rw [Bytes.length_zeros]
    omega
  have hlen : (Bytes.bzero memory 32 2).length = 1056 := (Bytes.length_put hcheck).trans hmemory
  have hbody : 56 + (Bytes.zeros buffSize).length ≤ (Bytes.bzero memory 32 2).length := by
    rw [Bytes.length_zeros, hlen]
    decide
  refine ⟨Client.numbered_init sendbuf cell start, (Bytes.length_put hbody).trans hlen, ?_⟩
  unfold checkField PacketSender.init
  rw [Bytes.bzero, Bytes.slice_put_before hbody (by decide), Bytes.bzero,
    Bytes.slice_put hcheck (Bytes.length_zeros 2)]
  rfl

theorem follows_init {memory memory' : List UInt8} (hmemory : memory.length = 1056)
    (hmemory' : memory'.length = 56) (sendbuf : Int → Block) (cell : Heap) (start : Timeval) :
    Follows (init memory memory' sendbuf cell start) (System.init sendbuf cell start) where
  client_eq := rfl
  server_eq := rfl
  filled_eq := rfl
  sent_eq := rfl
  passed_eq := rfl
  packets := .nil
  acks := .nil
  clear := clear_init hmemory sendbuf cell start
  ack_length := hmemory'

/-- What is harmless on the wire is harmless in the transfer. -/
theorem Follows.harmless {ce : ClientEvent} (h : Follows w y) (hce : w.ends.Harmless ce) :
    y.Harmless ce := by
  rcases h with ⟨hclient, -, hfilled, hsent, -, -, -, -, -⟩
  rcases y with ⟨client, server, filled, sent, packets, acks, passed⟩
  subst hclient hfilled hsent
  exact ⟨hce.send, hce.resend, hce.ack⟩

end Wired

section

variable (b : Nat → Block) (top : Int) {memory memory' : List UInt8}
  (hmemory : memory.length = 1056) (hmemory' : memory'.length = 56) (sendbuf : Int → Block)
  (cell : Heap) (start : Timeval) (es : List WiredEvent) (w : Wired)
include hmemory hmemory'

/-- Every run on the wire, over a network whose damage the checksum notices, is
    a run of the transfer. -/
theorem wire_refines
    (hnoisy : Machine.Meets (Wired.step b top) (Wired.Noisy b)
      (Wired.init memory memory' sendbuf cell start) es)
    (hrun : Machine.run (Wired.step b top) (Wired.init memory memory' sendbuf cell start) es
      = some w) :
    ∃ es' y, Machine.run (System.step b top) (System.init sendbuf cell start) es' = some y ∧
      w.Follows y := by
  have hstep : ∀ w e w' y, Wired.Follows w y → w.Noisy b e → w.step b top e = some w' →
      ∃ y', Machine.Reaches (System.step b top) (fun _ _ => True) y y' ∧ w'.Follows y' := by
    intro w e w' y h he hs
    rcases Wired.follows_step h he hs with h' | ⟨e', y', hy', h', -⟩
    · exact ⟨y, Machine.reaches_refl y, h'⟩
    · exact ⟨y', Machine.reaches_step trivial hy', h'⟩
  rcases Machine.reaches_of_simulates hstep es _ w _
    (Wired.follows_init hmemory hmemory' sendbuf cell start) hnoisy hrun with ⟨y, ⟨es', -, hy⟩, h⟩
  exact ⟨es', y, hy, h⟩

/-- In every run on the wire in which moreover all steps of the client are
    harmless, what ftps has received is a prefix of the blocks that ftpc has
    handed over. -/
theorem wire_delivery (hb : ∀ n, b n ≠ Block.zero)
    (hnoisy : Machine.Meets (Wired.step b top) (Wired.Noisy b)
      (Wired.init memory memory' sendbuf cell start) es)
    (hcareful : Machine.Meets (Wired.step b top) (Wired.Careful b)
      (Wired.init memory memory' sendbuf cell start) es)
    (hrun : Machine.run (Wired.step b top) (Wired.init memory memory' sendbuf cell start) es
      = some w) :
    w.ends.InPrefix b := by
  have hstep : ∀ w e w' y, Wired.Follows w y → (w.Noisy b e ∧ w.Careful b e) →
      w.step b top e = some w' →
      ∃ y', Machine.Reaches (System.step b top) (System.Careful b) y y' ∧ w'.Follows y' := by
    intro w e w' y h he hs
    rcases Wired.follows_step h he.1 hs with h' | ⟨e', y', hy', h', hevent⟩
    · exact ⟨y, Machine.reaches_refl y, h'⟩
    · exact ⟨y', Machine.reaches_step (fun ce hce => h.harmless (he.2 ce (hevent ce hce))) hy', h'⟩
  rcases Machine.reaches_of_simulates hstep es _ w _
    (Wired.follows_init hmemory hmemory' sendbuf cell start) (Machine.meets_and hnoisy hcareful)
    hrun with ⟨y, ⟨es', hes, hy⟩, h⟩
  have hsound := Machine.run_induction (System.sound_step hb top) es' _ y
    (Or.inr ⟨0, 0, [], System.going_init b sendbuf cell start⟩) hes hy
  rcases hsound.inPrefix with ⟨k, hk, hpassed⟩
  exact ⟨k, hk.trans_eq h.filled_eq, h.passed_eq.symm.trans hpassed⟩

end

instance (t : Timeval) : Decidable t.Fits := by
  unfold Timeval.Fits
  exact inferInstance

/-- A corruption of one bit. -/
def oneBit : List UInt8 := Bytes.zeros 484 ++ ([8] ++ Bytes.zeros 555)

/-- A packet with that bit changed. -/
def flipped (message : List UInt8) : List UInt8 :=
  message.zipWith (· ^^^ ·) (Bytes.zeros 16 ++ oneBit)

theorem length_oneBit : oneBit.length = packetBytes := by decide +kernel

theorem delivers_flipped {message : List UInt8} (hlen : message.length = packetSize)
    (hintact : Intact (Bytes.slice message 16 packetBytes)) :
    Delivers packetBytes message (flipped message) := by
  have hodd : Odd ((bitsOfBytes oneBit).count true) := by
    have hone : (bitsOfBytes [8]).count true = 1 := by decide
    have hzeros : ∀ n, (bitsOfBytes (Bytes.zeros n)).count true = 0 := fun n =>
      List.count_eq_zero.mpr (true_notMem_bitsOfBytes_zeros n)
    unfold oneBit
    rw [bitsOfBytes_append, bitsOfBytes_append, List.count_append, List.count_append, hone, hzeros,
      hzeros]
    exact odd_one
  refine delivers_of_detectable hlen ?_ length_oneBit (.odd hodd) hintact ?_
  · unfold flipped
    rw [List.length_zipWith, List.length_append, Bytes.length_zeros, length_oneBit, hlen]
    rfl
  · unfold flipped
    rw [Bytes.slice_zipWith]
    refine congrArg _ ?_
    unfold Bytes.slice
    rw [List.drop_left' (Bytes.length_zeros 16)]
    exact List.take_of_length_le (Nat.le_of_eq length_oneBit)

/-- A step that is noisy and careful and can be seen to be: a packet arrives as it
    is or with a byte changed, and the client reads no acknowledgement and sends
    out of a window that does not cross slot 63. -/
def Wired.Cheap (w : Wired) : WiredEvent → Prop
  | .packet i bytes => ∀ x ∈ w.packets[i]?, bytes = x.message ∨
      (x.message.length = packetSize ∧ Intact (Bytes.slice x.message 16 packetBytes) ∧
        bytes = flipped x.message)
  | .client (.send now) => now.Fits ∧ ¬ w.sender.client.driver.cursors.Overdrawn
  | .client e => System.plain e = true
  | .ack _ _ _ => False
  | .block => True

instance (w : Wired) (e : WiredEvent) : Decidable (w.Cheap e) := by
  unfold Wired.Cheap
  split <;> exact inferInstance

theorem Wired.of_cheap (b : Nat → Block) (w : Wired) (e : WiredEvent) (h : w.Cheap e) :
    w.Noisy b e ∧ w.Careful b e := by
  have hcheap : ∀ ce, System.plain ce = true → PacketSender.ClockFits ce := by
    rintro ce hce now (rfl | rfl) <;> cases hce
  have hcall : (∀ i bytes x, e = .packet i bytes → w.packets[i]? = some x →
      Delivers packetBytes x.message bytes) ∧ ∀ ce, w.clientEvent b e = some ce →
      PacketSender.ClockFits ce ∧ w.ends.Harmless ce := by
    cases e with
    | packet i bytes =>
        refine ⟨fun j bs x heq hx => ?_, nofun⟩
        cases heq
        rcases h x hx with rfl | ⟨hlen, hintact, rfl⟩
        · exact ⟨rfl, Or.inl rfl⟩
        · exact delivers_flipped hlen hintact
    | ack i bytes now => cases h
    | block =>
        refine ⟨nofun, fun ce hce => ?_⟩
        cases hce
        exact ⟨hcheap _ rfl, System.harmless_of_plain _ _ rfl⟩
    | client e =>
        refine ⟨nofun, fun ce hce => ?_⟩
        simp only [Wired.clientEvent, Option.ite_none_right_eq_some, Option.some.injEq] at hce
        rcases hce with ⟨-, rfl⟩
        cases e with
        | send now =>
            refine ⟨?_, fun _ _ _ => h.2, nofun, fun _ _ _ heq => ClientEvent.noConfusion heq⟩
            rintro now' (heq | heq) <;> cases heq
            exact h.1
        | _ => exact ⟨hcheap _ h, System.harmless_of_plain _ _ h⟩
  refine ⟨⟨hcall.1, fun i bytes now x heq _ => ?_, fun ce hce => (hcall.2 ce hce).1⟩,
    fun ce hce => (hcall.2 ce hce).2⟩
  subst heq
  cases h

/-- Both ends before a transfer, with records that the memory has cleared. -/
def Wired.fresh : Wired :=
  Wired.init (Bytes.zeros 1056) (Bytes.zeros 56) (fun _ => Block.single 1)
    (fun _ => ⟨0, ⟨0, 0⟩, none, none⟩) ⟨0, 0⟩

/-- A block whose last byte only is not zero. -/
def lastOne : Block := ⟨List.replicate 999 0 ++ [1], by
  rw [List.length_append, List.length_replicate]
  rfl⟩

theorem lastOne_ne_zero : lastOne ≠ Block.zero :=
  (Block.isEmpty_eq_false_iff _).mp (by decide +kernel)

/-- A block is sent. What arrives first has a bit changed, and then the packet
    arrives as it is. -/
def noisyEvents : List WiredEvent :=
  [.client .select, .block, .client .noAck, .client (.send ⟨0, 0⟩),
    .packet 0 (flipped (writePacket (Bytes.zeros 1056) ⟨0, ⟨0, 0⟩, lastOne⟩)),
    .packet 0 (writePacket (Bytes.zeros 1056) ⟨0, ⟨0, 0⟩, lastOne⟩)]

theorem noisy_cheap :
    Machine.Meets (Wired.step (fun _ => lastOne) 65) Wired.Cheap Wired.fresh noisyEvents := by
  decide +kernel

theorem noisy_run : ∃ w, Machine.run (Wired.step (fun _ => lastOne) 65) Wired.fresh noisyEvents
    = some w ∧ w.passed.length = 1 := by
  have hrun : (Machine.run (Wired.step (fun _ => lastOne) 65) Wired.fresh noisyEvents).map
      (fun w => w.passed.length) = some 1 := by
    decide +kernel
  exact Option.map_eq_some_iff.mp hrun

theorem wire_refines_noisy :
    ∃ w es' y, Machine.run (Wired.step (fun _ => lastOne) 65) Wired.fresh noisyEvents = some w ∧
      Machine.run (System.step (fun _ => lastOne) 65) System.fresh es' = some y ∧
      w.Follows y := by
  rcases noisy_run with ⟨w, hw, -⟩
  rcases wire_refines (fun _ => lastOne) 65 (Bytes.length_zeros 1056) (Bytes.length_zeros 56) _ _ _
    noisyEvents w (Machine.meets_mono (fun w e h => (w.of_cheap _ e h).1) noisy_cheap) hw
    with ⟨es', y, hy, h⟩
  exact ⟨w, es', y, hw, hy, h⟩

theorem wire_delivery_noisy :
    ∃ w, Machine.run (Wired.step (fun _ => lastOne) 65) Wired.fresh noisyEvents = some w ∧
      w.passed.length = 1 ∧ w.ends.InPrefix fun _ => lastOne := by
  rcases noisy_run with ⟨w, hw, hlen⟩
  exact ⟨w, hw, hlen, wire_delivery (fun _ => lastOne) 65 (Bytes.length_zeros 1056)
    (Bytes.length_zeros 56) _ _ _ noisyEvents w (fun _ => lastOne_ne_zero)
    (Machine.meets_mono (fun w e h => (w.of_cheap _ e h).1) noisy_cheap)
    (Machine.meets_mono (fun w e h => (w.of_cheap _ e h).2) noisy_cheap) hw⟩

end Cse5462
