import Cse5462.Tcpd.Client
import Cse5462.Tcpd.Wire

/-!
# Records That Arrive as They Were Sent

Both ends keep one record that all their messages are built in, and clear it
after each of them. What a record holds before the first message is whatever
the memory had in it. The checksum is computed with its own field as it is
found, so a message passes the test only if the record had a zero there.

The driver sets the field to zero before its loop, and every packet survives.
The server clears its record at the end of an iteration and not before the
first, so the answer to the first datagram is garbled unless the memory
happened to be zero. All later answers survive.

## Main definitions

* `PacketSender`: The client with the record of its packets.
* `AckSender`: The server with the record of its acknowledgements.
* `PacketSurvives`, `AckSurvives`: What is sent in a step is read as it was.

## Theorems

* `numbered_step`: The numbers of packets are slots of the buffer.
* `packets_survive`: Every packet survives.
* `ackSurvives_iff`: When the answer to a datagram survives.
* `records_survive_iff`: When everything that is sent survives.
-/

namespace Cse5462

/-- The client, and the record `packet` of the driver. -/
structure PacketSender where
  client : Client
  packet : List UInt8

/-- The server, and its record `ack`. -/
structure AckSender where
  server : Server
  ack : List UInt8

namespace Client

/-- The numbers of the frames that are sent for the first time and of those that
    are sent again are slots of the buffer. -/
def Numbered (c : Client) : Prop :=
  (-1 ≤ c.driver.cursors.lfs ∧ c.driver.cursors.lfs ≤ 62) ∧ Asks (fun n => 0 ≤ n ∧ n < 64) c

theorem numbered_init (sendbuf : Int → Block) (cell : Heap) (start : Timeval) :
    (init sendbuf cell start).Numbered :=
  ⟨⟨Int.le_refl _, show (-1 : Int) ≤ 62 by decide⟩, asks_init _ sendbuf cell start⟩

/-- A step sends slots of the buffer only, with the clock of the event as the
    time stamp. -/
theorem numbered_step {top : Int} {c c' : Client} {e : ClientEvent} {out : Option Packet}
    (h : c.Numbered) (hstep : c.step top e = some (c', out)) :
    c'.Numbered ∧ ∀ p, out = some p → (0 ≤ p.seq ∧ p.seq < 64) ∧
      (e = .resend p.timeStamp ∨ e = .send p.timeStamp) := by
  rcases h with ⟨hlfs, hasks⟩
  have hout : ∀ p, out = some p → (0 ≤ p.seq ∧ p.seq < 64) ∧
      (e = .resend p.timeStamp ∨ e = .send p.timeStamp) := by
    intro p hp
    cases step_cases top c c' e out hstep with
    | resent id now hphase =>
        cases hp
        exact ⟨hasks.answered id hphase, Or.inl rfl⟩
    | sent now hphase hguard =>
        cases hp
        refine ⟨?_, Or.inr rfl⟩
        dsimp only [Driver.packet]
        omega
    | _ => cases hp
  refine ⟨⟨?_, asks_step top e out hasks hstep fun p hp => (hout p hp).1⟩, hout⟩
  -- Only a first transmission moves `lfs`.
  cases step_cases top c c' e out hstep with
  | sent now hphase hguard =>
      have hsize : sendRecvBufSize = 64 := rfl
      dsimp only [Cursors.sent]
      by_cases hlast : c.driver.cursors.lfs + 1 = sendRecvBufSize - 1
      · rw [if_pos hlast]
        decide
      · rw [if_neg hlast]
        omega
  | _ => exact hlfs

end Client

namespace PacketSender

/-- The driver before its loop: the checksum field and the body of its record
    are cleared, the rest is what the memory had in it. -/
def init (memory : List UInt8) (sendbuf : Int → Block) (cell : Heap) (start : Timeval) :
    PacketSender :=
  { client := Client.init sendbuf cell start
    packet := Bytes.bzero (Bytes.bzero memory 32 2) 56 buffSize }

/-- The record after a step in which nothing was sent: the end of the loop
    clears it, whether there was something to send or not. -/
def afterSilence (packet : List UInt8) : ClientEvent → List UInt8
  | .send _ => clearPacket packet
  | _ => packet

/-- A step of the client, with the packet and the bytes that are sent. -/
def step (top : Int) (s : PacketSender) (e : ClientEvent) :
    Option (PacketSender × Option (Packet × List UInt8)) :=
  (s.client.step top e).map fun r =>
    match r.2 with
    | some p =>
        let sent := writePacket s.packet p
        ({ client := r.1, packet := clearPacket sent }, some (p, sent))
    | none => ({ client := r.1, packet := afterSilence s.packet e }, none)

/-- The sender after a step. -/
def next (top : Int) (s : PacketSender) (e : ClientEvent) : Option PacketSender :=
  (s.step top e).map Prod.fst

/-- A packet that the step sends, delivered with the covered bytes intact,
    passes the test of the server and is read as it was. -/
def PacketSurvives (top : Int) (s : PacketSender) (e : ClientEvent) : Prop :=
  ∀ s' p sent bytes, s.step top e = some (s', some (p, sent)) → bytes.length = packetSize →
    Bytes.slice bytes 16 packetBytes = Bytes.slice sent 16 packetBytes →
    toDatagram bytes = some (fullSize p)

/-- The record is clear where the checksum is written. -/
structure Clear (s : PacketSender) : Prop where
  numbered : s.client.Numbered
  length_eq : s.packet.length = 1056
  field : checkField s.packet = 0

end PacketSender

namespace AckSender

/-- The server before its loop. The record is what the memory had in it. -/
def init (memory : List UInt8) : AckSender := { server := Server.init, ack := memory }

/-- An iteration on the bytes of a datagram, with the acknowledgement and the
    bytes that are sent. -/
def step (s : AckSender) (bytes : List UInt8) : Option (AckSender × Option (Ack × List UInt8)) :=
  (s.server.hear bytes).map fun r =>
    match r.2.2 with
    | some a =>
        let sent := writeAck s.ack a
        ({ server := r.1, ack := clearAck sent }, some (a, sent))
    | none => ({ server := r.1, ack := clearAck s.ack }, none)

/-- The server after an iteration. -/
def next (s : AckSender) (bytes : List UInt8) : Option AckSender := (s.step bytes).map Prod.fst

/-- An acknowledgement that the step sends, delivered with the covered bytes
    intact, passes the test of the client and is read as it was. -/
def AckSurvives (s : AckSender) (bytes : List UInt8) : Prop :=
  ∀ s' a sent ackbuf, s.step bytes = some (s', some (a, sent)) → ackbuf.length = 56 →
    Bytes.slice ackbuf 16 ackBytes = Bytes.slice sent 16 ackBytes → readAck ackbuf = some a

/-- The server answers a datagram: it is not garbled, and the server survives
    it. -/
def Answers (s : Server) (bytes : List UInt8) : Prop :=
  ∃ s' out a, s.hear bytes = some (s', out, some a)

end AckSender

/-- Clearing leaves the length of a record, and a zero where the checksum is
    written. -/
theorem clearAck_spec {record : List UInt8} {n : Nat} (hlen : record.length = n) (hn : 56 ≤ n) :
    (clearAck record).length = n ∧ checkField (clearAck record) = 0 := by
  have htcp : 16 + (Bytes.zeros 20).length ≤ record.length := by
    rw [Bytes.length_zeros]
    omega
  have hlen' : (Bytes.bzero record 16 20).length = record.length := Bytes.length_put htcp
  have htime : 40 + (Bytes.zeros 16).length ≤ (Bytes.bzero record 16 20).length := by
    rw [Bytes.length_zeros]
    omega
  refine ⟨(Bytes.length_put htime).trans (hlen'.trans hlen), ?_⟩
  unfold checkField clearAck
  rw [Bytes.bzero, Bytes.slice_put_before htime (by decide), Bytes.bzero,
    Bytes.slice_put_inside htcp (by decide) (by rw [Bytes.length_zeros]; decide),
    Bytes.slice_zeros (by decide)]
  rfl

theorem clearPacket_spec {record : List UInt8} (hlen : record.length = 1056) :
    (clearPacket record).length = 1056 ∧ checkField (clearPacket record) = 0 := by
  rcases clearAck_spec hlen (by decide) with ⟨hlen', hfield⟩
  have hbody : 56 + (Bytes.zeros buffSize).length ≤ (clearAck record).length := by
    rw [Bytes.length_zeros, hlen']
    decide
  refine ⟨(Bytes.length_put hbody).trans hlen', ?_⟩
  rw [← hfield]
  unfold checkField
  exact congrArg (fun bs => BitVec.ofNat 16 (Bytes.ofLe bs))
    (Bytes.slice_put_before hbody (by decide))

namespace PacketSender

variable {top : Int} {s s' : PacketSender} {e : ClientEvent}

/-- The clock is read into a `struct timeval`. -/
def ClockFits (e : ClientEvent) : Prop :=
  ∀ now, (e = .resend now ∨ e = .send now) → now.Fits

theorem packetSurvives_of_clear (h : s.Clear) (he : ClockFits e) : s.PacketSurvives top e := by
  intro s' p sent bytes hstep hlen hbytes
  rcases Option.map_eq_some_iff.mp hstep with ⟨⟨c', out⟩, hc, hout⟩
  cases out with
  | none => cases hout
  | some q =>
      cases hout
      rcases (Client.numbered_step h.numbered hc).2 p rfl with ⟨hseq, hclock⟩
      have hread := readPacket_writePacket s.packet p h.length_eq ⟨by omega, by omega⟩
        (he _ hclock)
      rw [if_pos h.field] at hread
      unfold toDatagram
      rw [recvBuffer_full hlen, readPacket_congr hbytes, hread, Option.map_some, fullSize, hlen]

theorem clear_step (h : s.Clear) (hnext : next top s e = some s') : s'.Clear := by
  rcases Option.map_eq_some_iff.mp hnext with ⟨⟨t, out⟩, hstep, rfl⟩
  rcases Option.map_eq_some_iff.mp hstep with ⟨⟨c', out'⟩, hc, hout⟩
  have hnum := (Client.numbered_step h.numbered hc).1
  cases out' with
  | some p =>
      cases hout
      have hclear := clearPacket_spec (length_writePacket s.packet p h.length_eq)
      exact ⟨hnum, hclear.1, hclear.2⟩
  | none =>
      cases hout
      have hclear := clearPacket_spec h.length_eq
      cases e with
      | send now => exact ⟨hnum, hclear.1, hclear.2⟩
      | _ => exact ⟨hnum, h.length_eq, h.field⟩

/-- Every packet of every run, sent for the first time or again, survives. -/
theorem packets_survive (memory : List UInt8) (hmemory : memory.length = 1056)
    (sendbuf : Int → Block) (cell : Heap) (start : Timeval) (es : List ClientEvent)
    (hes : ∀ e ∈ es, ClockFits e) :
    Machine.Meets (next top) (PacketSurvives top) (init memory sendbuf cell start) es := by
  have hcheck : 32 + (Bytes.zeros 2).length ≤ memory.length := by
    rw [Bytes.length_zeros]
    omega
  have hlen : (Bytes.bzero memory 32 2).length = 1056 := by
    rw [← hmemory]
    exact Bytes.length_put hcheck
  have hbody : 56 + (Bytes.zeros buffSize).length ≤ (Bytes.bzero memory 32 2).length := by
    rw [Bytes.length_zeros, hlen]
    decide
  have hinit : (init memory sendbuf cell start).Clear := by
    refine ⟨Client.numbered_init sendbuf cell start, ?_, ?_⟩
    · rw [← hlen]
      exact Bytes.length_put hbody
    · unfold checkField init
      dsimp only
      rw [Bytes.bzero, Bytes.slice_put_before hbody (by decide), Bytes.bzero,
        Bytes.slice_put hcheck (Bytes.length_zeros 2)]
      rfl
  exact Machine.meets_of_invariant (C := fun _ e => ClockFits e) (P := Clear)
    (fun s e s' hs _ hnext => clear_step hs hnext) (fun s e hs he => packetSurvives_of_clear hs he)
    es _ hinit (Machine.meets_of_forall_mem es _ hes)

end PacketSender

/-- What is read out of a full buffer fits into its types. -/
theorem readPacket_fits {buf : List UInt8} {p : Packet} (hlen : buf.length = 1056)
    (h : readPacket buf = some p) : FitsInt p.seq ∧ p.timeStamp.Fits := by
  have hint : ∀ o, o + 8 ≤ 16 → -2 ^ 63 ≤ Bytes.ofLeInt (Bytes.slice (Bytes.slice buf 40 16) o 8) ∧
      Bytes.ofLeInt (Bytes.slice (Bytes.slice buf 40 16) o 8) < 2 ^ 63 := by
    intro o ho
    have hbounds := Bytes.ofLeInt_bounds (Bytes.slice (Bytes.slice buf 40 16) o 8)
    rw [Bytes.length_slice (by rw [Bytes.length_slice (by omega)]; exact ho)] at hbounds
    omega
  have hseq : FitsInt (Bytes.ofLeInt (Bytes.slice (Bytes.slice buf 16 packetBytes) 4 4)) := by
    have hbounds := Bytes.ofLeInt_bounds (Bytes.slice (Bytes.slice buf 16 packetBytes) 4 4)
    rw [Bytes.length_slice (by
      rw [Bytes.length_slice (by unfold packetBytes; omega)]
      decide)] at hbounds
    unfold FitsInt
    omega
  unfold readPacket at h
  dsimp only at h
  split at h
  · cases h
    exact ⟨hseq, hint 0 (by decide), hint 8 (by decide)⟩
  · cases h

theorem length_recvBuffer {bytes : List UInt8} (h : bytes.length ≤ packetSize) :
    (recvBuffer bytes).length = 1056 := by
  unfold recvBuffer
  rw [Bytes.length_put (by rw [Bytes.length_zeros]; omega), Bytes.length_zeros]
  rfl

namespace AckSender

variable {s s' : AckSender} {bytes : List UInt8}

/-- The acknowledgement of a datagram fits into its types. -/
theorem hear_fits {t t' : Server} {out : List (List UInt8)} {a : Ack}
    (hbytes : bytes.length ≤ packetSize) (h : t.hear bytes = some (t', out, some a)) :
    FitsInt a.ackSeq ∧ a.timeStamp.Fits := by
  unfold Server.hear toDatagram at h
  cases hread : readPacket (recvBuffer bytes) with
  | none =>
      rw [hread] at h
      cases h
  | some p =>
      rw [hread] at h
      rcases Option.map_eq_some_iff.mp h with ⟨r, hr, hout⟩
      rcases Option.map_eq_some_iff.mp hr with ⟨q, -, rfl⟩
      cases hout
      exact readPacket_fits (length_recvBuffer hbytes) hread

/-- The answer to a datagram survives exactly if the checksum field of the
    record is zero, or there is none. -/
theorem ackSurvives_iff (hlen : s.ack.length = 56) (hbytes : bytes.length ≤ packetSize) :
    s.AckSurvives bytes ↔ checkField s.ack = 0 ∨ ¬ Answers s.server bytes := by
  have hread : ∀ t out a, s.server.hear bytes = some (t, out, some a) →
      readAck (writeAck s.ack a) = if checkField s.ack = 0 then some a else none :=
    fun t out a h => readAck_writeAck s.ack a hlen (hear_fits hbytes h).1 (hear_fits hbytes h).2
  have hsent : ∀ a, (writeAck s.ack a).length = 56 := fun a =>
    (put_check_spec (fillAck s.ack a) ackBytes (by decide) (fillAck_spec s.ack a hlen).1).1
  constructor
  · intro h
    by_contra hcon
    rw [not_or, not_not] at hcon
    rcases hcon with ⟨hfield, t, out, a, hhear⟩
    -- The answer is garbled although nothing has happened to it.
    have hstep : s.step bytes = some ({ server := t, ack := clearAck (writeAck s.ack a) },
        some (a, writeAck s.ack a)) := by
      rw [step, hhear]
      rfl
    have hback := h _ a _ _ hstep (hsent a) rfl
    rw [hread t out a hhear, if_neg hfield] at hback
    cases hback
  · rintro h s' a sent ackbuf hstep hacklen hack
    rcases Option.map_eq_some_iff.mp hstep with ⟨⟨t, out, answer⟩, hhear, hout⟩
    cases answer with
    | none => cases hout
    | some b =>
        cases hout
        have hfield := h.resolve_right (not_not.mpr ⟨t, out, a, hhear⟩)
        rw [readAck_congr hacklen (hsent a) hack, hread t out a hhear, if_pos hfield]

/-- A whole packet that is accepted into an empty slot is answered. -/
theorem answers_full {s : Server} {p : Packet} (hread : toDatagram bytes = some (fullSize p))
    (hacc : s.accepts p.seq) (h0 : 0 ≤ p.seq) (h64 : p.seq < 64)
    (hempty : s.recvbuf p.seq = Block.zero) : Answers s bytes := by
  have hhear : s.hear bytes
      = (s.step (fullSize p)).map fun r => (r.1, r.2.1, some r.2.2) := by
    unfold Server.hear
    rw [hread]
  rw [Server.step, Server.receive_full s p hacc h0 h64 hempty] at hhear
  exact ⟨_, _, _, hhear⟩

/-- After an iteration the record is clear. -/
theorem clear_step (hlen : s.ack.length = 56) (hnext : s.next bytes = some s') :
    s'.ack.length = 56 ∧ checkField s'.ack = 0 := by
  rcases Option.map_eq_some_iff.mp hnext with ⟨⟨t, out⟩, hstep, rfl⟩
  rcases Option.map_eq_some_iff.mp hstep with ⟨⟨t', out', answer⟩, -, hout⟩
  cases answer with
  | none =>
      cases hout
      exact clearAck_spec hlen (by decide)
  | some a =>
      cases hout
      refine clearAck_spec ?_ (by decide)
      exact (put_check_spec (fillAck s.ack a) ackBytes (by decide) (fillAck_spec s.ack a hlen).1).1

/-- All answers survive exactly if the first one does. -/
theorem acks_survive_iff (memory : List UInt8) (hmemory : memory.length = 56)
    (ds : List (List UInt8)) (hds : ∀ d ∈ ds, d.length ≤ packetSize) :
    Machine.Meets next AckSurvives (init memory) ds ↔
      checkField memory = 0 ∨ ∀ d, ds.head? = some d → ¬ Answers Server.init d := by
  cases ds with
  | nil => exact ⟨fun _ => Or.inr nofun, fun _ => trivial⟩
  | cons d ds =>
      have hd := hds d List.mem_cons_self
      have hfirst : AckSurvives (init memory) d ↔ checkField memory = 0 ∨ ¬ Answers Server.init d :=
        ackSurvives_iff hmemory hd
      have hhead : (∀ d', (d :: ds).head? = some d' → ¬ Answers Server.init d') ↔
          ¬ Answers Server.init d := by
        rw [List.head?_cons]
        refine ⟨fun h => h d rfl, ?_⟩
        intro h d' hd'
        rw [Option.some.injEq] at hd'
        exact hd' ▸ h
      rw [hhead, ← hfirst]
      refine ⟨fun h => h.1, fun h => ⟨h, ?_⟩⟩
      intro s' hs'
      -- From the second iteration on the record has been cleared.
      refine Machine.meets_of_invariant (C := fun _ d => d.length ≤ packetSize)
        (P := fun s => s.ack.length = 56 ∧ checkField s.ack = 0)
        (fun s d s' hs _ hnext => clear_step hs.1 hnext)
        (fun s d hs hd => (ackSurvives_iff hs.1 hd).mpr (Or.inl hs.2)) ds s'
        (clear_step hmemory hs') (Machine.meets_of_forall_mem ds s' fun d hd => ?_)
      exact hds d (List.mem_cons_of_mem _ hd)

end AckSender

/-- In every run of the client and every run of the server everything that is
    sent survives exactly if the memory of the record of the server happens to
    have a zero checksum, or the first datagram is not answered. -/
theorem records_survive_iff (top : Int) (memory : List UInt8) (hmemory : memory.length = 1056)
    (sendbuf : Int → Block) (cell : Heap) (start : Timeval) (es : List ClientEvent)
    (hes : ∀ e ∈ es, PacketSender.ClockFits e)
    (memory' : List UInt8) (hmemory' : memory'.length = 56)
    (ds : List (List UInt8)) (hds : ∀ d ∈ ds, d.length ≤ packetSize) :
    (Machine.Meets (PacketSender.next top) (PacketSender.PacketSurvives top)
        (PacketSender.init memory sendbuf cell start) es ∧
      Machine.Meets AckSender.next AckSender.AckSurvives (AckSender.init memory') ds) ↔
      checkField memory' = 0 ∨ ∀ d, ds.head? = some d → ¬ AckSender.Answers Server.init d := by
  rw [← AckSender.acks_survive_iff memory' hmemory' ds hds]
  exact and_iff_right (PacketSender.packets_survive memory hmemory sendbuf cell start es hes)

/-- A packet with one byte in its body. -/
def onePacket : Packet := ⟨0, ⟨0, 0⟩, Block.single 1⟩

/-- The client sends a packet, and the server receives one. -/
theorem records_survive_one :
    Machine.Meets (PacketSender.next 64) (PacketSender.PacketSurvives 64)
        (PacketSender.init (Bytes.zeros 1056) (fun _ => Block.zero)
          (fun _ => ⟨0, ⟨0, 0⟩, none, none⟩) ⟨0, 0⟩)
        [.select, .refill (Block.single 1) buffSize, .noAck, .send ⟨1, 0⟩] ∧
      Machine.Meets AckSender.next AckSender.AckSurvives (AckSender.init (Bytes.zeros 56))
        [writePacket (Bytes.zeros 1056) onePacket] := by
  refine (records_survive_iff 64 (Bytes.zeros 1056) (Bytes.length_zeros _) _ _ _ _ ?_
    (Bytes.zeros 56) (Bytes.length_zeros _) _ ?_).mpr (Or.inl (checkField_zeros 56 (by decide)))
  · intro e he now hnow
    have hfits : (⟨1, 0⟩ : Timeval).Fits := by
      unfold Timeval.Fits
      decide
    simp only [List.mem_cons, List.not_mem_nil, or_false] at he
    rcases he with rfl | rfl | rfl | rfl
    · exact hnow.elim nofun nofun
    · exact hnow.elim nofun nofun
    · exact hnow.elim nofun nofun
    · rcases hnow with hnow | hnow
      · cases hnow
      · cases hnow
        exact hfits
  · intro d hd
    rw [List.mem_singleton.mp hd, length_writePacket _ _ (Bytes.length_zeros _)]
    decide

/-- The memory of the record of the server has a one where the checksum is
    written. The answer to the first packet is garbled. -/
theorem first_ack_garbled :
    ¬ Machine.Meets AckSender.next AckSender.AckSurvives
      (AckSender.init (Bytes.put (Bytes.zeros 56) 32 [1, 0]))
      [writePacket (Bytes.zeros 1056) onePacket] := by
  have hput : 32 + [(1 : UInt8), 0].length ≤ (Bytes.zeros 56).length := by
    rw [Bytes.length_zeros]
    decide
  have hsent := length_writePacket (Bytes.zeros 1056) onePacket (Bytes.length_zeros _)
  have hread := toDatagram_writePacket (Bytes.zeros 1056) onePacket (Bytes.length_zeros _)
    (checkField_zeros 1056 (by decide)) (by unfold FitsInt; decide) (by unfold Timeval.Fits; decide)
  have hanswers := AckSender.answers_full hread (s := Server.init) (by decide) (by decide)
    (by decide) rfl
  rw [AckSender.acks_survive_iff _ (Bytes.length_put hput) _ ?_]
  · rintro (hfield | hfirst)
    · unfold checkField at hfield
      rw [Bytes.slice_put hput (show [(1 : UInt8), 0].length = 2 from rfl)] at hfield
      exact absurd hfield (by decide)
    · exact hfirst _ rfl hanswers
  · intro d hd
    rw [List.mem_singleton.mp hd, hsent]
    decide

end Cse5462
