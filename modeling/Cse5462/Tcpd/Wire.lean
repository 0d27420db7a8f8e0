import Cse5462.Lib.Bytes
import Cse5462.Tcpd.Checksum
import Cse5462.Tcpd.Server

/-!
# The Records on the Wire

`struct Packet` and the acknowledgement record as the bytes that are sent. The
senders write the fields through the members of a structure, the receivers read
them at offsets: behind sixteen bytes of address header there are the sequence
number at 20, the acknowledged number at 24, the checksum at 32, the time stamp
at 40, and in a packet the body at 56. Numbers are in little-endian order.

The checksum covers all but the address header, its own field included. The
receiver clears that field before it computes the checksum anew, and the sender
takes it as it finds it. So what is sent passes the test exactly if the field
was zero before.

## Main definitions

* `writePacket`, `readPacket`: A packet as the client writes it and as the
  server reads it.
* `writeAck`, `readAck`: An acknowledgement, the other way.
* `Server.hear`: An iteration of the server on the bytes that it receives.

## Theorems

* `intact_sealed_iff`: When a message passes the test of its own checksum.
* `readPacket_congr`, `readAck_congr`: Only what the checksum covers is read.
* `readPacket_writePacket`, `readAck_writeAck`: What is written can be read.
-/

namespace Cse5462

/-- The number of bytes of a packet that the checksum covers. -/
def packetBytes : Nat := 1040

/-- The number of bytes of an acknowledgement that the checksum covers. -/
def ackBytes : Nat := 40

/-- The checksum field of a message, that is of a record without its address
    header. -/
def checkOf (message : List UInt8) : BitVec 16 :=
  BitVec.ofNat 16 (Bytes.ofLe (Bytes.slice message 16 2))

/-- The message with its checksum field cleared has the checksum that is in the
    field. -/
def Intact (message : List UInt8) : Prop :=
  crcFast (Bytes.bzero message 16 2) = checkOf message

instance (message : List UInt8) : Decidable (Intact message) := by
  unfold Intact
  exact inferInstance

/-- The two bytes of a checksum. -/
def crcBytes (checksum : BitVec 16) : List UInt8 := Bytes.le 2 checksum.toNat

/-- A message with its checksum in the field for it. -/
def sealMessage (message : List UInt8) : List UInt8 :=
  Bytes.put message 16 (crcBytes (crcFast message))

/-- The sixteen bytes of a `struct timeval`. -/
def timevalBytes (t : Timeval) : List UInt8 := Bytes.leInt 8 t.tvSec ++ Bytes.leInt 8 t.tvUsec

/-- The `struct timeval` that sixteen bytes stand for. -/
def timevalOfBytes (bs : List UInt8) : Timeval :=
  ⟨Bytes.ofLeInt (Bytes.slice bs 0 8), Bytes.ofLeInt (Bytes.slice bs 8 8)⟩

/-- A block out of a buffer. -/
def Block.ofBytes (bs : List UInt8) : Block :=
  ⟨(bs ++ Bytes.zeros buffSize).take buffSize, by
    rw [List.length_take, List.length_append, Bytes.length_zeros]
    omega⟩

/-- The record of the driver with the fields of a packet written into it. -/
def fillPacket (record : List UInt8) (p : Packet) : List UInt8 :=
  let record := Bytes.put record 20 (Bytes.leInt 4 p.seq)
  let record := Bytes.put record 56 p.body.bytes
  Bytes.put record 40 (timevalBytes p.timeStamp)

/-- The packet that is sent: the fields and the checksum. -/
def writePacket (record : List UInt8) (p : Packet) : List UInt8 :=
  let record := fillPacket record p
  Bytes.put record 32 (crcBytes (crcFast (Bytes.slice record 16 packetBytes)))

/-- The record of the driver after it has been cleared for the next packet. -/
def clearPacket (record : List UInt8) : List UInt8 :=
  Bytes.bzero (Bytes.bzero (Bytes.bzero record 16 20) 40 16) 56 buffSize

/-- The packet that the server reads out of its buffer, unless it is garbled. -/
def readPacket (buf : List UInt8) : Option Packet :=
  let message := Bytes.slice buf 16 packetBytes
  let seqNum := Bytes.ofLeInt (Bytes.slice message 4 4)
  let timeStamp := timevalOfBytes (Bytes.slice buf 40 16)
  if Intact message then
    some { seq := seqNum, timeStamp := timeStamp,
           body := Block.ofBytes (Bytes.slice buf 56 buffSize) }
  else none

/-- The record of the server with the fields of an acknowledgement written into
    it. -/
def fillAck (record : List UInt8) (a : Ack) : List UInt8 :=
  Bytes.put (Bytes.put record 24 (Bytes.leInt 4 a.ackSeq)) 40 (timevalBytes a.timeStamp)

/-- The acknowledgement that is sent: the fields and the checksum. -/
def writeAck (record : List UInt8) (a : Ack) : List UInt8 :=
  let record := fillAck record a
  Bytes.put record 32 (crcBytes (crcFast (Bytes.slice record 16 ackBytes)))

/-- The record of the server after it has been cleared for the next
    acknowledgement. -/
def clearAck (record : List UInt8) : List UInt8 :=
  Bytes.bzero (Bytes.bzero record 16 20) 40 16

/-- The acknowledgement that the driver reads out of its buffer, unless it is
    garbled. -/
def readAck (ackbuf : List UInt8) : Option Ack :=
  let original := BitVec.ofNat 16 (Bytes.ofLe (Bytes.slice ackbuf 32 2))
  let ackbuf := Bytes.bzero ackbuf 32 2
  if original = crcFast (Bytes.slice ackbuf 16 ackBytes) then
    some { ackSeq := Bytes.ofLeInt (Bytes.slice ackbuf 24 4),
           timeStamp := timevalOfBytes (Bytes.slice ackbuf 40 16) }
  else none

/-- The buffer of the server, cleared before, with a datagram received into
    it. -/
def recvBuffer (bytes : List UInt8) : List UInt8 := Bytes.put (Bytes.zeros packetSize) 0 bytes

/-- The datagram as the server takes it apart, unless it is garbled. -/
def toDatagram (bytes : List UInt8) : Option Datagram :=
  (readPacket (recvBuffer bytes)).map fun p => { length := bytes.length, packet := p }

/-- One iteration of the server on the bytes that it receives. What is garbled
    is not answered. -/
def Server.hear (s : Server) (bytes : List UInt8) :
    Option (Server × List (List UInt8) × Option Ack) :=
  match toDatagram bytes with
  | some d => (s.step d).map fun r => (r.1, r.2.1, some r.2.2)
  | none => some (s, [], none)

@[simp] theorem length_crcBytes (c : BitVec 16) : (crcBytes c).length = 2 := Bytes.length_le 2 _

@[simp] theorem length_timevalBytes (t : Timeval) : (timevalBytes t).length = 16 := by
  unfold timevalBytes
  rw [List.length_append, Bytes.length_leInt, Bytes.length_leInt]

/-- A checksum can be read back from its bytes. -/
theorem checkOf_put {m : List UInt8} (hm : 18 ≤ m.length) (c : BitVec 16) :
    checkOf (Bytes.put m 16 (crcBytes c)) = c := by
  unfold checkOf
  rw [Bytes.slice_put (by rw [length_crcBytes]; omega) (length_crcBytes c), crcBytes, Bytes.ofLe_le]
  refine BitVec.eq_of_toNat_eq ?_
  have := c.isLt
  rw [BitVec.toNat_ofNat]
  omega

/-- A message combined with zeros. -/
theorem zipWith_xor_zeros (m : List UInt8) : m.zipWith (· ^^^ ·) (Bytes.zeros m.length) = m := by
  unfold Bytes.zeros
  induction m with
  | nil => rfl
  | cons b m ih =>
      rw [List.length_cons, List.replicate_succ, List.zipWith_cons_cons, ih, UInt8.xor_zero]

/-- The field of a checksum has two bytes. -/
theorem checkOf_cases (m : List UInt8) (hm : 18 ≤ m.length) :
    ∃ lo hi, Bytes.slice m 16 2 = [lo, hi] ∧ (checkOf m = 0 ↔ lo = 0 ∧ hi = 0) := by
  have hlen : (Bytes.slice m 16 2).length = 2 := Bytes.length_slice (by omega)
  rcases List.length_eq_two.mp hlen with ⟨lo, hi, hbytes⟩
  refine ⟨lo, hi, hbytes, ?_⟩
  have hlo := lo.toNat_lt
  have hhi := hi.toNat_lt
  unfold checkOf
  rw [hbytes, ← BitVec.toNat_inj, BitVec.toNat_ofNat, ← UInt8.toNat_inj, ← UInt8.toNat_inj]
  simp only [Bytes.ofLe, BitVec.ofNat_eq_ofNat, BitVec.toNat_ofNat, UInt8.toNat_zero]
  omega

/-- The checksum does not see the field it is for exactly if that is zero. -/
theorem crcFast_bzero_iff (m : List UInt8) (hm : 18 ≤ m.length) :
    crcFast (Bytes.bzero m 16 2) = crcFast m ↔ checkOf m = 0 := by
  rcases checkOf_cases m hm with ⟨lo, hi, hbytes, hzero⟩
  have hlen : (Bytes.bzero m 16 2).length = m.length := Bytes.length_put (by simp; omega)
  -- The message is the one without the field, and the field among zeros.
  have hsum : m = (Bytes.bzero m 16 2).zipWith (· ^^^ ·)
      (Bytes.put (Bytes.zeros m.length) 16 [lo, hi]) := by
    unfold Bytes.bzero
    rw [Bytes.zipWith_put _ _ _ _ _ _ (by simp) (by simp), zipWith_xor_zeros]
    have hpair : (Bytes.zeros 2).zipWith (· ^^^ ·) [lo, hi] = [lo, hi] := by simp [Bytes.zeros]
    rw [hpair, ← hbytes, Bytes.put_slice (by omega)]
  have hpatch : Bytes.put (Bytes.zeros m.length) 16 [lo, hi]
      = List.replicate 16 0 ++ ([lo, hi] ++ List.replicate (m.length - 18) 0) := by
    unfold Bytes.put Bytes.zeros
    rw [List.take_replicate, List.drop_replicate, Nat.min_eq_left (by omega), List.append_assoc]
    rfl
  have hcrc : crcFast m = crcFast (Bytes.bzero m 16 2)
      ^^^ crcFast (Bytes.put (Bytes.zeros m.length) 16 [lo, hi]) := by
    rw [← crcFast_xor _ _ (by rw [hlen, Bytes.length_put (by simp; omega), Bytes.length_zeros]),
      ← hsum]
  rw [hzero, hcrc, hpatch]
  constructor
  · intro h
    by_contra hne
    refine crcFast_two 16 (m.length - 18) lo hi ?_ ?_
    · rcases Classical.em (lo = 0) with hlo | hlo
      · exact Or.inr fun hhi => hne ⟨hlo, hhi⟩
      · exact Or.inl hlo
    · have h' := congrArg (crcFast (Bytes.bzero m 16 2) ^^^ ·) h
      simp only [BitVec.xor_self, ← BitVec.xor_assoc, BitVec.zero_xor] at h'
      exact h'.symm
  · rintro ⟨rfl, rfl⟩
    have hpair : [(0 : UInt8), 0] = List.replicate 2 0 := rfl
    rw [hpair, List.replicate_append_replicate, List.replicate_append_replicate, crcFast_zeros]
    exact BitVec.xor_zero.symm

/-- A message passes the test of its own checksum exactly if the field for it
    was zero when the checksum was computed. -/
theorem intact_sealed_iff (m : List UInt8) (hm : 18 ≤ m.length) :
    Intact (sealMessage m) ↔ checkOf m = 0 := by
  have hclear : Bytes.bzero (sealMessage m) 16 2 = Bytes.bzero m 16 2 := by
    unfold Bytes.bzero sealMessage
    exact Bytes.put_put (by rw [length_crcBytes]; omega) (by rw [length_crcBytes]; rfl)
  unfold Intact
  rw [hclear, sealMessage, checkOf_put hm, crcFast_bzero_iff m hm]

/-- The checksum field of a record. -/
def checkField (record : List UInt8) : BitVec 16 :=
  BitVec.ofNat 16 (Bytes.ofLe (Bytes.slice record 32 2))

theorem checkField_zeros (n : Nat) (hn : 34 ≤ n) : checkField (Bytes.zeros n) = 0 := by
  unfold checkField
  rw [Bytes.slice_zeros (by omega)]
  rfl

theorem checkOf_slice (record : List UInt8) (n : Nat) (hn : 18 ≤ n) :
    checkOf (Bytes.slice record 16 n) = checkField record := by
  unfold checkOf checkField
  rw [Bytes.slice_slice 16 2 hn]

/-- Writing the checksum of what a record carries behind its address header. -/
theorem slice_put_check (record : List UInt8) (n : Nat) (hn : 18 ≤ n)
    (hlen : 16 + n ≤ record.length) :
    Bytes.slice (Bytes.put record 32 (crcBytes (crcFast (Bytes.slice record 16 n)))) 16 n
      = sealMessage (Bytes.slice record 16 n) := by
  unfold sealMessage
  exact Bytes.slice_put_around (by rw [length_crcBytes]; omega) (by omega)
    (by rw [length_crcBytes]; omega) hlen

/-- The server reads nothing but what the checksum covers. -/
theorem readPacket_congr {buf buf' : List UInt8}
    (h : Bytes.slice buf 16 packetBytes = Bytes.slice buf' 16 packetBytes) :
    readPacket buf = readPacket buf' := by
  have htime : Bytes.slice buf 40 16 = Bytes.slice buf' 40 16 := by
    have hpart := congrArg (Bytes.slice · 24 16) h
    simpa only [Bytes.slice_slice 24 16 (show 24 + 16 ≤ packetBytes by decide)] using hpart
  have hbody : Bytes.slice buf 56 buffSize = Bytes.slice buf' 56 buffSize := by
    have hpart := congrArg (Bytes.slice · 40 buffSize) h
    simpa only [Bytes.slice_slice 40 buffSize (show 40 + buffSize ≤ packetBytes by decide)]
      using hpart
  unfold readPacket
  rw [h, htime, hbody]

/-- The driver reads an acknowledgement as the server reads a packet. -/
theorem readAck_eq (ackbuf : List UInt8) (hlen : ackbuf.length = 56) :
    readAck ackbuf =
      if Intact (Bytes.slice ackbuf 16 ackBytes) then
        some { ackSeq := Bytes.ofLeInt (Bytes.slice ackbuf 24 4),
               timeStamp := timevalOfBytes (Bytes.slice ackbuf 40 16) }
      else none := by
  have hfield : 32 + (Bytes.zeros 2).length ≤ ackbuf.length := by
    rw [Bytes.length_zeros, hlen]
    decide
  have hmessage : Bytes.slice (Bytes.bzero ackbuf 32 2) 16 ackBytes
      = Bytes.bzero (Bytes.slice ackbuf 16 ackBytes) 16 2 :=
    Bytes.slice_put_around hfield (by decide) (by decide) (by rw [hlen]; decide)
  have hseq : Bytes.slice (Bytes.bzero ackbuf 32 2) 24 4 = Bytes.slice ackbuf 24 4 :=
    Bytes.slice_put_before hfield (by decide)
  have htime : Bytes.slice (Bytes.bzero ackbuf 32 2) 40 16 = Bytes.slice ackbuf 40 16 :=
    Bytes.slice_put_behind hfield (by decide)
  have hintact : checkField ackbuf = crcFast (Bytes.bzero (Bytes.slice ackbuf 16 ackBytes) 16 2) ↔
      Intact (Bytes.slice ackbuf 16 ackBytes) := by
    rw [← checkOf_slice ackbuf ackBytes (by decide)]
    exact eq_comm
  unfold readAck
  dsimp only
  rw [hmessage, hseq, htime]
  exact if_congr hintact rfl rfl

theorem readAck_congr {buf buf' : List UInt8} (hlen : buf.length = 56) (hlen' : buf'.length = 56)
    (h : Bytes.slice buf 16 ackBytes = Bytes.slice buf' 16 ackBytes) :
    readAck buf = readAck buf' := by
  have hseq : Bytes.slice buf 24 4 = Bytes.slice buf' 24 4 := by
    have hpart := congrArg (Bytes.slice · 8 4) h
    simpa only [Bytes.slice_slice 8 4 (show 8 + 4 ≤ ackBytes by decide)] using hpart
  have htime : Bytes.slice buf 40 16 = Bytes.slice buf' 40 16 := by
    have hpart := congrArg (Bytes.slice · 24 16) h
    simpa only [Bytes.slice_slice 24 16 (show 24 + 16 ≤ ackBytes by decide)] using hpart
  rw [readAck_eq buf hlen, readAck_eq buf' hlen', h, hseq, htime]

/-- The fields of a time value fit into their type. -/
def Timeval.Fits (t : Timeval) : Prop :=
  (-2 ^ 63 ≤ t.tvSec ∧ t.tvSec < 2 ^ 63) ∧ (-2 ^ 63 ≤ t.tvUsec ∧ t.tvUsec < 2 ^ 63)

theorem timevalOfBytes_timevalBytes {t : Timeval} (h : t.Fits) :
    timevalOfBytes (timevalBytes t) = t := by
  have hlen : ∀ n, (Bytes.leInt 8 n).length = 8 := Bytes.length_leInt 8
  have hsec : Bytes.slice (timevalBytes t) 0 8 = Bytes.leInt 8 t.tvSec := by
    unfold Bytes.slice timevalBytes
    rw [List.drop_zero, List.take_left' (hlen _)]
  have husec : Bytes.slice (timevalBytes t) 8 8 = Bytes.leInt 8 t.tvUsec := by
    unfold Bytes.slice timevalBytes
    rw [List.drop_left' (hlen _), List.take_of_length_le (Nat.le_of_eq (hlen _))]
  unfold timevalOfBytes
  rw [hsec, husec, Bytes.ofLeInt_leInt 8 _ (by have := h.1; omega) (by have := h.1; omega),
    Bytes.ofLeInt_leInt 8 _ (by have := h.2; omega) (by have := h.2; omega)]

theorem Block.ofBytes_bytes (b : Block) : Block.ofBytes b.bytes = b := by
  refine Block.ext ?_
  exact List.take_left' b.length_eq

/-- A sequence number fits into an `int`. -/
def FitsInt (n : Int) : Prop := -2 ^ 31 ≤ n ∧ n < 2 ^ 31

theorem ofLeInt_leInt_four {n : Int} (h : FitsInt n) : Bytes.ofLeInt (Bytes.leInt 4 n) = n :=
  Bytes.ofLeInt_leInt 4 n (by have := h.1; omega) (by have := h.2; omega)

/-- What the record holds after the fields of a packet have been written. -/
theorem fillPacket_spec (record : List UInt8) (p : Packet) (hlen : record.length = 1056) :
    (fillPacket record p).length = 1056 ∧
      checkField (fillPacket record p) = checkField record ∧
      Bytes.slice (fillPacket record p) 20 4 = Bytes.leInt 4 p.seq ∧
      Bytes.slice (fillPacket record p) 40 16 = timevalBytes p.timeStamp ∧
      Bytes.slice (fillPacket record p) 56 buffSize = p.body.bytes := by
  have hseqlen := Bytes.length_leInt 4 p.seq
  have hbodylen : p.body.bytes.length = 1000 := p.body.length_eq
  have htimelen := length_timevalBytes p.timeStamp
  -- One field after the other.
  unfold fillPacket
  set r₁ := Bytes.put record 20 (Bytes.leInt 4 p.seq) with hr₁
  have h₁ : 20 + (Bytes.leInt 4 p.seq).length ≤ record.length := by omega
  have hlen₁ : r₁.length = record.length := Bytes.length_put h₁
  set r₂ := Bytes.put r₁ 56 p.body.bytes with hr₂
  have h₂ : 56 + p.body.bytes.length ≤ r₁.length := by omega
  have hlen₂ : r₂.length = r₁.length := Bytes.length_put h₂
  have h₃ : 40 + (timevalBytes p.timeStamp).length ≤ r₂.length := by omega
  refine ⟨?_, ?_, ?_, ?_, ?_⟩
  · rw [Bytes.length_put h₃]
    omega
  · unfold checkField
    rw [Bytes.slice_put_before h₃ (by omega), hr₂, Bytes.slice_put_before h₂ (by omega), hr₁,
      Bytes.slice_put_behind h₁ (by omega)]
  · rw [Bytes.slice_put_before h₃ (by omega), hr₂, Bytes.slice_put_before h₂ (by omega), hr₁,
      Bytes.slice_put h₁ hseqlen]
  · rw [Bytes.slice_put h₃ htimelen]
  · rw [Bytes.slice_put_behind h₃ (by omega), hr₂, Bytes.slice_put h₂ p.body.length_eq]

/-- The same for an acknowledgement. -/
theorem fillAck_spec (record : List UInt8) (a : Ack) (hlen : record.length = 56) :
    (fillAck record a).length = 56 ∧
      checkField (fillAck record a) = checkField record ∧
      Bytes.slice (fillAck record a) 24 4 = Bytes.leInt 4 a.ackSeq ∧
      Bytes.slice (fillAck record a) 40 16 = timevalBytes a.timeStamp := by
  have hseqlen := Bytes.length_leInt 4 a.ackSeq
  have htimelen := length_timevalBytes a.timeStamp
  unfold fillAck
  set r₁ := Bytes.put record 24 (Bytes.leInt 4 a.ackSeq) with hr₁
  have h₁ : 24 + (Bytes.leInt 4 a.ackSeq).length ≤ record.length := by omega
  have hlen₁ : r₁.length = record.length := Bytes.length_put h₁
  have h₂ : 40 + (timevalBytes a.timeStamp).length ≤ r₁.length := by omega
  refine ⟨?_, ?_, ?_, ?_⟩
  · rw [Bytes.length_put h₂]
    omega
  · unfold checkField
    rw [Bytes.slice_put_before h₂ (by omega), hr₁, Bytes.slice_put_behind h₁ (by omega)]
  · rw [Bytes.slice_put_before h₂ (by omega), hr₁, Bytes.slice_put h₁ hseqlen]
  · rw [Bytes.slice_put h₂ htimelen]

/-- The checksum that is sent with a record: the test passes if its field was
    zero before, and the fields beside it stay as they are. -/
theorem put_check_spec (r : List UInt8) (n : Nat) (hn : 24 ≤ n) (hlen : r.length = 16 + n) :
    let sent := Bytes.put r 32 (crcBytes (crcFast (Bytes.slice r 16 n)))
    sent.length = 16 + n ∧
      Bytes.slice sent 16 n = sealMessage (Bytes.slice r 16 n) ∧
      (Intact (Bytes.slice sent 16 n) ↔ checkField r = 0) ∧
      (∀ o k, o + k ≤ 32 → Bytes.slice sent o k = Bytes.slice r o k) ∧
      ∀ o k, 34 ≤ o → Bytes.slice sent o k = Bytes.slice r o k := by
  intro sent
  have hput : 32 + (crcBytes (crcFast (Bytes.slice r 16 n))).length ≤ r.length := by
    rw [length_crcBytes]
    omega
  have hseal : Bytes.slice sent 16 n = sealMessage (Bytes.slice r 16 n) :=
    slice_put_check r n (by omega) (by omega)
  refine ⟨?_, hseal, ?_, fun o k ho => Bytes.slice_put_before hput ho, fun o k ho => ?_⟩
  · rw [← hlen]
    exact Bytes.length_put hput
  · rw [hseal, intact_sealed_iff _ (by rw [Bytes.length_slice (by omega)]; omega),
      checkOf_slice r n (by omega)]
  · exact Bytes.slice_put_behind hput (by rw [length_crcBytes]; omega)

/-- A packet that was written is read as it was, if the checksum field of the
    record was zero, and is garbled otherwise. -/
theorem readPacket_writePacket (record : List UInt8) (p : Packet) (hlen : record.length = 1056)
    (hseq : FitsInt p.seq) (htime : p.timeStamp.Fits) :
    readPacket (writePacket record p) = if checkField record = 0 then some p else none := by
  rcases fillPacket_spec record p hlen with ⟨hfill, hfield, hreadseq, hreadtime, hreadbody⟩
  rcases put_check_spec (fillPacket record p) packetBytes (by decide) hfill with
    ⟨-, -, hintact, hbefore, hbehind⟩
  rw [hfield] at hintact
  unfold readPacket writePacket
  dsimp only
  rw [Bytes.slice_slice 4 4 (by decide), hbefore (16 + 4) 4 (by decide), hreadseq,
    ofLeInt_leInt_four hseq, hbehind 40 16 (by decide), hreadtime,
    timevalOfBytes_timevalBytes htime, hbehind 56 buffSize (by decide), hreadbody,
    Block.ofBytes_bytes]
  exact if_congr hintact rfl rfl

/-- The same for an acknowledgement. -/
theorem readAck_writeAck (record : List UInt8) (a : Ack) (hlen : record.length = 56)
    (hseq : FitsInt a.ackSeq) (htime : a.timeStamp.Fits) :
    readAck (writeAck record a) = if checkField record = 0 then some a else none := by
  rcases fillAck_spec record a hlen with ⟨hfill, hfield, hreadseq, hreadtime⟩
  rcases put_check_spec (fillAck record a) ackBytes (by decide) hfill with
    ⟨hsent, -, hintact, hbefore, hbehind⟩
  rw [hfield] at hintact
  unfold writeAck
  dsimp only
  rw [readAck_eq _ hsent, hbefore 24 4 (by decide), hreadseq, ofLeInt_leInt_four hseq,
    hbehind 40 16 (by decide), hreadtime, timevalOfBytes_timevalBytes htime]
  exact if_congr hintact rfl rfl

theorem length_writePacket (record : List UInt8) (p : Packet) (hlen : record.length = 1056) :
    (writePacket record p).length = 1056 :=
  (put_check_spec (fillPacket record p) packetBytes (by decide)
    (fillPacket_spec record p hlen).1).1

theorem recvBuffer_full {bytes : List UInt8} (hlen : bytes.length = packetSize) :
    recvBuffer bytes = bytes := by
  unfold recvBuffer Bytes.put
  rw [List.take_zero, List.nil_append, List.drop_of_length_le, List.append_nil]
  rw [Bytes.length_zeros]
  omega

/-- A packet that arrives as it was sent is taken apart into what it was. -/
theorem toDatagram_writePacket (record : List UInt8) (p : Packet) (hlen : record.length = 1056)
    (hcheck : checkField record = 0) (hseq : FitsInt p.seq) (htime : p.timeStamp.Fits) :
    toDatagram (writePacket record p) = some (fullSize p) := by
  have hsent := length_writePacket record p hlen
  unfold toDatagram
  rw [recvBuffer_full hsent, readPacket_writePacket record p hlen hseq htime, if_pos hcheck,
    Option.map_some, fullSize, hsent]
  rfl

/-- A message of zeros passes the test: an empty datagram, in a buffer that was
    cleared before, is a packet with the sequence number zero. -/
theorem toDatagram_nil : toDatagram [] = some ⟨0, ⟨0, ⟨0, 0⟩, Block.zero⟩⟩ := by
  have hbuf : recvBuffer [] = Bytes.zeros 1056 := rfl
  have hintact : Intact (Bytes.zeros packetBytes) := by
    unfold Intact checkOf
    rw [Bytes.bzero_zeros (by decide), Bytes.slice_zeros (by decide), Bytes.zeros, crcFast_zeros]
    rfl
  have hseq : Bytes.ofLeInt (Bytes.zeros 4) = 0 := by decide
  have htime : timevalOfBytes (Bytes.zeros 16) = ⟨0, 0⟩ := by decide
  have hbody : Block.ofBytes (Bytes.zeros buffSize) = Block.zero := Block.ofBytes_bytes Block.zero
  unfold toDatagram readPacket
  dsimp only
  rw [hbuf, Bytes.slice_zeros (by decide), if_pos hintact, Bytes.slice_zeros (by decide),
    Bytes.slice_zeros (by decide), Bytes.slice_zeros (by decide), hseq, htime, hbody,
    Option.map_some, List.length_nil]

end Cse5462
