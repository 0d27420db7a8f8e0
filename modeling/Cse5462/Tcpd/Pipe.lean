import Cse5462.Ftp.FileInformation
import Cse5462.Tcpd.TimerMap

/-!
# Messages to the Timer Process

The messages that `starttimer` and `canceltimer` write to the pipe, byte for
byte, and what the timer process reads out of them. A message has 1200 bytes:
the operation, the id, the interval as a `double` and a text. The eight bytes of
the `double` are taken as they are, and the number they stand for is a parameter.

`starttimer` and the timer process copy the id with `memcpy`, and `canceltimer`
with `strncpy`. A cancellation is therefore the end of the timer that was
started only for the ids that such a copy leaves as they are. For these it is, as
long as the carries of the start fit.

## Main definitions

* `startMessage`, `cancelMessage`: The messages.
* `decode`: What the timer process reads.
* `TimerList.obey`: A message read and carried out.
* `CancelUndoesStart`: A start and a cancellation leave the list as it was.
* `ZeroBytesOnTop`: No zero byte of an id is below another byte.

## Theorems

* `decode_startMessage`, `decode_cancelMessage`: What is read is what was meant,
  but for the id of a cancellation.
* `cancelUndoesStart_iff`: When a cancellation undoes a start.
-/

namespace Cse5462

open Bytes

/-- `BUFFER_SIZE`. -/
def bufferSize : Nat := 1200

/-- `INFO_SIZE`. -/
def infoSize : Nat := 1000

/-- `OPT_SIZE`. -/
def optSize : Nat := 10

/-- `ID_SIZE`, and `sizeof(int)`. -/
def idSize : Nat := 4

/-- `sizeof(double)`. -/
def doubleSize : Nat := 8

/-- The characters of a string constant. -/
def chars (s : String) : List UInt8 := s.toList.map fun c => UInt8.ofNat c.toNat

/-- An array of `n` characters that is initialised with a string. -/
def charArray (n : Nat) (s : String) : List UInt8 := put (zeros n) 0 (chars s)

/-- What `starttimer` writes to the pipe. -/
def startMessage (timeInterval : List UInt8) (id : Int) : List UInt8 :=
  let operation := charArray optSize "start"
  let buf := charArray infoSize "This is a test string"
  let bufout := zeros bufferSize
  let bufout := put bufout 0 (strncpy operation)
  let bufout := put bufout optSize (idBytes id)
  let bufout := put bufout (optSize + idSize) timeInterval
  put bufout (optSize + idSize + doubleSize) (strncpy buf)

/-- What `canceltimer` writes to the pipe. -/
def cancelMessage (id : Int) : List UInt8 :=
  let operation := charArray optSize "cancel"
  let bufout := zeros bufferSize
  let bufout := put bufout 0 (strncpy operation)
  put bufout optSize (strncpy (idBytes id))

/-- What the timer process reads out of a message. -/
structure Decoded where
  operation : List UInt8
  id : Int
  timeInterval : List UInt8
  deriving DecidableEq, Repr

/-- The decoder of the timer process. -/
def decode (bufin : List UInt8) : Decoded :=
  { operation := strncpy (slice bufin 0 optSize)
    id := idOfBytes (slice bufin optSize idSize)
    timeInterval := slice bufin (optSize + idSize) doubleSize }

/-- `strcmp(operation, s) == 0`. -/
def Decoded.is (m : Decoded) (s : String) : Bool := cString m.operation = chars s

/-- A message has been read by the timer process, at the time `now`. The number that
    the bytes of the interval stand for is `double`. After `stop` there is no list any
    more. -/
def TimerList.obey (double : List UInt8 → ℚ≥0) (t : TimerList) (bufin : List UInt8)
    (now : Timeval) : Option TimerList :=
  let m := decode bufin
  if m.is "stop" then none
  else if m.is "start" then t.addTimenode m.id (double m.timeInterval) now
  else if m.is "cancel" then t.deleteTimenode m.id
  else some t

/-- A start and a cancellation of an id first add it and then leave the list as
    it was. -/
def CancelUndoesStart (double : List UInt8 → ℚ≥0) (t : TimerList) (timeInterval : List UInt8)
    (id : Int) (now now' : Timeval) : Prop :=
  ∃ t1 t2, t.obey double (startMessage timeInterval id) now = some t1
    ∧ t1.obey double (cancelMessage id) now' = some t2
    ∧ t1.remaining
      = Function.update t.remaining id (some (Timeval.ofSeconds (double timeInterval)).value)
    ∧ t2.remaining = t.remaining

/-- No byte of an id that is zero is below one that is not. -/
def ZeroBytesOnTop (id : Int) : Prop :=
  ∀ k < 4, ∀ j < k, id / 256 ^ j % 256 = 0 → id / 256 ^ k % 256 = 0

theorem length_idBytes (id : Int) : (idBytes id).length = idSize := rfl

/-- The messages begin with the operation and the bytes of the id, in a record
    of zeros. -/
theorem header_spec {operation idField : List UInt8} (hop : operation.length = optSize)
    (hid : idField.length = idSize) :
    let header := put (put (zeros bufferSize) 0 operation) optSize idField
    header.length = bufferSize ∧ slice header 0 optSize = operation
      ∧ slice header optSize idSize = idField
      ∧ slice header (optSize + idSize) doubleSize = zeros doubleSize := by
  have hfit : 0 + operation.length ≤ (zeros bufferSize).length := by
    rw [length_zeros, hop]
    decide
  have hlen : (put (zeros bufferSize) 0 operation).length = bufferSize := by
    rw [length_put hfit, length_zeros]
  have hfit' : optSize + idField.length ≤ (put (zeros bufferSize) 0 operation).length := by
    rw [hlen, hid]
    decide
  refine ⟨by rw [length_put hfit', hlen], ?_, slice_put hfit' hid, ?_⟩
  · rw [slice_put_before hfit' (by decide), slice_put hfit hop]
  · rw [slice_put_behind hfit' (by rw [hid]), slice_put_behind hfit (by rw [hop]; decide),
      slice_zeros (by decide)]

/-- What is read out of a start. -/
theorem decode_startMessage {timeInterval : List UInt8} (htime : timeInterval.length = doubleSize)
    {id : Int} (hlo : -2 ^ 31 ≤ id) (hhi : id < 2 ^ 31) :
    decode (startMessage timeInterval id)
      = ⟨charArray optSize "start", id, timeInterval⟩ := by
  have hop : (strncpy (charArray optSize "start")).length = optSize := by decide
  have htext : (strncpy (charArray infoSize "This is a test string")).length = infoSize := by
    rw [length_strncpy, charArray, length_put (by rw [length_zeros]; decide), length_zeros]
  rcases header_spec hop (length_idBytes id) with ⟨hlen, hsop, hsid, -⟩
  unfold decode startMessage
  dsimp only
  generalize put (put (zeros bufferSize) 0 (strncpy (charArray optSize "start"))) optSize
    (idBytes id) = header at hsop hsid hlen ⊢
  have hbody : optSize + idSize + timeInterval.length ≤ header.length := by
    rw [hlen, htime]
    decide
  have hinfo : optSize + idSize + doubleSize
      + (strncpy (charArray infoSize "This is a test string")).length
      ≤ (put header (optSize + idSize) timeInterval).length := by
    rw [length_put hbody, hlen, htext]
    decide
  -- Each field is read from between those that are put around it.
  rw [slice_put_before hinfo (by decide), slice_put_before hbody (by decide), hsop,
    slice_put_before hinfo (by decide), slice_put_before hbody (by decide), hsid,
    slice_put_before hinfo (by decide), slice_put hbody htime, idOfBytes_idBytes hlo hhi]
  rfl

/-- What is read out of a cancellation. -/
theorem decode_cancelMessage (id : Int) :
    decode (cancelMessage id)
      = ⟨charArray optSize "cancel", (canceltimer id).id, zeros doubleSize⟩ := by
  have hop : (strncpy (charArray optSize "cancel")).length = optSize := by decide
  rcases header_spec hop (length_strncpy (idBytes id)) with ⟨-, hsop, hsid, hstime⟩
  unfold decode cancelMessage
  dsimp only
  rw [hsop, hsid, hstime]
  rfl

section

variable {double : List UInt8 → ℚ≥0} {t : TimerList} {l : List Nat} {timeInterval : List UInt8}
  {id : Int} {now now' : Timeval}

theorem obey_startMessage (htime : timeInterval.length = doubleSize) (hlo : -2 ^ 31 ≤ id)
    (hhi : id < 2 ^ 31) :
    t.obey double (startMessage timeInterval id) now
      = t.addTimenode id (double timeInterval) now := by
  have hop : cString (charArray optSize "start") = chars "start" := by decide
  unfold TimerList.obey Decoded.is
  rw [decode_startMessage htime hlo hhi]
  dsimp only
  rw [hop, if_neg (by decide), if_pos (by decide)]

theorem obey_cancelMessage :
    t.obey double (cancelMessage id) now = t.deleteTimenode (canceltimer id).id := by
  have hop : cString (charArray optSize "cancel") = chars "cancel" := by decide
  unfold TimerList.obey Decoded.is
  rw [decode_cancelMessage]
  dsimp only
  rw [hop, if_neg (by decide), if_neg (by decide), if_pos (by decide)]

/-- A cancellation with another id than that of the start leaves the new timer in the
    list. -/
theorem canceltimer_id_of_undone (h : t.Linked t.nodes) (hid : t.remaining id = none)
    (htime : timeInterval.length = doubleSize) (hlo : -2 ^ 31 ≤ id) (hhi : id < 2 ^ 31)
    (hundone : CancelUndoesStart double t timeInterval id now now') : (canceltimer id).id = id := by
  rcases hundone with ⟨t1, t2, ht1, ht2, hrem1, hrem2⟩
  rw [obey_startMessage htime hlo hhi] at ht1
  have h1 := TimerList.linked_call (c := .add id (double timeInterval) now) h ht1
  rw [obey_cancelMessage] at ht2
  by_contra hne
  have hstays : t2.remaining id = t1.remaining id := by
    by_cases habsent : t1.remaining (canceltimer id).id = none
    · rw [h1.remaining_none_iff] at habsent
      rw [TimerList.deleteTimenode_absent h1 habsent, Option.some.injEq] at ht2
      rw [ht2]
    · rcases TimerList.deleteTimenode_remaining h1 habsent with ⟨t3, _, ht3, -, -, hrem3⟩
      rw [ht2, Option.some.injEq] at ht3
      rw [ht3, hrem3, Function.update_of_ne (Ne.symm hne)]
  rw [hrem2, hid, hrem1, Function.update_self] at hstays
  cases hstays

/-- A start whose carries fit is undone if the cancellation has the id of the start. -/
theorem undone_of_canceltimer_id (h : t.Linked t.nodes) (hid : t.remaining id = none)
    (htime : timeInterval.length = doubleSize) (hlo : -2 ^ 31 ≤ id) (hhi : id < 2 ^ 31)
    (hfits : t.Fits (.add id (double timeInterval) now)) (heq : (canceltimer id).id = id) :
    CancelUndoesStart double t timeInterval id now now' := by
  rcases TimerList.addTimenode_remaining h hid (hfits ((h.remaining_none_iff id).mp hid)) now
    with ⟨t1, l1, ht1, h1, -, hrem1⟩
  have hnew : t1.remaining id ≠ none := by
    rw [hrem1, Function.update_self]
    exact Option.some_ne_none _
  rcases TimerList.deleteTimenode_remaining h1 hnew with ⟨t2, _, ht2, -, -, hrem2⟩
  refine ⟨t1, t2, ?_, ?_, hrem1, ?_⟩
  · rw [obey_startMessage htime hlo hhi, ht1]
  · rw [obey_cancelMessage, heq, ht2]
  · rw [hrem2, hrem1, Function.update_idem, Function.update_eq_self_iff, hid]

/-- The copy of an id, in terms of its bytes. -/
theorem pairwise_idBytes_iff_zeroBytesOnTop (id : Int) :
    (idBytes id).Pairwise (fun a b => a = 0 → b = 0) ↔ ZeroBytesOnTop id := by
  unfold idBytes ZeroBytesOnTop
  simp only [List.pairwise_cons, List.mem_cons, List.not_mem_nil, or_false, forall_eq_or_imp,
    forall_eq, ofInt_eq_zero_iff, List.Pairwise.nil, false_implies, implies_true, and_true]
  constructor
  · intro hp k hk j hj hzero
    rcases show k = 1 ∨ k = 2 ∨ k = 3 by omega with rfl | rfl | rfl
    · rcases show j = 0 by omega with rfl
      omega
    · rcases show j = 0 ∨ j = 1 by omega with rfl | rfl <;> omega
    · rcases show j = 0 ∨ j = 1 ∨ j = 2 by omega with rfl | rfl | rfl <;> omega
  · intro hz
    have hz10 := hz 1 (by decide) 0 (by decide)
    have hz20 := hz 2 (by decide) 0 (by decide)
    have hz21 := hz 2 (by decide) 1 (by decide)
    have hz30 := hz 3 (by decide) 0 (by decide)
    have hz31 := hz 3 (by decide) 1 (by decide)
    have hz32 := hz 3 (by decide) 2 (by decide)
    omega

theorem canceltimer_id_iff (hlo : -2 ^ 31 ≤ id) (hhi : id < 2 ^ 31) :
    (canceltimer id).id = id ↔ ZeroBytesOnTop id := by
  rw [← pairwise_idBytes_iff_zeroBytesOnTop, ← strncpy_eq_self_iff]
  exact idOfBytes_strncpy_iff id hlo hhi

end

/-- For every list that timer operations can lead to, every id that is not in it
    and every interval, a start and a cancellation leave the list as it was only if no
    zero byte of the id is below another one, and then they do if the carries of the
    start fit. -/
theorem cancelUndoesStart_iff (double : List UInt8 → ℚ≥0) (cell : Heap) (lasttime : Timeval)
    (calls : List TimerCall) (t : TimerList)
    (hrun : Machine.run TimerList.call (TimerList.empty cell lasttime) calls = some t)
    (timeInterval : List UInt8) (htime : timeInterval.length = 8) (id : Int)
    (hlo : -2 ^ 31 ≤ id) (hhi : id < 2 ^ 31) (hid : t.remaining id = none) (now now' : Timeval) :
    (CancelUndoesStart double t timeInterval id now now' → ZeroBytesOnTop id) ∧
      (t.Fits (.add id (double timeInterval) now) → ZeroBytesOnTop id →
        CancelUndoesStart double t timeInterval id now now') := by
  have h := TimerList.linked_run hrun
  rw [← canceltimer_id_iff hlo hhi]
  exact ⟨canceltimer_id_of_undone h hid htime hlo hhi,
    undone_of_canceltimer_id h hid htime hlo hhi⟩

/-- The bytes of one second and of 20.5 seconds as a `double`. -/
def oneSecond : List UInt8 := [0, 0, 0, 0, 0, 0, 0xf0, 0x3f]

def twentyAndAHalf : List UInt8 := [0, 0, 0, 0, 0, 0x80, 0x34, 0x40]

/-- The list of a process that has just been started. -/
def freshList : TimerList := TimerList.empty (fun _ => ⟨0, ⟨0, 0⟩, none, none⟩) ⟨0, 0⟩

/-- Timers of 30 and of 10.75 seconds, with an id of one byte between them. -/
theorem cancelUndoesStart_between :
    ∃ t, Machine.run TimerList.call freshList
        [.add (-1) 30 ⟨5, 0⟩, .add 256 (43 / 4) ⟨6, 0⟩] = some t ∧
      t.remaining (-1) = some 30000000 ∧ t.remaining 256 = some 10750000 ∧
      CancelUndoesStart (fun _ => 41 / 2) t twentyAndAHalf 255 ⟨7, 0⟩ ⟨8, 0⟩ := by
  have hval : (Machine.run TimerList.call freshList
      [.add (-1) 30 ⟨5, 0⟩, .add 256 (43 / 4) ⟨6, 0⟩]).map (fun t => decide
        (t.remaining (-1) = some 30000000 ∧ t.remaining 256 = some 10750000 ∧
          t.remaining 255 = none ∧ t.Fits (.add 255 (41 / 2) ⟨7, 0⟩))) = some true := by
    decide +kernel
  rcases Option.map_eq_some_iff.mp hval with ⟨t, hrun, hdec⟩
  rcases of_decide_eq_true hdec with ⟨hlast, hfirst, hid, hfits⟩
  exact ⟨t, hrun, hlast, hfirst, (cancelUndoesStart_iff (fun _ => 41 / 2) _ _ _ t hrun
    twentyAndAHalf rfl 255 (by decide) (by decide) hid _ _).2 hfits (by unfold ZeroBytesOnTop; decide)⟩

/-- An id whose lowest byte is zero is cancelled as zero. -/
theorem cancelUndoesStart_256 :
    ¬ CancelUndoesStart (fun _ => 1) freshList oneSecond 256 ⟨5, 0⟩ ⟨6, 0⟩ := by
  intro hundone
  have hid := canceltimer_id_of_undone (TimerList.linked_empty _ _).self rfl rfl (by decide)
    (by decide) hundone
  exact absurd hid (by decide)

end Cse5462
