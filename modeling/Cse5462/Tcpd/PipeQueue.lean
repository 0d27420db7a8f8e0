import Cse5462.Lib.Framing
import Cse5462.Tcpd.Pipe

/-!
# The Pipes Between the Two Processes

Both pipes of `client` keep bytes. Every message is written in 1200 of them and
read in 1200 of them, so the pipes are the queues that the model of the client
has: each read takes the oldest message that has not been read, whatever the
other process has written in the meantime.

What is read of a start is what was written, and what is read of a resend request
is its number. Of a cancellation it is the number as `strncpy` has left it, the
one that `canceltimer` puts into the queue.

## Main definitions

* `Command`: What the driver writes to the timer process.
* `Command.encode`, `Command.message`: Its bytes, and the message it stands for.
* `readCommand`: What the timer process makes of 1200 bytes.
* `resendMessage`, `readRequest`: The message of `update_time_list`, and what the
  driver makes of it.

## Theorems

* `readRequest_resendMessage`: A request read back.
* `pipes_framed`: Both pipes are queues of messages.
-/

namespace Cse5462

open Bytes

/-- What the driver writes to the timer process. The interval is the eight bytes
    of a `double`. -/
inductive Command where
  | start (timeInterval : List UInt8) (id : Int)
  | cancel (id : Int)

/-- The bytes that `starttimer` or `canceltimer` writes. -/
def Command.encode : Command → List UInt8
  | .start timeInterval id => startMessage timeInterval id
  | .cancel id => cancelMessage id

/-- The message that it stands for. -/
def Command.message (double : List UInt8 → ℚ≥0) : Command → Message
  | .start timeInterval id => starttimer (double timeInterval) id
  | .cancel id => canceltimer id

/-- The interval is a `double` and the id an `int`. -/
def Command.Fits : Command → Prop
  | .start timeInterval id =>
      timeInterval.length = doubleSize ∧ -2 ^ 31 ≤ id ∧ id < 2 ^ 31
  | .cancel _ => True

/-- What the timer process makes of what it has read. -/
def readCommand (double : List UInt8 → ℚ≥0) (bufin : List UInt8) : Option Message :=
  let m := decode bufin
  if m.is "start" then
    some { operation := .start, id := m.id, interval := double m.timeInterval }
  else if m.is "cancel" then some { operation := .cancel, id := m.id, interval := 0 }
  else none

/-- What `update_time_list` writes to the driver for a node that is due. -/
def resendMessage (id : Int) : List UInt8 :=
  let operation := charArray optSize "resend"
  let bufout := zeros bufferSize
  -- The id is copied as it is, with all of its bytes.
  let bufout := put bufout 0 (strncpy operation)
  put bufout optSize (idBytes id)

/-- What the driver makes of what it has read: the number of the packet to send
    again, if the operation is right. -/
def readRequest (bufin : List UInt8) : Option Int :=
  let m := decode bufin
  if m.is "resend" then some m.id else none

theorem length_startMessage {timeInterval : List UInt8} (htime : timeInterval.length = doubleSize)
    (id : Int) : (startMessage timeInterval id).length = bufferSize := by
  have hop : (strncpy (charArray optSize "start")).length = optSize := by decide
  have htext : (strncpy (charArray infoSize "This is a test string")).length = infoSize := by
    rw [length_strncpy, charArray, length_put (by rw [length_zeros]; decide), length_zeros]
  rcases header_spec hop (length_idBytes id) with ⟨hlen, -, -, -⟩
  unfold startMessage
  dsimp only
  generalize put (put (zeros bufferSize) 0 (strncpy (charArray optSize "start"))) optSize
    (idBytes id) = header at hlen ⊢
  have hbody : optSize + idSize + timeInterval.length ≤ header.length := by
    rw [hlen, htime]
    decide
  rw [length_put, length_put hbody, hlen]
  rw [length_put hbody, hlen, htext]
  decide

theorem length_cancelMessage (id : Int) : (cancelMessage id).length = bufferSize :=
  (header_spec (by decide) (length_strncpy (idBytes id))).1

theorem length_resendMessage (id : Int) : (resendMessage id).length = bufferSize :=
  (header_spec (by decide) (length_idBytes id)).1

theorem Command.length_encode (c : Command) (h : c.Fits) : c.encode.length = bufferSize := by
  cases c with
  | start timeInterval id => exact length_startMessage h.1 id
  | cancel id => exact length_cancelMessage id

/-- What the timer process reads is the message that the command stands for. -/
theorem readCommand_encode (double : List UInt8 → ℚ≥0) (c : Command) (h : c.Fits) :
    readCommand double c.encode = some (c.message double) := by
  have hstart : cString (charArray optSize "start") = chars "start" := by decide
  have hcancel : cString (charArray optSize "cancel") = chars "cancel" := by decide
  unfold readCommand Decoded.is
  cases c with
  -- The name of the operation tells the two kinds apart.
  | start timeInterval id =>
      simp only [Command.encode, decode_startMessage h.1 h.2.1 h.2.2, hstart, decide_true, if_true]
      rfl
  | cancel id =>
      simp only [Command.encode, decode_cancelMessage, hcancel]
      rw [if_neg (by decide), if_pos (by decide)]
      rfl

/-- The driver reads the number that was written. -/
theorem readRequest_resendMessage {id : Int} (hlo : -2 ^ 31 ≤ id) (hhi : id < 2 ^ 31) :
    readRequest (resendMessage id) = some id := by
  have hop : (strncpy (charArray optSize "resend")).length = optSize := by decide
  have hresend : cString (strncpy (strncpy (charArray optSize "resend"))) = chars "resend" := by
    decide
  rcases header_spec hop (length_idBytes id) with ⟨-, hsop, hsid, -⟩
  unfold readRequest Decoded.is decode resendMessage
  dsimp only
  rw [hsop, hsid, idOfBytes_idBytes hlo hhi, hresend, if_pos (by decide)]

/-- However the two processes take turns, what the timer process has read are
    the commands that were written first, in order, and the pipe holds the
    others; and so it is with the requests that the driver reads. -/
theorem pipes_framed (double : List UInt8 → ℚ≥0) :
    (∀ (es : List (StreamEvent Command)) (s : Stream Command (Option Message) UInt8),
        (∀ e ∈ es, Stream.Valid Command.Fits e) →
        Machine.run (Stream.step bufferSize Command.encode (readCommand double)) Stream.init es
          = some s →
        s.Framed Command.encode fun c => some (c.message double)) ∧
      ∀ (es : List (StreamEvent Int)) (s : Stream Int (Option Int) UInt8),
        (∀ e ∈ es, Stream.Valid (fun id => -2 ^ 31 ≤ id ∧ id < 2 ^ 31) e) →
        Machine.run (Stream.step bufferSize resendMessage readRequest) Stream.init es = some s →
        s.Framed resendMessage some := by
  -- Both pipes carry messages of one size, each of which can be read back.
  refine ⟨fun es s hes hrun => ?_, fun es s hes hrun => ?_⟩
  · exact Stream.framed_run Command.length_encode (readCommand_encode double) es hes s hrun
  · exact Stream.framed_run (fun id _ => length_resendMessage id)
      (fun id h => readRequest_resendMessage h.1 h.2) es hes s hrun

end Cse5462
