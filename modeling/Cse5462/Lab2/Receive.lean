import Cse5462.Ftp.Receive

/-!
# The Receive Loop over a Stream

The second exercise transfers a file over a stream. Its ftpc sends blocks of up
to 4096 bytes, which the stream may cut differently, and its ftps counts down
the announced size by what `recv` returns.

`recv` returns the number of bytes received, a negative number on an error, and
zero for ever once the peer has closed. The loop tests for the error only. If
the peer closes before the announced number of bytes has come, nothing is
counted down any more and the loop does not end.

## Main definitions

* `Chunk`, `Ending`: What `recv` may return.
* `recv`: One call of it.
* `Ftps.step`: One round of the receive loop.

## Theorems

* `ftps_ends`: The loop ends with a prefix of the stream.
* `ftps_stuck`: It does not end after an early close.
* `ftps_receives_iff`: When it receives the stream.
* `transfer`: A file that is sent arrives, whatever the stream makes of it.
-/

namespace Cse5462

namespace Lab2

/-- `BUFFSIZE` of this exercise. -/
def buffSize : Nat := 4096

/-- What one call of `recv` takes from the stream. -/
structure Chunk where
  bytes : List UInt8
  pos : 1 ≤ bytes.length
  le : bytes.length ≤ buffSize

/-- How the stream ends. -/
inductive Ending where
  | closed
  | error
  deriving DecidableEq, Repr

/-- The bytes of the stream. -/
def stream (chunks : List Chunk) : List UInt8 := (chunks.map Chunk.bytes).flatten

/-- What `recv` returns, what it stores and what is left. -/
def recv : List Chunk → Ending → Int × List UInt8 × List Chunk
  | chunk :: chunks, _ => (chunk.bytes.length, chunk.bytes, chunks)
  | [], .closed => (0, [], [])
  | [], .error => (-1, [], [])

/-- What the receive loop of ftps works on. -/
structure Ftps where
  size : Int
  chunks : List Chunk
  ending : Ending
  written : List UInt8

/-- One round of the receive loop of ftps. The result is what has been
    written, also if the error test ends the program. -/
def Ftps.step (s : Ftps) : Ftps ⊕ List UInt8 :=
  if s.size > 0 then
    let (length, buf, chunks) := recv s.chunks s.ending
    let size := s.size - length
    -- A closed connection is no error: nothing is subtracted, and the loop goes on.
    if length < 0 then .inr s.written
    else .inl { s with
      size := size, chunks := chunks, written := s.written ++ buf.take length.toNat }
  else .inr s.written

/-- One round of the send loop of ftpc. -/
def Ftpc.step : Sending → Sending ⊕ List (List UInt8) := sendRound buffSize

/-- A round that receives bytes. -/
theorem Ftps.step_cons {size : Int} (hsize : 0 < size) (c : Chunk) (cs : List Chunk)
    (ending : Ending) (written : List UInt8) :
    Ftps.step ⟨size, c :: cs, ending, written⟩
      = .inl ⟨size - c.bytes.length, cs, ending, written ++ c.bytes⟩ := by
  unfold Ftps.step
  simp only [if_pos hsize, recv, if_neg (Int.not_lt.mpr (Int.natCast_nonneg _)),
    Int.toNat_natCast, List.take_length]

/-- A round after the peer has closed changes nothing. -/
theorem Ftps.step_closed {size : Int} (hsize : 0 < size) (written : List UInt8) :
    Ftps.step ⟨size, [], .closed, written⟩ = .inl ⟨size, [], .closed, written⟩ := by
  unfold Ftps.step
  simp only [if_pos hsize, recv, Int.sub_zero, List.take_nil, List.append_nil]
  rfl

/-- If enough bytes come, or the stream ends with an error, the loop ends with
    a prefix of the stream. -/
theorem ftps_ends (chunks : List Chunk) (ending : Ending) (size : Int)
    (h : size ≤ (stream chunks).length ∨ ending = .error) (written : List UInt8) :
    ∃ bytes, Loop.Ends Ftps.step ⟨size, chunks, ending, written⟩ (written ++ bytes)
      ∧ bytes <+: stream chunks ∧ (size = (stream chunks).length → bytes = stream chunks) := by
  -- Induction on what is left of the stream.
  induction chunks generalizing size written with
  | nil =>
      refine ⟨[], .done ?_, List.nil_prefix, fun _ => rfl⟩
      unfold Ftps.step
      rw [List.append_nil]
      rcases h with hle | rfl
      · exact if_neg (Int.not_lt.mpr hle)
      · split <;> rfl
  | cons c cs ih =>
      have hstream : stream (c :: cs) = c.bytes ++ stream cs := by
        unfold stream
        rw [List.map_cons, List.flatten_cons]
      by_cases hsize : 0 < size
      · rw [hstream, List.length_append] at h
        rcases ih (size - c.bytes.length) (h.imp_left fun _ => by omega) (written ++ c.bytes)
          with ⟨bytes, hends, hprefix, hall⟩
        rw [List.append_assoc] at hends
        refine ⟨c.bytes ++ bytes, .more (Ftps.step_cons hsize c cs ending written) hends, ?_, ?_⟩
        · rw [hstream]
          exact (List.prefix_append_right_inj _).mpr hprefix
        · intro heq
          rw [hstream, List.length_append] at heq
          rw [hstream, hall (by omega)]
      · -- All that was announced has come, and the rest stays in the stream.
        have hpos := c.pos
        refine ⟨[], .done ?_, List.nil_prefix, fun heq => ?_⟩
        · rw [List.append_nil]
          exact if_neg hsize
        · rw [hstream, List.length_append] at heq
          omega

/-- If the peer closes before enough bytes have come, the loop does not end. -/
theorem ftps_stuck (chunks : List Chunk) (size : Int) (h : (stream chunks).length < size)
    (written : List UInt8) : ¬ Loop.Terminates Ftps.step ⟨size, chunks, .closed, written⟩ := by
  refine Loop.not_terminates_of_invariant
    (I := fun s => s.ending = .closed ∧ (stream s.chunks).length < s.size) ?_ ⟨rfl, h⟩
  rintro ⟨size, chunks, ending, written⟩ ⟨rfl, hlt⟩
  dsimp only at hlt
  -- With nothing left, `recv` returns 0 for ever.
  cases chunks with
  | nil => exact ⟨_, Ftps.step_closed (by simpa [stream] using hlt) written, rfl, hlt⟩
  | cons c cs =>
      have hlen : (stream (c :: cs)).length = c.bytes.length + (stream cs).length := by
        unfold stream
        rw [List.map_cons, List.flatten_cons, List.length_append]
      refine ⟨_, Ftps.step_cons (by omega) c cs .closed written, rfl, ?_⟩
      dsimp only
      omega

/-- The loop ends, with a prefix of the stream, and with the whole of it if that
    is what was announced. -/
def Receives (size : Int) (chunks : List Chunk) (ending : Ending) : Prop :=
  ∃ written, Loop.Ends Ftps.step ⟨size, chunks, ending, []⟩ written
    ∧ written <+: stream chunks ∧ (size = (stream chunks).length → written = stream chunks)

/-- The stream is received if the announced number of bytes comes, or if the
    stream ends with an error. -/
theorem ftps_receives_iff (size : Int) (chunks : List Chunk) (ending : Ending) :
    Receives size chunks ending ↔ size ≤ (stream chunks).length ∨ ending = .error := by
  constructor
  · rintro ⟨written, hends, -⟩
    by_contra hnot
    rw [not_or, Int.not_le] at hnot
    cases ending with
    | closed => exact ftps_stuck chunks size hnot.1 [] ⟨written, hends⟩
    | error => exact hnot.2 rfl
  · intro h
    exact ftps_ends chunks ending size h []

/-- One byte is announced, and the peer closes. -/
theorem ftps_receives_nothing : ¬ Receives 1 [] .closed := by
  rintro ⟨written, hends, -⟩
  exact ftps_stuck [] 1 (by decide) [] ⟨written, hends⟩

/-- A file that is sent arrives, whatever the stream cuts it into. -/
theorem transfer (file : List UInt8) :
    ∃ blocks, Loop.Ends Ftpc.step ⟨file, []⟩ blocks
      ∧ ∀ chunks ending, stream chunks = blocks.flatten →
        Loop.Ends Ftps.step ⟨file.length, chunks, ending, []⟩ file := by
  rcases sendRound_ends (show 0 < buffSize by decide) file [] with ⟨blocks, hends, hflat, -, -⟩
  refine ⟨blocks, hends, fun chunks ending hstream => ?_⟩
  rw [hflat] at hstream
  rcases ftps_ends chunks ending file.length (Or.inl (by rw [hstream])) []
    with ⟨bytes, h, -, hall⟩
  rw [List.nil_append, hall (by rw [hstream]), hstream] at h
  exact h

end Lab2

end Cse5462
