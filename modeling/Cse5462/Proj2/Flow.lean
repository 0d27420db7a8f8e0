import Cse5462.Lib.Machine
import Cse5462.Lib.Sequences

/-!
# The Flow of the Simulation

`WriteUntilBufferFull` of `myproj2.cc` hands a million bytes to a socket, in pieces
cut from one buffer of 1040 letters. The buffer holds the alphabet forty times
over, so a receiver that sees the alphabet in order knows that no piece was lost,
repeated or swapped. `pattern_sent` shows that the sender keeps its part: whatever
the socket takes of each piece, and however often it refuses, what it has taken is
the alphabet in order.

The function is called again when the socket has room, as the comment in it says.
Its loop also ends when there is no room, and then it falls through to `Close`. The
socket may take more after that, and the pattern goes on where it stopped.

## Main definitions

* `Flow`: The counter of the sender, and what the socket has taken.
* `Flow.step`: A call, or a round of the loop.
* `Flow.Answers`: What a socket can do.

## Theorems

* `pattern_sent`: What the socket has taken.
-/

namespace Cse5462

namespace Proj2

def totalTxBytes : Nat := 1000000

def writeSize : Nat := 1040

/-- The byte of the pattern at a place. -/
def letter (i : Nat) : UInt8 := UInt8.ofNat (97 + i % 26)

/-- The buffer that is written from. -/
def data : List UInt8 := (List.range writeSize).map letter

/-- The sender and its socket. -/
structure Flow where
  currentTxBytes : Nat
  /-- A call of `WriteUntilBufferFull` is going on. -/
  writing : Bool
  closed : Bool
  /-- What the socket has taken. -/
  sent : List UInt8
  deriving DecidableEq, Repr

/-- What happens to the sender. -/
inductive Event where
  /-- The flow is started, or the socket says that it has room. -/
  | writeUntilBufferFull
  /-- The loop comes to its condition. The socket has so much room, and if the
      loop goes on it takes that many bytes or fails. -/
  | round (txAvailable : Nat) (amountSent : Option Nat)
  deriving DecidableEq, Repr

namespace Flow

def init : Flow := { currentTxBytes := 0, writing := false, closed := false, sent := [] }

def left (s : Flow) : Nat := totalTxBytes - s.currentTxBytes

def dataOffset (s : Flow) : Nat := s.currentTxBytes % writeSize

/-- The size of the piece that the socket is given. -/
def toWrite (s : Flow) (txAvailable : Nat) : Nat :=
  min (min (writeSize - s.dataOffset) s.left) txAvailable

/-- One event. The socket reads the piece that it is given, which must lie inside
    the buffer. -/
def step (s : Flow) : Event → Option Flow
  | .writeUntilBufferFull => if s.writing then none else some { s with writing := true }
  | .round txAvailable amountSent =>
      if s.writing = false then none
      else if s.currentTxBytes < totalTxBytes ∧ 0 < txAvailable then
        -- The piece would go over the end of the buffer.
        if data.length < s.dataOffset + s.toWrite txAvailable then none
        else
          match amountSent with
          -- The call returns, and the socket calls back when it has room.
          | none => some { s with writing := false }
          | some n => some
              { s with
                currentTxBytes := s.currentTxBytes + n
                sent := s.sent ++ (data.drop s.dataOffset).take n }
      else some { s with writing := false, closed := true }

/-- What a socket can do: It does not call while a call is going on, and it takes
    no more than it is given. It may go on taking after it was told to close, since
    it closes when all that it has taken is sent. -/
def Answers (s : Flow) : Event → Prop
  | .writeUntilBufferFull => s.writing = false
  | .round txAvailable amountSent =>
      s.writing = true ∧ ∀ n ∈ amountSent, n ≤ s.toWrite txAvailable

instance (s : Flow) (e : Event) : Decidable (Answers s e) := by
  cases e <;> unfold Answers <;> exact inferInstance

end Flow

theorem periodic_letter : Function.Periodic letter writeSize := by
  intro i
  have hmod : (i + writeSize) % 26 = i % 26 := by
    unfold writeSize
    omega
  unfold letter
  rw [hmod]

namespace Flow

/-- The socket has taken the beginning of the pattern. -/
structure Valid (s : Flow) : Prop where
  le_total : s.currentTxBytes ≤ totalTxBytes
  sent_eq : s.sent = (List.range s.currentTxBytes).map letter

theorem valid_init : init.Valid := ⟨Nat.zero_le _, rfl⟩

theorem length_data : data.length = writeSize := by
  unfold data
  rw [List.length_map, List.length_range]

/-- The piece lies inside the buffer. -/
theorem dataOffset_add_toWrite (s : Flow) (txAvailable : Nat) :
    s.dataOffset + s.toWrite txAvailable ≤ writeSize := by
  have hlt : s.dataOffset < writeSize := Nat.mod_lt _ (by decide)
  unfold toWrite
  omega

/-- It is not longer than what is left. -/
theorem toWrite_le_left (s : Flow) (txAvailable : Nat) : s.toWrite txAvailable ≤ s.left := by
  unfold toWrite
  omega

/-- What a round does to the sender. -/
theorem step_round {s : Flow} {txAvailable : Nat} {amountSent : Option Nat}
    (hwriting : s.writing = true) : s.step (.round txAvailable amountSent) = some
      (if s.currentTxBytes < totalTxBytes ∧ 0 < txAvailable then
        match amountSent with
        | none => { s with writing := false }
        | some n =>
            { s with
              currentTxBytes := s.currentTxBytes + n
              sent := s.sent ++ (data.drop s.dataOffset).take n }
      else { s with writing := false, closed := true }) := by
  have hinside : ¬ data.length < s.dataOffset + s.toWrite txAvailable := by
    rw [length_data]
    exact Nat.not_lt.mpr (s.dataOffset_add_toWrite txAvailable)
  unfold step
  dsimp only
  rw [if_neg (by rw [hwriting]; exact Bool.noConfusion)]
  by_cases h : s.currentTxBytes < totalTxBytes ∧ 0 < txAvailable
  · rw [if_pos h, if_pos h, if_neg hinside]
    cases amountSent <;> rfl
  · rw [if_neg h, if_neg h]

/-- Taking a piece keeps the pattern. -/
theorem Valid.take {s : Flow} (hs : s.Valid) {txAvailable n : Nat}
    (hn : n ≤ s.toWrite txAvailable) :
    Valid { s with
      currentTxBytes := s.currentTxBytes + n
      sent := s.sent ++ (data.drop s.dataOffset).take n } := by
  -- The piece is cut from one period of the pattern, where the last one ended.
  have hinside := s.dataOffset_add_toWrite txAvailable
  have hleft := s.toWrite_le_left txAvailable
  have htotal := hs.le_total
  refine ⟨?_, ?_⟩
  · unfold left at hleft
    dsimp only
    omega
  · dsimp only
    rw [hs.sent_eq]
    exact range_append_slice periodic_letter (by unfold dataOffset at hinside; omega)

/-- Whatever the socket does, the sender goes on. -/
theorem valid_step (s : Flow) (e : Event) (hs : s.Valid) (he : s.Answers e) :
    ∃ s', s.step e = some s' ∧ s'.Valid := by
  cases e with
  | writeUntilBufferFull =>
      refine ⟨{ s with writing := true }, ?_, hs.le_total, hs.sent_eq⟩
      unfold step
      exact if_neg (by rw [he]; exact Bool.noConfusion)
  | round txAvailable amountSent =>
      refine ⟨_, step_round he.1, ?_⟩
      split_ifs
      -- The loop goes on, or it ends and nothing more is taken.
      · cases amountSent with
        | none => exact ⟨hs.le_total, hs.sent_eq⟩
        | some n => exact hs.take (he.2 n rfl)
      · exact ⟨hs.le_total, hs.sent_eq⟩

end Flow

/-- However the bytes are taken, the socket has taken the letters in their order,
    and every piece that it was given lay inside the buffer. -/
theorem pattern_sent (es : List Event) (hes : Machine.Meets Flow.step Flow.Answers Flow.init es) :
    ∃ s, Machine.run Flow.step Flow.init es = some s ∧ s.currentTxBytes ≤ totalTxBytes ∧
      s.sent = (List.range s.currentTxBytes).map letter := by
  rcases Machine.run_total Flow.valid_step es Flow.init Flow.valid_init hes with ⟨s, hrun, hs⟩
  exact ⟨s, hrun, hs.le_total, hs.sent_eq⟩

/-- A flow of two pieces, the first one taken in part. -/
def twoPieces : List Event :=
  [.writeUntilBufferFull, .round 2000 (some 30), .round 1970 (some 20), .round 1950 none]

theorem pattern_sent_two :
    ∃ s, Machine.run Flow.step Flow.init twoPieces = some s ∧ s.currentTxBytes ≤ totalTxBytes ∧
      s.sent = (List.range s.currentTxBytes).map letter :=
  pattern_sent twoPieces (by decide +kernel)

end Proj2

end Cse5462
