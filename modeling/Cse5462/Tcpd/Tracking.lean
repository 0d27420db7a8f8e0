import Cse5462.Tcpd.Client

/-!
# Frames Without an Acknowledgement

The client with a record of the frames that have been sent for the first time
and for which no acknowledgement has been processed since. The record holds the
block that was sent. A sequence number that is used again takes the place of the
earlier frame.

What the driver has asked of the timer process for a number is what the last
command with that number in the pipe says, `lastCommand`.

## Main definitions

* `Tracked`: The client with the record.
* `Tracked.step`: A step of both.
* `lastCommand`: The last command for a number in the pipe.
* `Tracked.Regular`: What holds of every state.

## Theorems

* `lastCommand_concat`, `lastCommand_cons`: A command written or read.
-/

namespace Cse5462

/-- The client, and the blocks of the frames that have been sent and not been
    acknowledged since, by sequence number. -/
structure Tracked where
  client : Client
  live : Int → Option Block

namespace Tracked

/-- The record after a step: a first transmission is entered, and an
    acknowledgement removes the number it carries. -/
def record (live : Int → Option Block) : ClientEvent → Option Packet → Int → Option Block
  | .send _, some p => Function.update live p.seq (some p.body)
  | .ack n _ _, _ => Function.update live n none
  | _, _ => live

/-- A step of the client, and the record of it. -/
def step (top : Int) (t : Tracked) (e : ClientEvent) : Option Tracked :=
  (t.client.step top e).map fun r => { client := r.1, live := record t.live e r.2 }

/-- The client before anything has been sent. -/
def init (sendbuf : Int → Block) (cell : Heap) (start : Timeval) : Tracked :=
  { client := Client.init sendbuf cell start, live := fun _ => none }

/-- The client before anything has been sent, with a clear send buffer. -/
def fresh : Tracked :=
  init (fun _ => Block.zero) (fun _ => ⟨0, ⟨0, 0⟩, none, none⟩) ⟨0, 0⟩

end Tracked

/-- The last command for number `n` that is in the pipe. -/
def lastCommand (n : Int) : List Message → Option Operation
  | [] => none
  | m :: ms => (lastCommand n ms).or (if m.id = n then some m.operation else none)

/-- A command read from the pipe, if it was not the last one for a number. -/
theorem lastCommand_cons (n : Int) (m : Message) (ms : List Message) :
    lastCommand n (m :: ms)
      = (lastCommand n ms).or (if m.id = n then some m.operation else none) := rfl

/-- A command written to the pipe is the last one for its number. -/
theorem lastCommand_concat (n : Int) (ms : List Message) (m : Message) :
    lastCommand n (ms ++ [m]) = if m.id = n then some m.operation else lastCommand n ms := by
  -- Induction on the commands that are in front.
  induction ms with
  | nil =>
      rw [List.nil_append, lastCommand_cons]
      unfold lastCommand
      rw [Option.none_or]
  | cons x ms ih =>
      rw [List.cons_append, lastCommand_cons, lastCommand_cons, ih]
      by_cases hm : m.id = n
      · rw [if_pos hm, if_pos hm, Option.some_or]
      · rw [if_neg hm, if_neg hm]

namespace Tracked

/-- What holds of every state: the timer list is well formed, and the numbers
    that are recorded are those of slots. -/
structure Regular (t : Tracked) : Prop where
  timer : t.client.timer.Sound
  lfs_ge : -1 ≤ t.client.driver.cursors.lfs
  lfs_le : t.client.driver.cursors.lfs ≤ 62
  live_slot : ∀ n, t.live n ≠ none → 0 ≤ n ∧ n < 64

theorem regular_init (sendbuf : Int → Block) (cell : Heap) (start : Timeval) :
    (init sendbuf cell start).Regular where
  timer := TimerProcess.sound_init cell start
  lfs_ge := le_refl (-1)
  lfs_le := Int.le_of_lt (by decide : (-1 : Int) < 62)
  live_slot := fun _ hn => absurd rfl hn

/-- Removing a number from the record. -/
theorem live_slot_ack {live : Int → Option Block} (h : ∀ n, live n ≠ none → 0 ≤ n ∧ n < 64)
    (k n : Int) (hn : Function.update live k none n ≠ none) : 0 ≤ n ∧ n < 64 := by
  by_cases hnk : n = k
  · rw [hnk, Function.update_self] at hn
    exact absurd rfl hn
  · rw [Function.update_of_ne hnk] at hn
    exact h n hn

theorem regular_step (top : Int) (t : Tracked) (e : ClientEvent) (t' : Tracked) (h : t.Regular)
    (hstep : t.step top e = some t') : t'.Regular := by
  rcases h with ⟨htimer, hge, hle, hslot⟩
  rcases Option.map_eq_some_iff.mp hstep with ⟨⟨c', out⟩, hc, rfl⟩
  -- The timer list is as good as the client leaves it.
  have htimer' : c'.timer.Sound :=
    (Client.asks_step (G := fun _ => True) top e out
      ⟨htimer, fun _ _ _ => trivial, fun _ _ => trivial, fun _ _ => trivial, fun _ _ => trivial⟩
      hc fun _ _ => trivial).timer
  cases Client.step_cases top t.client c' e out hc with
  | acked n stamp now lar hphase hscan => exact ⟨htimer', hge, hle, live_slot_ack hslot n⟩
  | sent now hphase hguard =>
      have hsize : sendRecvBufSize = 64 := rfl
      refine ⟨htimer', ?_, ?_, fun n hn => ?_⟩
      · dsimp only [Cursors.sent]
        split <;> omega
      · dsimp only [Cursors.sent]
        split <;> omega
      · -- The number of a first transmission is that of the slot after `lfs`.
        dsimp only [record, Driver.packet] at hn
        by_cases hseq : n = t.client.driver.cursors.lfs + 1
        · omega
        · rw [Function.update_of_ne hseq] at hn
          exact hslot n hn
  | _ => exact ⟨htimer', hge, hle, hslot⟩

end Tracked

end Cse5462
