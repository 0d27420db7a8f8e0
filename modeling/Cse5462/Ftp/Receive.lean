import Cse5462.Lib.Bytes
import Cse5462.Lib.Loop
import Cse5462.Tcpd.Head
import Mathlib.Data.List.Forall2

/-!
# Sending and Receiving the File

The loops in which ftpc reads the file and hands its blocks to the transport,
and in which ftps takes datagrams from it and writes the file.

ftps counts down the announced size by what it receives, and writes no more than
what is left of it. Whatever the datagrams are cut into, it writes the first
bytes of them, as many as were announced, and takes no datagram more than it
needs. The last block arrives padded, and the padding is not written.

## Main definitions

* `sendRound`: One round of a loop that sends a file.
* `Ftpc.step`, `Ftps.step`: One round of either loop.
* `Padded`: A block as the transport delivers it.

## Theorems

* `sendRound_ends`: The blocks that are sent.
* `ftps_ends`: What the receive loop writes and takes.
* `prefix_of_padded`: Padded blocks begin with the file.
* `ftps_receives`: The announced bytes are written, and a file arrives as it was.
-/

namespace Cse5462

/-- What a send loop works on. -/
structure Sending where
  /-- What is left to be read. -/
  file : List UInt8
  sent : List (List UInt8)

/-- One round of a loop that reads blocks of up to `n` bytes and sends them. -/
def sendRound (n : Nat) (s : Sending) : Sending ⊕ List (List UInt8) :=
  let block := s.file.take n
  if block.length > 0 then .inl { file := s.file.drop n, sent := s.sent ++ [block] }
  else .inr s.sent

/-- One round of the send loop of ftpc. -/
def Ftpc.step : Sending → Sending ⊕ List (List UInt8) := sendRound buffSize

/-- What the receive loop of ftps works on. -/
structure Ftps where
  size : Int
  /-- What is yet to be received. -/
  datagrams : List (List UInt8)
  written : List UInt8

/-- One round of the receive loop of ftps. Without a datagram, `RECV` waits. -/
def Ftps.step (s : Ftps) : Ftps ⊕ Ftps :=
  if s.size > 0 then
    match s.datagrams with
    | [] => .inl s
    | datagram :: datagrams =>
      let received := datagram.take buffSize
      let buf := Bytes.put (Bytes.zeros buffSize) 0 received
      let length : Int := received.length
      let actual := if s.size > length then length else s.size
      .inl
        { size := s.size - length, datagrams := datagrams,
          written := s.written ++ Bytes.slice buf 0 actual.toNat }
  else .inr s

/-- A block as the transport delivers it: what it does not fill is arbitrary. -/
def Padded (block datagram : List UInt8) : Prop :=
  block <+: datagram ∧ datagram.length = buffSize

theorem Padded.length_eq {blocks delivered : List (List UInt8)}
    (h : List.Forall₂ Padded blocks delivered) : ∀ d ∈ delivered, d.length = buffSize := by
  induction h with
  | nil =>
      intro d hd
      cases hd
  | cons hd _ ih => exact List.forall_mem_cons.mpr ⟨hd.2, ih⟩

/-- The blocks that are sent: together they are the file, none is empty, and
    each that is followed by another one is full. -/
theorem sendRound_ends {n : Nat} (hn : 0 < n) (file : List UInt8) (sent : List (List UInt8)) :
    ∃ blocks, Loop.Ends (sendRound n) ⟨file, sent⟩ (sent ++ blocks) ∧ blocks.flatten = file
      ∧ (∀ b ∈ blocks, 0 < b.length) ∧ blocks.IsChain fun b _ => b.length = n := by
  induction hlen : file.length using Nat.strong_induction_on generalizing file sent with
  | _ m ih =>
      by_cases hempty : file = []
      · refine ⟨[], .done ?_, hempty.symm, List.forall_mem_nil _, .nil⟩
        rw [hempty, List.append_nil]
        exact if_neg (by simp)
      · have hpos := List.length_pos_iff.mpr hempty
        have hblock : 0 < (file.take n).length := by
          rw [List.length_take]
          exact Nat.lt_min.mpr ⟨hn, hpos⟩
        have hround : sendRound n ⟨file, sent⟩ = .inl ⟨file.drop n, sent ++ [file.take n]⟩ :=
          if_pos hblock
        rcases ih _ (by rw [List.length_drop]; omega) (file.drop n) (sent ++ [file.take n]) rfl
          with ⟨blocks, hends, hflat, hne, hchain⟩
        rw [List.append_assoc, List.singleton_append] at hends
        refine ⟨file.take n :: blocks, .more hround hends, ?_,
          List.forall_mem_cons.mpr ⟨hblock, hne⟩, ?_⟩
        · rw [List.flatten_cons, hflat, List.take_append_drop]
        · cases blocks with
          | nil => exact .singleton _
          | cons b bs =>
              -- Something follows, so there was more than one block left.
              refine List.isChain_cons_cons.mpr ⟨?_, hchain⟩
              have hb := hne b List.mem_cons_self
              have hleft := congrArg List.length hflat
              rw [List.flatten_cons, List.length_append, List.length_drop] at hleft
              rw [List.length_take]
              omega

/-- A round that receives a datagram. -/
theorem Ftps.step_cons {size : Int} (hsize : 0 < size) {d : List UInt8}
    (hd : d.length ≤ buffSize) (datagrams : List (List UInt8)) (written : List UInt8) :
    Ftps.step ⟨size, d :: datagrams, written⟩
      = .inl ⟨size - d.length, datagrams, written ++ d.take size.toNat⟩ := by
  -- Of the buffer, no more is written than what was received.
  have hwrite : ∀ n ≤ d.length,
      Bytes.slice (Bytes.put (Bytes.zeros buffSize) 0 d) 0 n = d.take n := by
    intro n hn
    have hfit : 0 + d.length ≤ (Bytes.zeros buffSize).length := by
      rw [Bytes.length_zeros, Nat.zero_add]
      exact hd
    rw [Bytes.slice_put_inside hfit (Nat.zero_le 0) (by omega)]
    rfl
  have hactual : d.take (if size > d.length then (d.length : Int) else size).toNat
      = d.take size.toNat := by
    split
    · rw [Int.toNat_natCast, List.take_length, List.take_of_length_le (by omega)]
    · rfl
  unfold Ftps.step
  simp only [if_pos hsize, List.take_of_length_le hd]
  rw [hwrite _ (by split <;> omega), hactual]

/-- The loop takes the shortest run of datagrams that is enough, and writes the
    first bytes of it. -/
theorem ftps_ends (datagrams : List (List UInt8)) (hlen : ∀ d ∈ datagrams, d.length ≤ buffSize)
    (size : Int) (htotal : size ≤ datagrams.flatten.length) (written : List UInt8) :
    ∃ k ≤ datagrams.length, size ≤ (datagrams.take k).flatten.length
      ∧ (∀ j < k, ((datagrams.take j).flatten.length : Int) < size)
      ∧ Loop.Ends Ftps.step ⟨size, datagrams, written⟩
          ⟨size - (datagrams.take k).flatten.length, datagrams.drop k,
            written ++ datagrams.flatten.take size.toNat⟩ := by
  -- Each datagram lowers the size by its length and adds what is written of it.
  induction datagrams generalizing size written with
  | nil =>
      rw [List.flatten_nil, List.length_nil, Int.natCast_zero] at htotal
      refine ⟨0, Nat.le_refl _, htotal, fun j hj => absurd hj (Nat.not_lt_zero j), .done ?_⟩
      unfold Ftps.step
      rw [if_neg (show ¬ size > 0 by omega)]
      simp [show size.toNat = 0 by omega]
  | cons d ds ih =>
      by_cases hsize : 0 < size
      · rw [List.flatten_cons, List.length_append] at htotal
        rcases ih (fun d' h => hlen d' (List.mem_cons_of_mem _ h)) (size - d.length) (by omega)
          (written ++ d.take size.toNat) with ⟨k, hk, hle, hmin, hends⟩
        refine ⟨k + 1, Nat.succ_le_succ hk, ?_, ?_, ?_⟩
        · rw [List.take_succ_cons, List.flatten_cons, List.length_append]
          omega
        · intro j hj
          cases j with
          | zero => exact hsize
          | succ j =>
              have := hmin j (by omega)
              rw [List.take_succ_cons, List.flatten_cons, List.length_append]
              omega
        · refine .more (Ftps.step_cons hsize (hlen d List.mem_cons_self) ds written) ?_
          have hwritten : written ++ d.take size.toNat
              ++ ds.flatten.take (size - d.length).toNat
              = written ++ (d :: ds).flatten.take size.toNat := by
            rw [List.flatten_cons, List.take_append, List.append_assoc,
              show (size - d.length).toNat = size.toNat - d.length by omega]
          rw [hwritten] at hends
          rw [List.take_succ_cons, List.flatten_cons, List.length_append, List.drop_succ_cons,
            Int.natCast_add, ← Int.sub_sub]
          exact hends
      · refine ⟨0, Nat.zero_le _, by simpa using Int.not_lt.mp hsize,
          fun j hj => absurd hj (Nat.not_lt_zero j), .done ?_⟩
        unfold Ftps.step
        rw [if_neg hsize, show size.toNat = 0 by omega]
        simp

/-- However the blocks are padded, they begin with the file. -/
theorem prefix_of_padded {blocks delivered : List (List UInt8)}
    (hchain : blocks.IsChain fun b _ => b.length = buffSize)
    (hpad : List.Forall₂ Padded blocks delivered) : blocks.flatten <+: delivered.flatten := by
  induction hpad with
  | nil => exact List.prefix_refl _
  | @cons b d bs ds hd hds ih =>
      rw [List.flatten_cons, List.flatten_cons]
      cases bs with
      | nil =>
          rw [List.flatten_nil, List.append_nil]
          exact hd.1.trans (List.prefix_append d _)
      | cons b' bs =>
          -- A full block is delivered as it is.
          rw [List.isChain_cons_cons] at hchain
          have heq : b = d := hd.1.eq_of_length (hchain.1.trans hd.2.symm)
          rw [heq]
          exact (List.prefix_append_right_inj d).mpr (ih hchain.2)

/-- ftps writes the announced bytes of what it receives, and takes no more
    datagrams than it needs. The blocks of ftpc, padded, make it write the
    file. -/
theorem ftps_receives :
    (∀ (size : Int) (datagrams : List (List UInt8)), 0 ≤ size →
      (∀ d ∈ datagrams, 1 ≤ d.length ∧ d.length ≤ 1000) → size ≤ datagrams.flatten.length →
      ∃ k ≤ datagrams.length, size ≤ (datagrams.take k).flatten.length
        ∧ (∀ j < k, ((datagrams.take j).flatten.length : Int) < size)
        ∧ Loop.Ends Ftps.step ⟨size, datagrams, []⟩
            ⟨size - (datagrams.take k).flatten.length, datagrams.drop k,
              datagrams.flatten.take size.toNat⟩)
      ∧ ∀ file : List UInt8, ∃ blocks, Loop.Ends Ftpc.step ⟨file, []⟩ blocks
        ∧ ∀ delivered, List.Forall₂ Padded blocks delivered →
          ∃ t, Loop.Ends Ftps.step ⟨file.length, delivered, []⟩ t ∧ t.written = file := by
  refine ⟨fun size datagrams _ hlen htotal => ?_, fun file => ?_⟩
  · exact ftps_ends datagrams (fun d hd => (hlen d hd).2) size htotal []
  · rcases sendRound_ends (show 0 < buffSize by decide) file []
      with ⟨blocks, hends, hflat, -, hchain⟩
    refine ⟨blocks, hends, fun delivered hpad => ?_⟩
    have hfile := prefix_of_padded hchain hpad
    rw [hflat] at hfile
    rcases ftps_ends delivered (fun d hd => Nat.le_of_eq (Padded.length_eq hpad d hd)) file.length
      (Int.ofNat_le.mpr hfile.length_le) [] with ⟨k, -, -, -, h⟩
    refine ⟨_, h, ?_⟩
    rw [List.nil_append, Int.toNat_natCast]
    exact (List.prefix_iff_eq_take.mp hfile).symm

/-- Two of three bytes are announced. -/
theorem ftps_receives_two : Loop.Ends Ftps.step ⟨2, [[1], [2, 3]], []⟩ ⟨-1, [], [1, 2]⟩ := by
  rcases ftps_receives.1 2 [[1], [2, 3]] (by decide) (by simp) (by decide)
    with ⟨k, hk, hle, -, hends⟩
  have hk2 : k = 2 := by
    rcases k with _ | _ | k
    · exact absurd hle (by decide)
    · exact absurd hle (by decide)
    · have hk' : k + 2 ≤ 2 := hk
      omega
  subst hk2
  exact hends

end Cse5462
