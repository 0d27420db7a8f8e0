import Cse5462.Lib.Machine
import Cse5462.Tcpd.ReceiveWindow

/-!
# Reassembly

What `server` makes of the packets of a transfer `b` that reach it, over whole
runs. The frames arrive in any order and any number of times, each within the
range in which 64 sequence numbers identify it, and the blocks that have been
passed to ftps should be the longest prefix of the transfer that has arrived
completely. They are, up to the arrival of a frame numbered 0 at a server whose
`lfr` stands at slot 63. That server has filled its window up to slot 63 without
wrapping it, and it never passes on another block.

## Main definitions

* `Receiver`: The server with what it has passed on and what has arrived.
* `Receiver.InOrder`: The blocks passed on are the prefix that has arrived.
* `Receiver.Assembled`: The invariant that ties the server to the transfer.

## Theorems

* `receiver_step`: One arrival keeps the invariant.
* `reassembly_iff`: When the blocks passed on are in order.
-/

namespace Cse5462

/-- The arrival of a copy of frame `frame`. -/
structure Arrival where
  frame : Nat
  timeStamp : Timeval

/-- The packet that carries frame `a.frame` of the transfer `b`. -/
def Arrival.packet (b : Nat → Block) (a : Arrival) : Packet :=
  { seq := seqOf a.frame, timeStamp := a.timeStamp, body := b a.frame }

/-- The server, the datagrams it has passed to ftps, and the frames that have
    reached it. -/
structure Receiver where
  server : Server
  passed : List (List UInt8)
  arrived : List Nat

namespace Receiver

def init : Receiver := { server := Server.init, passed := [], arrived := [] }

/-- The frame is one that 64 sequence numbers identify, for a window of 20. -/
def Admits (r : Receiver) (a : Arrival) : Prop :=
  r.passed.length ≤ a.frame + 44 ∧ a.frame < r.passed.length + 20

instance (r : Receiver) (a : Arrival) : Decidable (r.Admits a) := by
  unfold Admits
  exact inferInstance

/-- The server takes an arrival. -/
def step (b : Nat → Block) (r : Receiver) (a : Arrival) : Option Receiver :=
  if r.Admits a then
    (r.server.step (fullSize (a.packet b))).map fun o =>
      { server := o.1, passed := r.passed ++ o.2.1, arrived := a.frame :: r.arrived }
  else none

/-- The blocks passed to ftps are the first `k` of the transfer, where `k` is
    the first frame that has not arrived. -/
def InOrder (b : Nat → Block) (r : Receiver) : Prop :=
  ∃ k, r.passed = (List.range k).map (fun n => (b n).bytes) ∧
    (∀ n, n < k → n ∈ r.arrived) ∧ k ∉ r.arrived

/-- What the buffer stores for a frame, given the frames that have arrived. -/
def stored (b : Nat → Block) (arrived : List Nat) (n : Nat) : Block :=
  if n ∈ arrived then b n else Block.zero

/-- The invariant: `k` blocks are passed on, the cursors stand there, and the
    buffer holds the frames beyond. -/
structure Assembled (b : Nat → Block) (r : Receiver) (k : Nat) : Prop where
  passed_eq : r.passed = (List.range k).map fun n => (b n).bytes
  cursors : r.server.At k
  slots : r.server.Slots k (stored b r.arrived)
  below : ∀ n, n < k → n ∈ r.arrived
  missing : k ∉ r.arrived
  within : ∀ n ∈ r.arrived, n < k + 20

theorem assembled_init (b : Nat → Block) : Assembled b init 0 where
  passed_eq := rfl
  cursors := Server.at_init
  slots := by
    intro n _ _
    simp only [stored, init, List.not_mem_nil, if_false]
    rfl
  below := fun n hn => absurd hn (Nat.not_lt_zero n)
  missing := List.not_mem_nil
  within := fun n hn => absurd hn List.not_mem_nil

theorem Assembled.inOrder {b : Nat → Block} {r : Receiver} {k : Nat} (h : Assembled b r k) :
    InOrder b r := ⟨k, h.passed_eq, h.below, h.missing⟩

theorem Assembled.length_passed {b : Nat → Block} {r : Receiver} {k : Nat}
    (h : Assembled b r k) : r.passed.length = k := by
  rw [h.passed_eq, List.length_map, List.length_range]

theorem stored_cons (b : Nat → Block) (arrived : List Nat) (n : Nat) :
    Function.update (stored b arrived) n (b n) = stored b (n :: arrived) := by
  ext m : 1
  by_cases hm : m = n
  · subst hm
    simp only [Function.update_self, stored, List.mem_cons_self, if_true]
  · simp only [Function.update_of_ne hm, stored, List.mem_cons, hm, false_or]

theorem stored_cons_of_mem (b : Nat → Block) (arrived : List Nat) (n : Nat) (hn : n ∈ arrived) :
    stored b (n :: arrived) = stored b arrived := by
  rw [← stored_cons, Function.update_eq_self_iff]
  simp only [stored, hn, if_true]

theorem stored_eq_zero_iff {b : Nat → Block} (hb : ∀ n, b n ≠ Block.zero) (arrived : List Nat)
    (n : Nat) : stored b arrived n = Block.zero ↔ n ∉ arrived := by
  by_cases hn : n ∈ arrived
  · simp only [stored, hn, if_true, hb n, not_true_eq_false]
  · simp only [stored, hn, if_false, not_false_eq_true]

variable {b : Nat → Block} {r : Receiver} {k : Nat} {a : Arrival}

theorem Assembled.beyond (h : Assembled b r k) :
    ∀ n, k + 20 ≤ n → stored b r.arrived n = Block.zero := by
  intro n hn
  refine if_neg ?_
  intro hmem
  have := h.within n hmem
  omega

/-- The server's answer to an admitted arrival, as a step of the receiver. -/
theorem step_of_receive (hadm : r.Admits a) (s' : Server) (out : List (List UInt8))
    (h : r.server.receive (fullSize (a.packet b)) = some (s', out)) :
    step b r a
      = some { server := s', passed := r.passed ++ out, arrived := a.frame :: r.arrived } := by
  simp only [step, if_pos hadm, Server.step, h, Option.map_some]

/-- A packet with the number of a frame that has arrived before changes nothing,
    whatever it carries. -/
theorem receive_again (h : Assembled b r k) (hb : ∀ n, b n ≠ Block.zero) (n : Nat)
    (hmem : n ∈ r.arrived) (hlo : k ≤ n + 44) (p : Packet) (hseq : p.seq = seqOf n) :
    r.server.receive (fullSize p) = some (r.server, []) := by
  rcases Nat.lt_or_ge n k with hlt | hge
  · exact Server.receive_old r.server k n p h.cursors hseq hlo hlt
  · refine Server.receive_held r.server k n _ p h.slots hseq hge ?_ ?_
    · have := h.within _ hmem
      omega
    · rw [Ne, stored_eq_zero_iff hb, not_not]
      exact hmem

/-- A frame that has arrived before changes nothing. -/
theorem step_again (h : Assembled b r k) (hb : ∀ n, b n ≠ Block.zero) (hadm : r.Admits a)
    (hmem : a.frame ∈ r.arrived) :
    ∃ r', step b r a = some r' ∧ Assembled b r' k := by
  have hlen := h.length_passed
  have hsame := receive_again h hb a.frame hmem (hlen ▸ hadm.1) (a.packet b) rfl
  refine ⟨_, step_of_receive hadm _ _ hsame, ?_⟩
  refine ⟨by rw [List.append_nil]; exact h.passed_eq, h.cursors, ?_, fun n hn => ?_, ?_, ?_⟩
  · simp only [stored_cons_of_mem b r.arrived a.frame hmem]
    exact h.slots
  · exact List.mem_cons_of_mem _ (h.below n hn)
  · rw [List.mem_cons, not_or]
    exact ⟨fun heq => h.missing (heq ▸ hmem), h.missing⟩
  · intro n hn
    rcases List.mem_cons.mp hn with rfl | hn
    · exact h.within _ hmem
    · exact h.within n hn

/-- A frame that has not arrived is in the window: one below `k` would have. -/
theorem new_frame_bounds (h : Assembled b r k) (hadm : r.Admits a)
    (hnew : a.frame ∉ r.arrived) : k ≤ a.frame ∧ a.frame < k + 20 := by
  refine ⟨?_, h.length_passed ▸ hadm.2⟩
  by_contra hlt
  exact hnew (h.below _ (by omega))

/-- A new frame is stored, and everything up to the next gap is passed on. -/
theorem step_new (h : Assembled b r k) (hb : ∀ n, b n ≠ Block.zero) (hadm : r.Admits a)
    (hnew : a.frame ∉ r.arrived) (hlfr : r.server.lfr ≠ 63) :
    ∃ r' j, step b r a = some r' ∧ Assembled b r' j := by
  rcases new_frame_bounds h hadm hnew with ⟨hge, hlt⟩
  have hstore : Function.update (stored b r.arrived) a.frame (a.packet b).body
      = stored b (a.frame :: r.arrived) := stored_cons b r.arrived a.frame
  -- Everything up to the next missing frame is passed on.
  rcases Server.exists_first_missing k (stored b (a.frame :: r.arrived)) (by
    rw [← hstore]
    exact Server.beyond_store k a.frame _ (a.packet b) hlt h.beyond) with ⟨j, hkj, hfull, hstop⟩
  rcases Server.receive_new r.server k a.frame (stored b r.arrived) (a.packet b) h.cursors h.slots
    h.beyond hlfr rfl hge hlt ((stored_eq_zero_iff hb _ _).mpr hnew) j hkj
    (by rw [hstore]; exact hfull) (by rw [hstore]; exact hstop) with ⟨s', hrec, hat', hslots'⟩
  rw [hstore] at hrec hslots'
  -- What the server passes on are blocks of the transfer.
  have hmem : ∀ m, k ≤ m → m < j → m ∈ a.frame :: r.arrived := by
    intro m hm hmj
    by_contra hc
    exact hfull m hm hmj ((stored_eq_zero_iff hb _ _).mpr hc)
  refine ⟨_, j, step_of_receive hadm _ _ hrec, ?_, hat', hslots', fun n hn => ?_, ?_, ?_⟩
  · -- The frames from `k` to `j` extend the prefix already passed on.
    dsimp only
    rw [h.passed_eq, show j = k + (j - k) by omega, List.range_add, List.map_append, List.map_map,
      show k + (j - k) - k = j - k by omega]
    congr 1
    refine List.map_congr_left ?_
    intro t ht
    have htj : t < j - k := List.mem_range.mp ht
    rw [stored, if_pos (hmem (k + t) (by omega) (by omega)),
      List.take_of_length_le (Nat.le_of_eq (b _).length_eq)]
    rfl
  · rcases Nat.lt_or_ge n k with hnk | hnk
    · exact List.mem_cons_of_mem _ (h.below n hnk)
    · exact hmem n hnk hn
  · exact (stored_eq_zero_iff hb _ _).mp hstop
  · intro n hn
    rcases List.mem_cons.mp hn with rfl | hn
    · omega
    · have := h.within n hn
      omega

/-- A new frame at a stuck server is stored, and nothing is passed on. -/
theorem step_stuck (h : Assembled b r k) (hb : ∀ n, b n ≠ Block.zero) (hadm : r.Admits a)
    (hnew : a.frame ∉ r.arrived) (hlfr : r.server.lfr = 63) :
    ∃ r', step b r a = some r' ∧ r'.passed = r.passed ∧ r'.arrived = a.frame :: r.arrived ∧
      (a.frame ≠ k → Assembled b r' k) := by
  rcases new_frame_bounds h hadm hnew with ⟨hge, hlt⟩
  -- The frame goes to its slot, but the delivery loop does not see it.
  have hrec := Server.receive_stuck r.server k a.frame (stored b r.arrived) (a.packet b) h.cursors
    h.slots hlfr rfl hge hlt ((stored_eq_zero_iff hb _ _).mpr hnew)
  have hslots := Server.slots_store r.server k a.frame (stored b r.arrived) (a.packet b) h.slots rfl
    hge (by omega)
  change Server.Slots _ k (Function.update _ _ (b a.frame)) at hslots
  rw [stored_cons] at hslots
  refine ⟨_, step_of_receive hadm _ _ hrec, List.append_nil _, rfl, ?_⟩
  intro hne
  refine ⟨by rw [List.append_nil]; exact h.passed_eq, ⟨h.cursors.lfr_eq, h.cursors.laf_eq⟩, hslots,
    fun n hn => List.mem_cons_of_mem _ (h.below n hn), ?_, ?_⟩
  · rw [List.mem_cons, not_or]
    exact ⟨fun heq => hne heq.symm, h.missing⟩
  · intro n hn
    rcases List.mem_cons.mp hn with rfl | hn
    · exact hlt
    · exact h.within n hn

/-- The arrival does not bring a frame numbered 0 to a server whose `lfr`
    stands at slot 63. -/
def Unstuck (r : Receiver) (a : Arrival) : Prop :=
  r.Admits a → ¬ (r.server.lfr = 63 ∧ seqOf a.frame = 0)

/-- After the arrival the blocks passed on are in order. -/
def StaysInOrder (b : Nat → Block) (r : Receiver) (a : Arrival) : Prop :=
  r.Admits a → ∃ r', step b r a = some r' ∧ InOrder b r'

/-- At a stuck server, the frame numbered 0 that is admitted is the one that
    is missing. -/
theorem seqOf_eq_zero_iff (h : Assembled b r k) (hadm : r.Admits a) (hnew : a.frame ∉ r.arrived)
    (hlfr : r.server.lfr = 63) : seqOf a.frame = 0 ↔ a.frame = k := by
  rcases new_frame_bounds h hadm hnew with ⟨hge, hlt⟩
  have hk : (k : Int) % 64 = 0 := by
    rcases h.cursors.lfr_eq with h1 | h1
    · omega
    · exact h1.2
  simp only [seqOf]
  omega

/-- One arrival keeps the invariant, unless it brings frame 0 to a server
    stuck at slot 63. -/
theorem receiver_step (h : Assembled b r k) (hb : ∀ n, b n ≠ Block.zero) (hadm : r.Admits a)
    (hok : ¬ (r.server.lfr = 63 ∧ seqOf a.frame = 0)) :
    ∃ r' j, step b r a = some r' ∧ Assembled b r' j := by
  -- A copy, a new frame at a stuck server, or a new frame.
  by_cases hmem : a.frame ∈ r.arrived
  · rcases step_again h hb hadm hmem with ⟨r', hr', h'⟩
    exact ⟨r', k, hr', h'⟩
  · by_cases hlfr : r.server.lfr = 63
    · rcases step_stuck h hb hadm hmem hlfr with ⟨r', hr', _, _, h'⟩
      refine ⟨r', k, hr', h' (fun heq => hok ⟨hlfr, ?_⟩)⟩
      exact (seqOf_eq_zero_iff h hadm hmem hlfr).mpr heq
    · exact step_new h hb hadm hmem hlfr

/-- A stuck server does not answer the arrival of the missing frame with what
    it should pass on. -/
theorem stuck_not_inOrder (h : Assembled b r k) (hb : ∀ n, b n ≠ Block.zero) (hadm : r.Admits a)
    (hbad : r.server.lfr = 63 ∧ seqOf a.frame = 0) (r' : Receiver) (hstep : step b r a = some r') :
    ¬ InOrder b r' := by
  have hlen := h.length_passed
  have hk : (k : Int) % 64 = 0 := by
    rcases h.cursors.lfr_eq with h1 | h1
    · omega
    · exact h1.2
  -- The only frame numbered 0 that is admitted is the one that is missing.
  have hframe : a.frame = k := by
    have hseq := hbad.2
    simp only [seqOf] at hseq
    have h1 := hadm.1
    have h2 := hadm.2
    omega
  rcases step_stuck h hb hadm (hframe ▸ h.missing) hbad.1 with ⟨r1, hr1, hpassed, harr, _⟩
  rw [hstep, Option.some.injEq] at hr1
  subst hr1
  rintro ⟨k', hk', _, hmiss⟩
  -- Nothing was passed on, so the prefix still ends at `k`, which has arrived.
  have hkk : k' = k := by
    have := congrArg List.length hk'
    rw [hpassed, hlen, List.length_map, List.length_range] at this
    exact this.symm
  rw [harr, hkk, hframe] at hmiss
  exact hmiss List.mem_cons_self

end Receiver

/-- The blocks passed to ftps stay in order along a run of arrivals exactly if
    no frame numbered 0 arrives while `lfr` stands at slot 63. -/
theorem reassembly_iff (b : Nat → Block) (hb : ∀ n, b n ≠ Block.zero) (as : List Arrival) :
    Machine.Meets (Receiver.step b) (Receiver.StaysInOrder b) Receiver.init as ↔
      Machine.Meets (Receiver.step b) Receiver.Unstuck Receiver.init as := by
  refine Machine.meets_iff (P := fun r => ∃ k, Receiver.Assembled b r k) ?_ ?_ as _
    ⟨0, Receiver.assembled_init b⟩
  · -- The invariant is kept under the condition.
    rintro r a r' ⟨k, h⟩ hok hstep
    by_cases hadm : r.Admits a
    · rcases Receiver.receiver_step h hb hadm (hok hadm) with ⟨r1, j, hr1, h1⟩
      rw [hstep, Option.some.injEq] at hr1
      exact ⟨j, hr1 ▸ h1⟩
    · rw [Receiver.step, if_neg hadm] at hstep
      exact absurd hstep (by simp only [reduceCtorEq, not_false_eq_true])
  · rintro r a ⟨k, h⟩
    constructor
    · intro hin hadm hbad
      rcases hin hadm with ⟨r', hstep, hord⟩
      exact Receiver.stuck_not_inOrder h hb hadm hbad r' hstep hord
    · intro hok hadm
      rcases Receiver.receiver_step h hb hadm (hok hadm) with ⟨r', j, hr', h'⟩
      exact ⟨r', hr', h'.inOrder⟩

/-- A transfer of equal blocks. -/
def ones : Nat → Block := fun _ => Block.single 1

instance (r : Receiver) (a : Arrival) : Decidable (r.Unstuck a) := by
  unfold Receiver.Unstuck
  exact inferInstance

/-- The frames up to 79, in pairs that come the wrong way round, each frame with an
    even number twice. -/
def reorderedArrivals : List Arrival :=
  ((List.range 40).flatMap fun i => [2 * i + 1, 2 * i, 2 * i]).map
    fun n => { frame := n, timeStamp := ⟨0, 0⟩ }

theorem reassembly_reordered :
    ∃ r, Machine.run (Receiver.step ones) Receiver.init reorderedArrivals = some r ∧
      r.passed.length = 80 ∧
      Machine.Meets (Receiver.step ones) (Receiver.StaysInOrder ones) Receiver.init
        reorderedArrivals := by
  have hrun : (Machine.run (Receiver.step ones) Receiver.init reorderedArrivals).map
      (fun r => r.passed.length) = some 80 := by
    decide +kernel
  rcases Option.map_eq_some_iff.mp hrun with ⟨r, hr, hlen⟩
  exact ⟨r, hr, hlen, (reassembly_iff ones (fun _ => Block.single_ne_zero 1 (by decide)) _).mpr
    (by decide +kernel)⟩

/-- The frames up to 63, of which frame 44 comes last, and then frame 64. -/
def stallingArrivals : List Arrival :=
  (List.range 44 ++ (List.range 19).map (fun i => i + 45) ++ [44, 64]).map
    fun n => { frame := n, timeStamp := ⟨0, 0⟩ }

/-- All of the first 65 frames have arrived, and 64 blocks are passed on. -/
theorem reassembly_stalls :
    (∀ n, ones n ≠ Block.zero) ∧
      ∃ r, Machine.run (Receiver.step ones) Receiver.init stallingArrivals = some r ∧
        ¬ Receiver.InOrder ones r := by
  refine ⟨fun _ => Block.single_ne_zero 1 (by decide), ?_⟩
  have hrun : (Machine.run (Receiver.step ones) Receiver.init stallingArrivals).map
      (fun r => (r.passed.length, decide (64 ∈ r.arrived))) = some (64, true) := by
    decide +kernel
  rcases Option.map_eq_some_iff.mp hrun with ⟨r, hr, hval⟩
  rw [Prod.mk.injEq, decide_eq_true_eq] at hval
  refine ⟨r, hr, ?_⟩
  rintro ⟨k, hk, _, hmiss⟩
  rw [hk, List.length_map, List.length_range] at hval
  exact hmiss (hval.1 ▸ hval.2)

end Cse5462
