import Cse5462.Tcpd.Server

/-!
# The Receive Window

What the cursors and the slots of the server mean in terms of the frames of the
transfer, which are numbered from zero and never wrap.

`Server.At s k` says that the cursors stand where they should after the first
`k` blocks have been passed on. When `k` is a multiple of 64 there are two such
positions of `lfr`: the slot before the first is written `-1` by the branch for
a wrapped window, but the other branch can leave `63`. The two are not equally
good. From `-1` the server goes on, from `63` it is stuck
(`Server.flush_stuck`), and `flush_window` needs that hypothesis.

`Server.Slots s k c` says that `c n` is what is stored for frame `n`, for the
64 frames from `k` on; a frame that has not arrived is stored as the zero
block.

## Main definitions

* `Server.At`: The cursors after `k` blocks.
* `Server.Slots`: The buffer as contents of frames.

## Theorems

* `accepts_iff`: The acceptance test in terms of frames.
* `flush_window`: Delivery passes on the run of stored frames.
* `receive_old`, `receive_held`: A frame received before changes nothing.
* `receive_new`: A new frame inside the window is stored and delivered.
* `receive_stuck`: A stuck server stores a new frame and delivers nothing.
-/

namespace Cse5462

namespace Server

/-- The cursors stand where they should after `k` blocks have been passed on. -/
structure At (s : Server) (k : Nat) : Prop where
  lfr_eq : s.lfr = (k : Int) % 64 - 1 ∨ (s.lfr = 63 ∧ (k : Int) % 64 = 0)
  laf_eq : s.laf = ((k : Int) + 19) % 64

/-- For the 64 frames from `k` on, `c n` is what the buffer stores for `n`. -/
def Slots (s : Server) (k : Nat) (c : Nat → Block) : Prop :=
  ∀ n, k ≤ n → n < k + 64 → s.recvbuf (seqOf n) = c n

theorem at_init : At init 0 := ⟨Or.inl (by decide), by decide⟩

/-- A sequence number is accepted exactly when its frame lies in the window,
    for a frame no further than 44 below it. -/
theorem accepts_iff (s : Server) (k n : Nat) (hat : At s k) (hlo : k ≤ n + 44)
    (hhi : n < k + 64) :
    s.accepts (seqOf n) ↔ k ≤ n ∧ n < k + 20 := by
  -- The two shapes of the window, and `lfr` at `-1` or at 63, are all linear.
  rcases hat with ⟨hlfr, hlaf⟩
  simp only [accepts, seqOf]
  rcases hlfr with hlfr | ⟨hlfr, hk⟩
  · omega
  · omega

/-- Two frames among 64 consecutive ones have different sequence numbers. -/
theorem seqOf_inj (k m n : Nat) (hm : k ≤ m) (hm' : m < k + 64) (hn : k ≤ n) (hn' : n < k + 64)
    (h : seqOf m = seqOf n) : m = n := by
  simp only [seqOf] at h
  omega

/-- The slots after the run from slot `a` to slot `b`, that is the frames from
    `k` to `j`, has been cleared. -/
theorem slots_bzero (s : Server) (k j : Nat) (c : Nat → Block) (hslots : Slots s k c)
    (hkj : k ≤ j) (hj : j ≤ k + 20) (hbeyond : ∀ n, k + 20 ≤ n → c n = Block.zero)
    (buf : Int → Block)
    (hin : ∀ n, k ≤ n → n < j → buf (seqOf n) = Block.zero)
    (hout : ∀ i, (∀ n, k ≤ n → n < j → seqOf n ≠ i) → buf i = s.recvbuf i)
    (n : Nat) (hn : j ≤ n) (hn' : n < j + 64) : buf (seqOf n) = c n := by
  -- A frame of the old range keeps its slot, which is not among those cleared.
  by_cases hwrap : n < k + 64
  · rw [hout, hslots n (by omega) hwrap]
    intro m hm hmj heq
    have := seqOf_inj k m n hm (by omega) (by omega) hwrap heq
    omega
  · -- Frame `n` takes the slot of frame `n - 64`, which has just been cleared.
    have hprev : seqOf n = seqOf (n - 64) := by
      simp only [seqOf]
      omega
    rw [hprev, hin (n - 64) (by omega) (by omega), hbeyond n (by omega)]

/-- Clearing `d` slots from that of frame `m` on clears the frames from `m` to
    `m + d`, if the run does not cross slot 63. -/
theorem bzeroSlots_frames_in (buf : Int → Block) (a : Int) (m d n : Nat) (ha : a = seqOf m)
    (hd : a + d ≤ 64) (hn : m ≤ n) (hn' : n < m + d) :
    bzeroSlots buf a (a + d) (seqOf n) = Block.zero := by
  refine bzeroSlots_in _ _ _ _ ?_
  simp only [seqOf] at ha ⊢
  omega

theorem bzeroSlots_frames_out (buf : Int → Block) (a : Int) (m d : Nat) (i : Int)
    (ha : a = seqOf m) (hd : a + d ≤ 64) (hi : ∀ n, m ≤ n → n < m + d → seqOf n ≠ i) :
    bzeroSlots buf a (a + d) i = buf i := by
  refine bzeroSlots_out _ _ _ _ ?_
  intro hrange
  refine hi (m + (i - a).toNat) (by omega) (by omega) ?_
  simp only [seqOf] at ha ⊢
  omega

/-- The slots after the `d` slots from that of frame `k` on have been cleared,
    if the run does not cross slot 63. -/
theorem slots_cleared (s : Server) (k j d : Nat) (c : Nat → Block) (hslots : Slots s k c)
    (hbeyond : ∀ n, k + 20 ≤ n → c n = Block.zero) (a : Int) (ha : a = seqOf k)
    (hd : a + d ≤ 64) (hj : k + d = j) (hlen : d ≤ 20) (n : Nat) (hn : j ≤ n)
    (hn' : n < j + 64) : bzeroSlots s.recvbuf a (a + d) (seqOf n) = c n :=
  slots_bzero s k j c hslots (by omega) (by omega) hbeyond _
    (fun n hn hnj => bzeroSlots_frames_in _ _ k _ n ha hd hn (by omega))
    (fun i hi => bzeroSlots_frames_out _ _ k _ i ha hd (fun n hn hnj => hi n hn (by omega)))
    n hn hn'

/-- Where `lfr` is, unless the server is stuck. -/
theorem At.lfr_of_ne {s : Server} {k : Nat} (hat : At s k) (hlfr : s.lfr ≠ 63) :
    s.lfr = (k : Int) % 64 - 1 := by
  rcases hat.lfr_eq with h | h
  · omega
  · exact absurd h.1 hlfr

/-- Frame `k` is the next one after `lfr`, unless the server is stuck. -/
theorem At.next_eq {s : Server} {k : Nat} (hat : At s k) (hlfr : s.lfr ≠ 63) :
    s.lfr + 1 = seqOf k := by
  rw [hat.lfr_of_ne hlfr, seqOf]
  omega

/-- Delivery, with the window not wrapped around slot 63. -/
theorem flush_plain (s : Server) (k j length : Nat) (c : Nat → Block) (hat : At s k)
    (hslots : Slots s k c) (hbeyond : ∀ n, k + 20 ≤ n → c n = Block.zero)
    (hlfr : s.lfr ≠ 63) (hplain : k % 64 ≤ 44) (hkj : k ≤ j) (hj : j ≤ k + 20)
    (hfull : ∀ n, k ≤ n → n < j → c n ≠ Block.zero) (hstop : c j = Block.zero) :
    ∃ s', s.flush length
        = (s', (List.range (j - k)).map fun t => (c (k + t)).bytes.take length) ∧
      At s' j ∧ Slots s' j c := by
  have hseq := hat.next_eq hlfr
  have hl := hat.lfr_of_ne hlfr
  have ha := hat.laf_eq
  -- The loop starts at the slot of frame `k`.
  have hloop := passLoop_eq s.recvbuf length c (s.laf - s.lfr).toNat (s.lfr + 1) k (j - k)
    (fun t ht => by
      rw [← hslots (k + t) (by omega) (by omega)]
      congr 1
      simp only [seqOf]
      omega)
    (by omega)
    (fun t ht => hfull (k + t) (by omega) (by omega))
    (fun _ => by rw [show k + (j - k) = j by omega]; exact hstop)
  -- It stops at frame `j`, the first one missing.
  rw [flush, if_pos (by omega), hloop]
  dsimp only
  by_cases hmove : j = k
  · -- The first slot is empty: nothing moves.
    rw [if_neg (by omega)]
    exact ⟨s, rfl, by rw [hmove]; exact hat, by rw [hmove]; exact hslots⟩
  · -- Frames `k` to `j` are cleared, and `lfr` goes to the slot before frame `j`.
    rw [if_pos (by omega)]
    refine ⟨_, rfl, ⟨?_, ?_⟩, ?_⟩
    · dsimp only
      split <;> omega
    · dsimp only [window]
      split <;> split <;> omega
    · exact slots_cleared s k j (j - k) c hslots hbeyond _ hseq (by omega) (by omega) (by omega)

/-- Delivery, with the window wrapped around slot 63. The run of stored frames
    ends before slot 63, or crosses it and goes on from slot 0. -/
theorem flush_wrapped (s : Server) (k j length : Nat) (c : Nat → Block) (hat : At s k)
    (hslots : Slots s k c) (hbeyond : ∀ n, k + 20 ≤ n → c n = Block.zero)
    (hlfr : s.lfr ≠ 63) (hwrap : 44 < k % 64) (hkj : k ≤ j) (hj : j ≤ k + 20)
    (hfull : ∀ n, k ≤ n → n < j → c n ≠ Block.zero) (hstop : c j = Block.zero) :
    ∃ s', s.flush length
        = (s', (List.range (j - k)).map fun t => (c (k + t)).bytes.take length) ∧
      At s' j ∧ Slots s' j c := by
  have hseq := hat.next_eq hlfr
  have hl := hat.lfr_of_ne hlfr
  have ha := hat.laf_eq
  -- `e` frames fit between `lfr` and the end of the buffer.
  set e : Nat := 64 - k % 64 with he
  have hseq' : (0 : Int) = seqOf (k + e) := by
    simp only [seqOf]
    omega
  have hn : (sendRecvBufSize - (s.lfr + 1)).toNat = e := by
    simp only [sendRecvBufSize]
    omega
  -- The first loop reads the frames up to the end of the buffer.
  have hfirst : ∀ t, t < e → s.recvbuf (s.lfr + 1 + t) = c (k + t) := by
    intro t ht
    rw [← hslots (k + t) (by omega) (by omega)]
    congr 1
    simp only [seqOf]
    omega
  rw [flush, if_neg (by omega), if_pos (by omega), hn]
  -- The run ends before slot 63, or goes on from slot 0.
  by_cases hend : j < k + e
  · have hloop := passLoop_eq s.recvbuf length c e (s.lfr + 1) k (j - k) hfirst (by omega)
      (fun t ht => hfull (k + t) (by omega) (by omega))
      (fun _ => by rw [show k + (j - k) = j by omega]; exact hstop)
    rw [hloop]
    dsimp only
    by_cases hmove : j = k
    · rw [if_neg (by omega)]
      exact ⟨s, rfl, by rw [hmove]; exact hat, by rw [hmove]; exact hslots⟩
    · rw [if_pos (by omega), if_pos (by simp only [sendRecvBufSize]; omega)]
      refine ⟨_, rfl, ⟨?_, ?_⟩, ?_⟩
      · dsimp only
        omega
      · dsimp only
        omega
      · exact slots_cleared s k j (j - k) c hslots hbeyond _ hseq (by omega) (by omega) (by omega)
  · have hloop := passLoop_eq s.recvbuf length c e (s.lfr + 1) k e hfirst (le_refl e)
      (fun t ht => hfull (k + t) (by omega) (by omega)) (fun h => absurd h (lt_irrefl e))
    rw [hloop]
    dsimp only
    rw [if_pos (by omega), if_neg (by simp only [sendRecvBufSize]; omega)]
    -- The second loop looks at slots the first one has not cleared.
    have hsecond : ∀ t, t < (s.laf + 1).toNat →
        bzeroSlots s.recvbuf (s.lfr + 1) (s.lfr + 1 + e) (0 + (t : Int)) = c (k + e + t) :=
      fun t ht => by
        rw [bzeroSlots_out _ _ _ _ (by omega), ← hslots (k + e + t) (by omega) (by omega)]
        congr 1
        simp only [seqOf]
        omega
    have hloop' := passLoop_eq _ length c (s.laf + 1).toNat 0 (k + e) (j - (k + e)) hsecond
      (by omega) (fun t ht => hfull (k + e + t) (by omega) (by omega))
      (fun _ => by rw [show k + e + (j - (k + e)) = j by omega]; exact hstop)
    rw [hloop']
    dsimp only
    -- Together the two loops send the frames from `k` to `j`.
    have hsent : (List.range e).map (fun t => (c (k + t)).bytes.take length) ++
        (List.range (j - (k + e))).map (fun t => (c (k + e + t)).bytes.take length)
        = (List.range (j - k)).map fun t => (c (k + t)).bytes.take length := by
      rw [show j - k = e + (j - (k + e)) by omega, List.range_add, List.map_append, List.map_map]
      simp only [Function.comp_def, Nat.add_assoc]
    rw [hsent]
    -- The run ends exactly at slot 63, or goes on.
    by_cases hmore : j = k + e
    · rw [if_neg (by omega)]
      refine ⟨_, rfl, ⟨?_, ?_⟩, ?_⟩
      · dsimp only
        omega
      · dsimp only [window]
        omega
      · exact slots_cleared s k j e c hslots hbeyond _ hseq (by omega) hmore.symm (by omega)
    · rw [if_pos (by omega)]
      refine ⟨_, rfl, ⟨?_, ?_⟩, ?_⟩
      · dsimp only
        omega
      · dsimp only [window]
        omega
      · refine slots_bzero s k j c hslots hkj hj hbeyond _ (fun n hn hnj => ?_) (fun i hi => ?_)
        · -- Cleared by the first loop and left alone by the second, or cleared by the second.
          by_cases hlow : n < k + e
          · refine (bzeroSlots_out _ _ _ _ ?_).trans
              (bzeroSlots_frames_in _ _ k e n hseq (by omega) hn hlow)
            simp only [seqOf]
            omega
          · exact bzeroSlots_frames_in _ 0 (k + e) _ n hseq' (by omega) (by omega) (by omega)
        · refine (bzeroSlots_frames_out _ 0 (k + e) _ i hseq' (by omega)
            (fun n hn hnj => hi n (by omega) (by omega))).trans ?_
          exact bzeroSlots_frames_out _ _ k e i hseq (by omega)
            (fun n hn hnj => hi n hn (by omega))

/-- Delivery passes on exactly the run of stored frames that starts at frame
    `k`, wherever the window stands, unless the server is stuck. -/
theorem flush_window (s : Server) (k j length : Nat) (c : Nat → Block) (hat : At s k)
    (hslots : Slots s k c) (hbeyond : ∀ n, k + 20 ≤ n → c n = Block.zero)
    (hlfr : s.lfr ≠ 63) (hkj : k ≤ j)
    (hfull : ∀ n, k ≤ n → n < j → c n ≠ Block.zero) (hstop : c j = Block.zero) :
    ∃ s', s.flush length
        = (s', (List.range (j - k)).map fun t => (c (k + t)).bytes.take length) ∧
      At s' j ∧ Slots s' j c := by
  -- Nothing is stored beyond the window, so the run ends in it.
  have hj : j ≤ k + 20 := by
    by_contra hc
    exact hfull (k + 20) (by omega) (by omega) (hbeyond _ (le_refl _))
  rcases Nat.lt_or_ge 44 (k % 64) with hwrap | hplain
  · exact flush_wrapped s k j length c hat hslots hbeyond hlfr hwrap hkj hj hfull hstop
  · exact flush_plain s k j length c hat hslots hbeyond hlfr hplain hkj hj hfull hstop

/-- The first frame from `k` on that is not stored. -/
theorem exists_first_missing (k : Nat) (c : Nat → Block)
    (hbeyond : ∀ n, k + 20 ≤ n → c n = Block.zero) :
    ∃ j, k ≤ j ∧ (∀ n, k ≤ n → n < j → c n ≠ Block.zero) ∧ c j = Block.zero := by
  -- The frame behind the window is missing.
  have hex : ∃ j, k ≤ j ∧ c j = Block.zero := ⟨k + 20, by omega, hbeyond _ (le_refl _)⟩
  refine ⟨Nat.find hex, (Nat.find_spec hex).1, fun n hn hlt hzero => ?_, (Nat.find_spec hex).2⟩
  exact Nat.find_min hex hlt ⟨hn, hzero⟩

section Frames

variable (s : Server) (k n : Nat) (c : Nat → Block) (p : Packet)

/-- A frame that has been passed on already is outside the window. -/
theorem receive_old (hat : At s k) (hseq : p.seq = seqOf n) (hlo : k ≤ n + 44) (hn : n < k) :
    s.receive (fullSize p) = some (s, []) := by
  refine receive_outside s _ ?_
  intro hacc
  have hpos : s.accepts (seqOf n) := by
    rw [← hseq]
    exact hacc
  have hwin := (accepts_iff s k n hat hlo (by omega)).mp hpos
  omega

/-- A frame whose slot is full is skipped as a duplicate. -/
theorem receive_held (hslots : Slots s k c) (hseq : p.seq = seqOf n) (hn : k ≤ n)
    (hn' : n < k + 64) (hheld : c n ≠ Block.zero) :
    s.receive (fullSize p) = some (s, []) := by
  have hbounds : 0 ≤ p.seq ∧ p.seq < 64 := by
    rw [hseq]
    simp only [seqOf]
    omega
  refine receive_duplicate s _ hbounds.1 hbounds.2 ?_
  change s.recvbuf p.seq ≠ Block.zero
  rw [hseq, hslots n hn hn']
  exact hheld

/-- Storing a frame in its slot. -/
theorem slots_store (hslots : Slots s k c) (hseq : p.seq = seqOf n) (hn : k ≤ n)
    (hn' : n < k + 64) :
    Slots { s with recvbuf := Function.update s.recvbuf p.seq p.body } k
      (Function.update c n p.body) := by
  intro m hm hm'
  by_cases hmn : m = n
  · rw [hmn, hseq]
    simp only [Function.update_self]
  · have hne : seqOf m ≠ p.seq := fun heq =>
      hmn (seqOf_inj k m n hm hm' hn hn' (heq.trans hseq))
    simp only [Function.update_of_ne hne, Function.update_of_ne hmn]
    exact hslots m hm hm'

/-- What becomes of a frame inside the window whose slot is empty. -/
theorem receive_stored (hat : At s k) (hslots : Slots s k c) (hseq : p.seq = seqOf n)
    (hn : k ≤ n) (hn' : n < k + 20) (hempty : c n = Block.zero) :
    s.receive (fullSize p)
      = some (flush { s with recvbuf := Function.update s.recvbuf p.seq p.body } buffSize) := by
  have hbounds : 0 ≤ p.seq ∧ p.seq < 64 := by
    rw [hseq]
    simp only [seqOf]
    omega
  refine receive_full s p ?_ hbounds.1 hbounds.2 ?_
  · rw [hseq]
    exact (accepts_iff s k n hat (by omega) (by omega)).mpr ⟨hn, hn'⟩
  · rw [hseq, hslots n hn (by omega)]
    exact hempty

theorem beyond_store (hn' : n < k + 20) (hbeyond : ∀ m, k + 20 ≤ m → c m = Block.zero) :
    ∀ m, k + 20 ≤ m → Function.update c n p.body m = Block.zero := by
  intro m hm
  rw [Function.update_of_ne (by omega)]
  exact hbeyond m hm

/-- A new frame inside the window is stored, and the run of stored frames that
    starts at frame `k` is passed on. -/
theorem receive_new (hat : At s k) (hslots : Slots s k c)
    (hbeyond : ∀ m, k + 20 ≤ m → c m = Block.zero) (hlfr : s.lfr ≠ 63)
    (hseq : p.seq = seqOf n) (hn : k ≤ n) (hn' : n < k + 20) (hempty : c n = Block.zero)
    (j : Nat) (hkj : k ≤ j)
    (hfull : ∀ m, k ≤ m → m < j → Function.update c n p.body m ≠ Block.zero)
    (hstop : Function.update c n p.body j = Block.zero) :
    ∃ s', s.receive (fullSize p)
        = some (s', (List.range (j - k)).map
          fun t => (Function.update c n p.body (k + t)).bytes.take buffSize) ∧
      At s' j ∧ Slots s' j (Function.update c n p.body) := by
  rcases flush_window { s with recvbuf := Function.update s.recvbuf p.seq p.body } k j buffSize
    (Function.update c n p.body) ⟨hat.lfr_eq, hat.laf_eq⟩
    (slots_store s k n c p hslots hseq hn (by omega)) (beyond_store k n c p hn' hbeyond) hlfr hkj
    hfull hstop with ⟨s', hflush, hat', hslots'⟩
  refine ⟨s', ?_, hat', hslots'⟩
  rw [receive_stored s k n c p hat hslots hseq hn hn' hempty, hflush]

/-- A stuck server stores new frames but passes nothing on. -/
theorem receive_stuck (hat : At s k) (hslots : Slots s k c) (hlfr : s.lfr = 63)
    (hseq : p.seq = seqOf n) (hn : k ≤ n) (hn' : n < k + 20) (hempty : c n = Block.zero) :
    s.receive (fullSize p)
      = some ({ s with recvbuf := Function.update s.recvbuf p.seq p.body }, []) := by
  -- At slot 63 the number of blocks passed on is a multiple of 64.
  have hk : (k : Int) % 64 = 0 := by
    rcases hat.lfr_eq with h | h
    · omega
    · exact h.2
  have hlaf : s.laf < 63 := by
    have := hat.laf_eq
    omega
  rw [receive_stored s k n c p hat hslots hseq hn hn' hempty]
  exact congrArg some (flush_stuck { s with recvbuf := _ } buffSize hlfr hlaf)

end Frames

end Server

end Cse5462
