import Cse5462.Lib.Scan
import Cse5462.Tcpd.Head
import Mathlib.Logic.Function.Basic

/-!
# The Scan for the Last Acknowledged Frame

When an acknowledgement has cleared its slot, the driver looks for the first
slot behind `lar` that is not empty, and moves `lar` to the slot before it. The
loop was meant to stop at `lfs`, or at the end of the buffer when the window is
wrapped, but its condition

    i<=(lfs>=lar)?lfs:SEND_RECV_BUF_SIZE-1

compares `i` with a truth value and then takes one of the two bounds as the
condition itself. So the bounds have no effect. The loop ends at once when `lfs`
is 0 and `lar` is not above it, and otherwise goes on to the first slot that is
not empty, beyond `lfs` and beyond the buffer if need be (`larLoop_eq`).

Memory behind the buffer is read as further slots, up to a slot `top` that can
no longer be read. The scan is `none` when it gets there. With `top` at 64 that
is a scan which reads the buffer and nothing else.

`lar_scan_iff` says when the scan does what it is for: some slot that is not
empty has to stop it in time, among those behind `lar` up to the one after
`lfs`, or up to slot 63 when the window is wrapped.

## Main definitions

* `scanGoesOn`: The condition of the first loop.
* `larLoop`: The first loop.
* `larScan`: The new value of `lar`.
* `Outstanding`: A slot of the cyclic interval from `lar` to `lfs`.
* `AckedRun`: The end of the run of acknowledged frames behind `lar`.
* `StoppedInTime`: A slot that stops the scan where it should stop.

## Theorems

* `scanGoesOn_iff`: What the condition of the loop comes to.
* `larLoop_eq`: The loop is an unbounded search.
* `larScan_buffer`: The scan confined to the buffer.
* `larScan_stopped`: Where the scan comes to rest, if a slot stops it.
* `lar_scan_iff`: When the scan is exact and stays in the buffer.
-/

namespace Cse5462

/-- The condition of the first loop, as the precedence of `?:` has it. -/
def scanGoesOn (lar lfs i : Int) : Prop :=
  (if i ≤ (if lfs ≥ lar then 1 else 0) then lfs else sendRecvBufSize - 1) ≠ 0

instance (lar lfs i : Int) : Decidable (scanGoesOn lar lfs i) := by
  unfold scanGoesOn
  exact inferInstance

/-- The first loop, at slot `i` with `n` slots left that can be read. -/
def larLoop (sendbuf : Int → Block) (lar lfs : Int) : Nat → Int → Option Int
  | 0, i => if scanGoesOn lar lfs i then none else some i
  | n + 1, i =>
      if scanGoesOn lar lfs i then
        -- An empty slot belongs to an acknowledged frame, as far as the loop can tell.
        if (sendbuf i).isEmpty then larLoop sendbuf lar lfs n (i + 1) else some i
      else some i

/-- The value that `lar` gets, when slots up to but not including `top` can be
    read. Coming to rest at slot 64 means to go on at slot 0. -/
def larScan (top : Int) (sendbuf : Int → Block) (lar lfs : Int) : Option Int :=
  (larLoop sendbuf lar lfs (top - (lar + 1)).toNat (lar + 1)).map fun i =>
    -- The loop has come to the end of the buffer and goes on from slot 0.
    if i = sendRecvBufSize then
      let j := scanWhile (fun j => (sendbuf j).isEmpty) (lfs + 1).toNat 0
      if j ≠ 0 then j - 1 else i - 1
    else i - 1

/-- The first loop goes on unless `lfs` is 0 and decides the condition. -/
theorem scanGoesOn_iff (lar lfs i : Int) :
    scanGoesOn lar lfs i ↔ ¬ (lfs = 0 ∧ i ≤ (if lfs ≥ lar then 1 else 0)) := by
  have hsize : sendRecvBufSize = 64 := rfl
  rw [scanGoesOn]
  split <;> split <;> omega

/-- The first loop never stops by its condition, but for one position. -/
theorem scanGoesOn_of_ne (lar lfs i : Int) (hi : lar < i) (h : ¬ (lfs = 0 ∧ lar ≤ 0)) :
    scanGoesOn lar lfs i := by
  rw [scanGoesOn_iff]
  split <;> omega

/-- Where the condition has no effect, the loop is a search for the first slot
    that is not empty, and fails if it leaves the memory that can be read. -/
theorem larLoop_eq (sendbuf : Int → Block) (lar lfs : Int) (h : ¬ (lfs = 0 ∧ lar ≤ 0)) :
    ∀ (n : Nat) (i : Int), lar < i → larLoop sendbuf lar lfs n i
      = if scanWhile (fun j => (sendbuf j).isEmpty) n i < i + n then
          some (scanWhile (fun j => (sendbuf j).isEmpty) n i)
        else none := by
  intro n
  -- Induction on the number of slots that can be read.
  induction n with
  | zero =>
      intro i hi
      rw [larLoop, if_pos (scanGoesOn_of_ne lar lfs i hi h), scanWhile, if_neg (by omega)]
  | succ n ih =>
      intro i hi
      rw [larLoop, if_pos (scanGoesOn_of_ne lar lfs i hi h), scanWhile]
      by_cases hempty : (sendbuf i).isEmpty = true
      · rw [if_pos hempty, if_pos hempty, ih (i + 1) (by omega)]
        rw [show i + ((n + 1 : Nat) : Int) = i + 1 + n by omega]
      · rw [if_neg hempty, if_neg hempty, if_pos (by omega)]

/-- The one position in which the condition stops the loop: it does so before
    any slot is looked at, and `lar` stays. -/
theorem larScan_zero (top : Int) (sendbuf : Int → Block) (lar : Int) (hlo : -1 ≤ lar)
    (hhi : lar ≤ 0) : larScan top sendbuf lar 0 = some lar := by
  have hstop : ¬ scanGoesOn lar 0 (lar + 1) := by
    rw [scanGoesOn_iff, if_pos (by omega)]
    omega
  have hsize : sendRecvBufSize = 64 := rfl
  have hloop : ∀ n, larLoop sendbuf lar 0 n (lar + 1) = some (lar + 1) := by
    intro n
    cases n with
    | zero => rw [larLoop, if_neg hstop]
    | succ n => rw [larLoop, if_neg hstop]
  rw [larScan, hloop, Option.map_some, if_neg (by omega), Option.some.injEq]
  omega

/-- The scan confined to the buffer moves `lar` before the first slot that is
    not empty, and fails if there is none up to slot 63. -/
theorem larScan_buffer (sendbuf : Int → Block) (lar lfs : Int) (hlar : lar ≤ 63)
    (h : ¬ (lfs = 0 ∧ lar ≤ 0)) (j : Int)
    (hj : scanWhile (fun j => (sendbuf j).isEmpty) (64 - (lar + 1)).toNat (lar + 1) = j) :
    larScan 64 sendbuf lar lfs = if j < 64 then some (j - 1) else none := by
  have hsize : sendRecvBufSize = 64 := rfl
  rw [larScan, larLoop_eq sendbuf lar lfs h _ _ (by omega), hj]
  by_cases hlt : j < 64
  · rw [if_pos (by omega), if_pos hlt, Option.map_some, if_neg (by omega)]
  · rw [if_neg (by omega), if_neg hlt, Option.map_none]

/-- A slot that is not empty stops the scan. It comes to rest at some slot `j`,
    and all slots up to there are empty. If `j` is slot 64, the scan has gone on
    from slot 0 to some slot `m`, no further than behind `lfs`. -/
theorem larScan_stopped (top : Int) (sendbuf : Int → Block) (lar lfs last i : Int)
    (h : ¬ (lfs = 0 ∧ lar ≤ 0)) (hi : lar < i) (hne : sendbuf i ≠ Block.zero)
    (hscan : larScan top sendbuf lar lfs = some last) :
    ∃ j, lar < j ∧ j ≤ i ∧ (∀ t, lar < t → t < j → sendbuf t = Block.zero) ∧
      ((j ≠ 64 ∧ last = j - 1) ∨
        (j = 64 ∧ ∃ m, 0 ≤ m ∧ m ≤ max 0 (lfs + 1) ∧
          (∀ t, 0 ≤ t → t < m → sendbuf t = Block.zero) ∧
          last = if m = 0 then 63 else m - 1)) := by
  have hsize : sendRecvBufSize = 64 := rfl
  unfold larScan at hscan
  rw [larLoop_eq sendbuf lar lfs h _ _ (by omega)] at hscan
  generalize hj : scanWhile (fun j => (sendbuf j).isEmpty) (top - (lar + 1)).toNat (lar + 1) = j
    at hscan
  rcases (scanWhile_eq_iff _ _ _).mp hj with ⟨hlo, _, hpass, _⟩
  split at hscan
  · rw [Option.map_some, Option.some.injEq] at hscan
    have hclear : ∀ t, lar < t → t < j → sendbuf t = Block.zero := fun t ht htj =>
      (Block.isEmpty_iff _).mp (hpass t (by omega) htj)
    refine ⟨j, by omega, ?_, hclear, ?_⟩
    · -- The scan does not pass over a slot that is not empty.
      by_contra hlt
      exact hne (hclear i hi (by omega))
    · rw [hsize] at hscan
      by_cases hj64 : j = 64
      · rw [if_pos hj64] at hscan
        generalize hm : scanWhile (fun j => (sendbuf j).isEmpty) (lfs + 1).toNat 0 = m at hscan
        rcases (scanWhile_eq_iff _ _ _).mp hm with ⟨hm0, hmle, hmpass, _⟩
        refine Or.inr ⟨hj64, m, hm0, by omega,
          fun t ht htm => (Block.isEmpty_iff _).mp (hmpass t ht htm), ?_⟩
        by_cases hzero : m = 0
        · rw [if_neg (not_not.mpr hzero)] at hscan
          rw [if_pos hzero]
          omega
        · rw [if_pos hzero] at hscan
          rw [if_neg hzero]
          exact hscan.symm
      · rw [if_neg hj64] at hscan
        exact Or.inl ⟨hj64, hscan.symm⟩
  · cases hscan

/-- Slot `i` is in the cyclic interval of slots after `lar` up to `lfs`. -/
def Outstanding (lar lfs i : Int) : Prop :=
  if lfs ≥ lar then lar < i ∧ i ≤ lfs else (lar < i ∧ i ≤ 63) ∨ (0 ≤ i ∧ i ≤ lfs)

instance (lar lfs i : Int) : Decidable (Outstanding lar lfs i) := by
  unfold Outstanding
  exact inferInstance

/-- `last` is the slot of the last frame of the longest run of acknowledged
    frames that starts right after `lar`, among the `m` outstanding ones. It is
    `lar` itself if the run is empty. -/
def AckedRun (lar : Int) (m : Nat) (acked : Int → Prop) (last : Int) : Prop :=
  ∃ r, r ≤ m ∧ (∀ t, t < r → acked ((lar + 1 + (t : Nat)) % 64)) ∧
    (r < m → ¬ acked ((lar + 1 + r) % 64)) ∧ last = if r = 0 then lar else (lar + r) % 64

/-- A slot that is not empty, other than the one just acknowledged, between
    `lar` and the slot after `lfs`, or slot 63 if the window is wrapped; and
    the window is not the one in which the scan does not start. -/
def StoppedInTime (sendbuf : Int → Block) (lar lfs ack : Int) : Prop :=
  ¬ (lar = -1 ∧ lfs = 0) ∧
    ∃ i, lar < i ∧ i ≤ (if lfs ≥ lar then lfs + 1 else 63) ∧ i ≠ ack ∧ sendbuf i ≠ Block.zero

/-- A state of the driver in which the outstanding frames are those of the
    cyclic interval after `lar` up to `lfs`, `m` of them, and a slot of the
    interval is clear exactly if its frame has been acknowledged. -/
structure AckState (sendbuf : Int → Block) (lar lfs : Int) (m : Nat) (acked : Int → Prop) :
    Prop where
  lar_ge : -1 ≤ lar
  lar_le : lar ≤ 63
  lfs_ge : -1 ≤ lfs
  lfs_le : lfs ≤ 62
  count : (m : Int) = (lfs - lar) % 64
  bound : m ≤ 20
  clear_iff : ∀ i, Outstanding lar lfs i → (sendbuf i = Block.zero ↔ acked i)

section Scan

variable {sendbuf : Int → Block} {lar lfs : Int} {m : Nat} {acked : Int → Prop}

/-- The slot of the outstanding frame number `t`, counted from `lar`. -/
theorem AckState.outstanding_slot (h : AckState sendbuf lar lfs m acked) (t : Nat) (ht : t < m) :
    Outstanding lar lfs ((lar + 1 + t) % 64) := by
  rcases h with ⟨h1, h2, h3, h4, hm, hb, _⟩
  -- The slots are counted on from `lar`, round the end of the buffer.
  rw [Outstanding]
  split <;> omega

/-- A slot of the interval after the acknowledgement: clear exactly if its
    frame is acknowledged now. -/
theorem AckState.clear_after (h : AckState sendbuf lar lfs m acked) (ack i : Int)
    (hi : Outstanding lar lfs i) :
    Function.update sendbuf ack Block.zero i = Block.zero ↔ acked i ∨ i = ack := by
  by_cases heq : i = ack
  · simp only [heq, Function.update_self, or_true]
  · rw [Function.update_of_ne heq, h.clear_iff i hi]
    simp only [heq, or_false]

/-- The run of acknowledged frames is unique. -/
theorem AckedRun.unique {last last' : Int} (h : AckedRun lar m acked last)
    (h' : AckedRun lar m acked last') : last = last' := by
  rcases h with ⟨r, hr, hall, hend, rfl⟩
  rcases h' with ⟨r', hr', hall', hend', rfl⟩
  -- The frame behind the shorter run would be acknowledged in the longer one.
  rcases lt_trichotomy r r' with hlt | rfl | hgt
  · exact absurd (hall' r hlt) (hend (by omega))
  · rfl
  · exact absurd (hall r' hgt) (hend' (by omega))

/-- When the scan does not start, it leaves `lar` behind a frame that has been
    acknowledged. -/
theorem AckState.not_started (h : AckState sendbuf (-1) 0 m acked) (ack : Int)
    (hack : Outstanding (-1) 0 ack) : ¬ AckedRun (-1) m (fun i => acked i ∨ i = ack) (-1) := by
  have hm := h.count
  have hack0 : ack = 0 := by
    rw [Outstanding, if_pos (by omega)] at hack
    omega
  rintro ⟨r, hr, _, hend, hlast⟩
  have hr0 : r = 0 := by
    by_contra hne
    rw [if_neg hne] at hlast
    omega
  subst hr0
  exact hend (by omega) (Or.inr (by rw [hack0]; rfl))

/-- A scan that is stopped in time ends at the end of the run. -/
theorem AckState.run_of_stopped (h : AckState sendbuf lar lfs m acked) (ack j : Int)
    (hlo : lar < j) (hhi : j ≤ if lfs ≥ lar then lfs + 1 else 63)
    (hpass : ∀ i, lar < i → i < j → Function.update sendbuf ack Block.zero i = Block.zero)
    (hstop : Function.update sendbuf ack Block.zero j ≠ Block.zero) :
    AckedRun lar m (fun i => acked i ∨ i = ack) (j - 1) := by
  have hslot := h.outstanding_slot
  have hclear := h.clear_after ack
  rcases h with ⟨h1, h2, h3, h4, hm, hb, _⟩
  have hj63 : j ≤ 63 := by
    split at hhi <;> omega
  have hrm : (j - 1 - lar).toNat ≤ m := by
    split at hhi <;> omega
  refine ⟨(j - 1 - lar).toNat, hrm, fun t ht => ?_, fun hlt => ?_, ?_⟩
  · -- The scan has passed over this slot, so it is clear.
    refine (hclear _ (hslot t (by omega))).mp ?_
    rw [show (lar + 1 + (t : Nat)) % 64 = lar + 1 + t by omega]
    exact hpass _ (by omega) (by omega)
  · intro hacked
    refine hstop ?_
    have hzero := (hclear _ (hslot _ hlt)).mpr hacked
    rwa [show (lar + 1 + ((j - 1 - lar).toNat : Int)) % 64 = j by omega] at hzero
  · split <;> omega

/-- A scan that passes over all outstanding frames should end at `lfs`. -/
theorem AckState.run_of_all (h : AckState sendbuf lar lfs m acked) (ack : Int) (hge : lfs ≥ lar)
    (hm0 : 0 < m)
    (hpass : ∀ i, lar < i → i ≤ lfs → Function.update sendbuf ack Block.zero i = Block.zero) :
    AckedRun lar m (fun i => acked i ∨ i = ack) lfs := by
  have hslot := h.outstanding_slot
  have hclear := h.clear_after ack
  rcases h with ⟨h1, h2, h3, h4, hm, hb, _⟩
  refine ⟨m, Nat.le_refl m, fun t ht => ?_, fun hlt => absurd hlt (by omega), ?_⟩
  · refine (hclear _ (hslot t ht)).mp ?_
    rw [show (lar + 1 + (t : Nat)) % 64 = lar + 1 + t by omega]
    exact hpass _ (by omega) (by omega)
  · rw [if_neg (by omega)]
    omega

end Scan

/-- The scan after the acknowledgement of an outstanding frame reads only the
    buffer and moves `lar` to the end of the run of acknowledged frames exactly
    if a slot that is not empty stops it in time. -/
theorem lar_scan_iff (sendbuf : Int → Block) (lar lfs ack : Int) (m : Nat) (acked : Int → Prop)
    (h : AckState sendbuf lar lfs m acked) (hack : Outstanding lar lfs ack) :
    (∃ last, larScan 64 (Function.update sendbuf ack Block.zero) lar lfs = some last ∧
        AckedRun lar m (fun i => acked i ∨ i = ack) last) ↔
      StoppedInTime sendbuf lar lfs ack := by
  -- Something is outstanding.
  have hm0 : 0 < m := by
    have hc := h.count
    have h1 := h.lar_ge
    have h2 := h.lar_le
    have h3 := h.lfs_ge
    have h4 := h.lfs_le
    rw [Outstanding] at hack
    split at hack <;> omega
  by_cases hzero : lfs = 0 ∧ lar ≤ 0
  · -- The scan does not start. Something is outstanding, so `lar` is `-1`.
    rcases hzero with ⟨rfl, hle⟩
    have hlar : lar = -1 := by
      have hc := h.count
      have h1 := h.lar_ge
      omega
    subst hlar
    rw [larScan_zero 64 _ (-1) (by omega) (by omega)]
    constructor
    · rintro ⟨last, hlast, hrun⟩
      rw [Option.some.injEq] at hlast
      exact absurd (hlast ▸ hrun) (h.not_started ack hack)
    · intro hstop
      exact absurd ⟨rfl, rfl⟩ hstop.1
  · -- The scan is a search: `j` is where it comes to rest.
    generalize hj : scanWhile (fun j => (Function.update sendbuf ack Block.zero j).isEmpty)
      (64 - (lar + 1)).toNat (lar + 1) = j
    have hle := h.lar_le
    rw [larScan_buffer _ lar lfs hle hzero j hj]
    -- Everything up to slot `j` is clear after the acknowledgement.
    rcases (scanWhile_eq_iff _ _ _).mp hj with ⟨hlo, hhi, hpass, hstop⟩
    have hpass' : ∀ i, lar < i → i < j → Function.update sendbuf ack Block.zero i = Block.zero :=
      fun i hi hij => (Block.isEmpty_iff _).mp (hpass i (by omega) hij)
    constructor
    · rintro ⟨last, hlast, hrun⟩
      rw [Option.ite_none_right_eq_some, Option.some.injEq] at hlast
      rcases hlast with ⟨hj64, rfl⟩
      have hne : Function.update sendbuf ack Block.zero j ≠ Block.zero :=
        (Block.isEmpty_eq_false_iff _).mp (hstop (by omega))
      have hjack : j ≠ ack := by
        rintro rfl
        exact hne (Function.update_self _ _ _)
      rw [Function.update_of_ne hjack] at hne
      refine ⟨fun hc => hzero ⟨hc.2, by omega⟩, j, by omega, ?_, hjack, hne⟩
      by_cases hge : lfs ≥ lar
      · rw [if_pos hge]
        by_contra hbeyond
        -- Past `lfs` the scan has gone too far.
        have hlfs := h.run_of_all ack hge hm0 (fun i hi hil => hpass' i hi (by omega))
        have := hrun.unique hlfs
        omega
      · rw [if_neg hge]
        omega
    · -- The slot that is not empty stops the scan, there or before.
      rintro ⟨_, i, hi, hbound, hiack, hne⟩
      have hji : j ≤ i := by
        by_contra hlt
        have hz := hpass' i hi (by omega)
        rw [Function.update_of_ne hiack] at hz
        exact hne hz
      have hbound' : j ≤ if lfs ≥ lar then lfs + 1 else 63 := by omega
      have hj64 : j < 64 := by
        have h4 := h.lfs_le
        split at hbound' <;> omega
      refine ⟨j - 1, if_pos hj64, h.run_of_stopped ack j (by omega) hbound' hpass' ?_⟩
      exact (Block.isEmpty_eq_false_iff _).mp (hstop (by omega))

/-- The buffer with blocks in slots 0 and 1. -/
def twoBlocks : Int → Block := fun i =>
  if i = 0 ∨ i = 1 then Block.single 1 else Block.zero

theorem twoBlocks_ne_zero (i : Int) (hi : i = 0 ∨ i = 1) : twoBlocks i ≠ Block.zero := by
  rw [twoBlocks, if_pos hi]
  exact Block.single_ne_zero 1 (by decide)

/-- Two frames are outstanding and the first one is acknowledged. -/
theorem lar_scan_two :
    (∃ last, larScan 64 (Function.update twoBlocks 0 Block.zero) (-1) 1 = some last ∧
        AckedRun (-1) 2 (fun i => False ∨ i = 0) last) ↔ StoppedInTime twoBlocks (-1) 1 0 := by
  have hout : ∀ i, Outstanding (-1) 1 i → i = 0 ∨ i = 1 := by
    intro i hi
    rw [Outstanding, if_pos (by decide)] at hi
    omega
  exact lar_scan_iff twoBlocks (-1) 1 0 2 (fun _ => False)
    ⟨by decide, by decide, by decide, by decide, by decide, by decide,
      fun i hi => iff_false_intro (twoBlocks_ne_zero i (hout i hi))⟩ (by decide)

/-- The first acknowledgement of a transfer leaves `lar` where it was, although
    it acknowledges the only frame that is outstanding. -/
theorem lar_scan_not_started :
    AckState twoBlocks (-1) 0 1 (fun _ => False) ∧ Outstanding (-1) 0 0 ∧
      ¬ ∃ last, larScan 64 (Function.update twoBlocks 0 Block.zero) (-1) 0 = some last ∧
        AckedRun (-1) 1 (fun i => False ∨ i = 0) last := by
  have hout : ∀ i, Outstanding (-1) 0 i → i = 0 := by
    intro i hi
    rw [Outstanding, if_pos (by decide)] at hi
    omega
  have hstate : AckState twoBlocks (-1) 0 1 (fun _ => False) :=
    ⟨by decide, by decide, by decide, by decide, by decide, by decide,
      fun i hi => iff_false_intro (twoBlocks_ne_zero i (Or.inl (hout i hi)))⟩
  refine ⟨hstate, by decide, ?_⟩
  rw [larScan_zero 64 _ (-1) (by decide) (by decide)]
  rintro ⟨last, hlast, hrun⟩
  rw [Option.some.injEq] at hlast
  exact hstate.not_started 0 (by decide) (hlast ▸ hrun)

end Cse5462
