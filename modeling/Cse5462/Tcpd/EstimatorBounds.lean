import Cse5462.Tcpd.Estimator
import Mathlib.Data.List.Induction
import Mathlib.Data.Nat.Cast.Order.Ring

/-!
# The Estimator Does Not Wrap

The estimator adds signed errors to unsigned 32-bit fields that hold scaled
values. As long as eight times the largest sample fits in 32 bits, none of these
additions wraps, and what is computed is the recurrence over the integers.

The invariant is tight at the roundings. `srtt` is never below eight, because
`srtt` without its eighth is at least seven and every sample counts for at least
one; so the branch of the first sample is taken once. The end of a round trip is
never reached: `rtt_seq` and `snd_una` keep the value that `init` gives them,
and `rttvar` therefore never falls.

## Main definitions

* `sample`: What is folded in, which is never zero.
* `ExactSock`: The fields of the estimator as integers.
* `exactEstimator`: One sample folded in, without 32-bit fields.
* `Bounded`: The invariant of the state after a sample.

## Theorems

* `Bounded.later`: What a sample does to a bounded state.
* `Bounded.next`, `Bounded.exact_next`: What it preserves.
* `bounded_sampled`: Every state after a sample is bounded.
* `estimator_bounded`: No field wraps, and the timeout is bounded.
-/

namespace Cse5462

/-- The fields of `struct tcp_sock` that a sample changes, as integers. -/
structure ExactSock where
  srtt : Int
  mdev : Int
  mdevMax : Int
  rttvar : Int
  deriving DecidableEq, Repr

/-- The fields as they are stored, read as integers. -/
def TcpSock.exact (tp : TcpSock) : ExactSock :=
  { srtt := tp.srtt, mdev := tp.mdev, mdevMax := tp.mdevMax, rttvar := tp.rttvar }

/-- A sample that is not zero. -/
def sample (mrtt : Nat) : Int := if mrtt = 0 then 1 else mrtt

/-- What a sample adds to the mean deviation. -/
def exactGain (mdev m : Int) : Int :=
  if m < 0 then
    if -m - mdev / 4 > 0 then (-m - mdev / 4) / 8 else -m - mdev / 4
  else m - mdev / 4

/-- The recurrence of the estimator over the integers. -/
def exactEstimator (tp : ExactSock) (mrtt : Nat) : ExactSock :=
  let m := sample mrtt
  if tp.srtt ≠ 0 then
    let err := m - tp.srtt / 8
    let mdev := tp.mdev + exactGain tp.mdev err
    { srtt := tp.srtt + err
      mdev := mdev
      mdevMax := max tp.mdevMax mdev
      rttvar := if mdev > tp.mdevMax then max tp.rttvar mdev else tp.rttvar }
  else
    { srtt := m * 8
      mdev := m * 2
      mdevMax := max (m * 2) tcpRtoMin
      rttvar := max (m * 2) tcpRtoMin }

/-- The state after a sample, where none is above `N`. -/
structure Bounded (N : Nat) (tp : TcpSock) : Prop where
  /-- So the first sample is behind. -/
  srtt_ge : 8 ≤ tp.srtt
  srtt_le : tp.srtt ≤ 8 * N
  mdev_le : tp.mdev ≤ 4 * N
  mdev_le_max : tp.mdev ≤ tp.mdevMax
  max_eq : tp.mdevMax = tp.rttvar
  rttvar_ge : tcpRtoMin ≤ tp.rttvar
  rttvar_le : tp.rttvar ≤ max (4 * N) tcpRtoMin
  /-- So no round trip ends. -/
  idle : tp.sndUna = tp.rttSeq

theorem u32_eq {n : Int} (h : 0 ≤ n) (h' : n < 2 ^ 32) : (u32 n : Int) = n := by
  unfold u32
  rw [Int.emod_eq_of_lt h h', Int.toNat_of_nonneg h]

theorem mdevGain_eq (mdev : Nat) (m : Int) : mdevGain mdev m = exactGain mdev m := by
  unfold mdevGain exactGain
  rw [Int.natCast_ediv]
  rfl

/-- The maxima after an update of the deviation. As long as they agree, both are
    raised together, and no round trip ends. -/
theorem endOfRtt_raiseRttvar {tp : TcpSock} (hmax : tp.mdevMax = tp.rttvar)
    (hidle : tp.sndUna = tp.rttSeq) (srtt mdev : Nat) :
    endOfRtt (raiseRttvar { tp with srtt := srtt, mdev := mdev }) =
      { tp with
        srtt := srtt
        mdev := mdev
        mdevMax := max tp.mdevMax mdev
        rttvar := max tp.rttvar mdev } := by
  have hend : ∀ t : TcpSock, t.sndUna = t.rttSeq → endOfRtt t = t := by
    intro t h
    unfold endOfRtt after
    rw [h, Int.sub_self]
    rfl
  unfold raiseRttvar
  rw [← hmax]
  by_cases hgt : mdev > tp.mdevMax
  · simp only [if_pos hgt, max_eq_right hgt.le]
    exact hend _ hidle
  · simp only [if_neg hgt, max_eq_left (Nat.le_of_not_gt hgt)]
    exact hend _ hidle

section

variable {N : Nat} {tp : TcpSock} {mrtt : Nat}

theorem one_le_sample (mrtt : Nat) : 1 ≤ sample mrtt := by
  unfold sample
  split <;> omega

theorem sample_le (hN : 1 ≤ N) (hm : mrtt ≤ N) : sample mrtt ≤ N := by
  unfold sample
  split <;> omega

/-- The estimate stays between eight and eight times the largest sample. -/
theorem srtt_bounds {srtt : Nat} {m : Int} (hlo : 8 ≤ srtt) (hhi : srtt ≤ 8 * N) (hm : 1 ≤ m)
    (hm' : m ≤ N) :
    8 ≤ srtt + (m - (srtt : Int) / 8) ∧ srtt + (m - (srtt : Int) / 8) ≤ 8 * N := by
  omega

/-- The deviation stays below four times the largest sample. -/
theorem mdev_bounds {mdev : Nat} {err : Int} (hmdev : mdev ≤ 4 * N) (hlo : -(N : Int) < err)
    (hhi : err < N) :
    0 ≤ mdev + exactGain mdev err ∧ mdev + exactGain mdev err ≤ 4 * N := by
  unfold exactGain
  split
  · split <;> omega
  · omega

/-- What a sample does to a bounded state: the values that are stored are those
    that are computed. -/
theorem Bounded.later (h : Bounded N tp) (hN : 8 * N < 2 ^ 32) (hm : mrtt ≤ N) :
    ∃ srtt mdev : Nat, (srtt : Int) = tp.srtt + (sample mrtt - tp.srtt / 8)
      ∧ (mdev : Int) = tp.mdev + exactGain tp.mdev (sample mrtt - tp.srtt / 8)
      ∧ 8 ≤ srtt ∧ srtt ≤ 8 * N ∧ mdev ≤ 4 * N
      ∧ tcpRttEstimator tp mrtt = { tp with
          srtt := srtt, mdev := mdev, mdevMax := max tp.mdevMax mdev,
          rttvar := max tp.rttvar mdev } := by
  have hsrtt := h.srtt_ge
  have hsrtt' := h.srtt_le
  have hlo := one_le_sample mrtt
  have hhi : sample mrtt ≤ N := sample_le (by omega) hm
  have hs := srtt_bounds hsrtt hsrtt' hlo hhi
  have hd : 0 ≤ tp.mdev + exactGain tp.mdev (sample mrtt - tp.srtt / 8)
      ∧ tp.mdev + exactGain tp.mdev (sample mrtt - tp.srtt / 8) ≤ 4 * N :=
    mdev_bounds h.mdev_le (by omega) (by omega)
  have hu := u32_eq (n := tp.srtt + (sample mrtt - tp.srtt / 8)) (by omega) (by omega)
  have hv := u32_eq (n := tp.mdev + exactGain tp.mdev (sample mrtt - tp.srtt / 8)) hd.1 (by omega)
  refine ⟨u32 _, u32 _, hu, hv, by omega, by omega, by omega, ?_⟩
  unfold tcpRttEstimator
  dsimp only
  rw [if_pos (by omega), endOfRtt_raiseRttvar h.max_eq h.idle, mdevGain_eq, Int.natCast_ediv]
  rfl

/-- What the first sample does. -/
theorem estimator_first (hzero : tp.srtt = 0) (hN1 : 1 ≤ N) (hN : 8 * N < 2 ^ 32) (hm : mrtt ≤ N) :
    ∃ srtt mdev : Nat, (srtt : Int) = sample mrtt * 8 ∧ (mdev : Int) = sample mrtt * 2
      ∧ 8 ≤ srtt ∧ srtt ≤ 8 * N ∧ mdev ≤ 4 * N
      ∧ tcpRttEstimator tp mrtt = { tp with
          srtt := srtt, mdev := mdev, mdevMax := max mdev tcpRtoMin,
          rttvar := max mdev tcpRtoMin } := by
  have hlo := one_le_sample mrtt
  have hhi := sample_le hN1 hm
  have hu : (u32 (sample mrtt * 8) : Int) = sample mrtt * 8 := u32_eq (by omega) (by omega)
  have hv : (u32 (sample mrtt * 2) : Int) = sample mrtt * 2 := u32_eq (by omega) (by omega)
  refine ⟨u32 _, u32 _, hu, hv, by omega, by omega, by omega, ?_⟩
  unfold tcpRttEstimator
  rw [if_neg (not_not.mpr hzero)]
  rfl

theorem Bounded.next (h : Bounded N tp) (hN : 8 * N < 2 ^ 32) (hm : mrtt ≤ N) :
    Bounded N (tcpRttEstimator tp mrtt) := by
  rcases h.later hN hm with ⟨srtt, mdev, -, -, hlo, hhi, hmdev, heq⟩
  rw [heq]
  exact
    { srtt_ge := hlo
      srtt_le := hhi
      mdev_le := hmdev
      mdev_le_max := le_max_right _ _
      max_eq := by rw [h.max_eq]
      rttvar_ge := le_max_of_le_left h.rttvar_ge
      rttvar_le := max_le h.rttvar_le (le_max_of_le_left hmdev)
      idle := h.idle }

theorem Bounded.exact_next (h : Bounded N tp) (hN : 8 * N < 2 ^ 32) (hm : mrtt ≤ N) :
    (tcpRttEstimator tp mrtt).exact = exactEstimator tp.exact mrtt := by
  rcases h.later hN hm with ⟨srtt, mdev, hsrtt, hmdev, -, -, -, heq⟩
  have hne : (tp.srtt : Int) ≠ 0 := by
    have := h.srtt_ge
    omega
  have hmax : (tp.mdevMax : Int) = tp.rttvar := by rw [h.max_eq]
  unfold exactEstimator
  rw [if_pos (show tp.exact.srtt ≠ 0 from hne), heq]
  simp only [TcpSock.exact, Nat.cast_max, hsrtt, hmdev, hmax]
  -- The two maxima agree, so the test on one of them decides for both.
  congr 1
  split
  · rfl
  · next hle => exact max_eq_left (Int.not_lt.mp hle)

theorem bounded_first (hzero : tp.srtt = 0) (hidle : tp.sndUna = tp.rttSeq) (hN1 : 1 ≤ N)
    (hN : 8 * N < 2 ^ 32) (hm : mrtt ≤ N) : Bounded N (tcpRttEstimator tp mrtt) := by
  rcases estimator_first hzero hN1 hN hm with ⟨srtt, mdev, -, -, hlo, hhi, hmdev, heq⟩
  rw [heq]
  exact
    { srtt_ge := hlo
      srtt_le := hhi
      mdev_le := hmdev
      mdev_le_max := le_max_left _ _
      max_eq := rfl
      rttvar_ge := le_max_right _ _
      rttvar_le := max_le_max hmdev le_rfl
      idle := hidle }

theorem exact_first (hzero : tp.srtt = 0) (hN1 : 1 ≤ N) (hN : 8 * N < 2 ^ 32) (hm : mrtt ≤ N) :
    (tcpRttEstimator tp mrtt).exact = exactEstimator tp.exact mrtt := by
  rcases estimator_first hzero hN1 hN hm with ⟨srtt, mdev, hsrtt, hmdev, -, -, -, heq⟩
  have hexact : tp.exact.srtt = 0 := congrArg Nat.cast hzero
  unfold exactEstimator
  rw [if_neg (not_not.mpr hexact), heq]
  simp only [TcpSock.exact, Nat.cast_max, hsrtt, hmdev]

/-- A sample bounds the state, by the exact recurrence, and `rttvar` grows. -/
theorem bounded_next (h : tp = TcpSock.init ∨ Bounded N tp) (hN1 : 1 ≤ N) (hN : 8 * N < 2 ^ 32)
    (hm : mrtt ≤ N) :
    Bounded N (tcpRttEstimator tp mrtt)
      ∧ (tcpRttEstimator tp mrtt).exact = exactEstimator tp.exact mrtt
      ∧ tp.rttvar ≤ (tcpRttEstimator tp mrtt).rttvar := by
  rcases h with h | h
  · rw [h]
    exact ⟨bounded_first rfl rfl hN1 hN hm, exact_first rfl hN1 hN hm, Nat.zero_le _⟩
  · refine ⟨h.next hN hm, h.exact_next hN hm, ?_⟩
    rcases h.later hN hm with ⟨srtt, mdev, -, -, -, -, -, heq⟩
    rw [heq]
    exact le_max_left _ _

/-- After any samples the state is that of `init` or bounded. -/
theorem bounded_sampled (hN1 : 1 ≤ N) (hN : 8 * N < 2 ^ 32) (samples : List Nat)
    (hs : ∀ m ∈ samples, m ≤ N) :
    TcpSock.sampled samples = TcpSock.init ∨ Bounded N (TcpSock.sampled samples) := by
  induction samples using List.reverseRecOn with
  | nil => exact Or.inl rfl
  | append_singleton samples mrtt ih =>
      rw [TcpSock.sampled_concat]
      have hm : mrtt ≤ N := hs mrtt (List.mem_append_right _ List.mem_cons_self)
      have hbounded := ih fun m h => hs m (List.mem_append_left _ h)
      exact Or.inr (bounded_next hbounded hN1 hN hm).1

/-- The timeout of a bounded state. -/
theorem Bounded.rto (h : Bounded N tp) (hN : 8 * N < 2 ^ 32) :
    tcpSetRto tp = tp.srtt / 8 + tp.rttvar ∧ tcpRtoMin ≤ tcpSetRto tp
      ∧ tcpSetRto tp ≤ N + max (4 * N) tcpRtoMin := by
  have hs := h.srtt_le
  have hlo := h.rttvar_ge
  have hhi := h.rttvar_le
  have hfit : max (4 * N) tcpRtoMin ≤ 4 * N + 2000 := by
    unfold tcpRtoMin
    omega
  have hrto : tcpSetRto tp = tp.srtt / 8 + tp.rttvar := by
    have := u32_eq (n := (tp.srtt / 8 : Nat) + tp.rttvar) (by omega) (by omega)
    unfold tcpSetRto
    omega
  rw [hrto]
  omega

end

/-- No field of the estimator wraps, whatever the samples, and the timeout is
    bounded. -/
theorem estimator_bounded (N : Nat) (hN1 : 1 ≤ N) (hN : 8 * N < 2 ^ 32) (samples : List Nat)
    (mrtt : Nat) (hs : ∀ m ∈ samples ++ [mrtt], m ≤ N) :
    (TcpSock.sampled (samples ++ [mrtt])).exact
        = exactEstimator (TcpSock.sampled samples).exact mrtt
      ∧ 8 ≤ (TcpSock.sampled (samples ++ [mrtt])).srtt
      ∧ (TcpSock.sampled (samples ++ [mrtt])).srtt ≤ 8 * N
      ∧ (TcpSock.sampled (samples ++ [mrtt])).mdev ≤ 4 * N
      ∧ (TcpSock.sampled (samples ++ [mrtt])).mdev ≤ (TcpSock.sampled (samples ++ [mrtt])).mdevMax
      ∧ (TcpSock.sampled (samples ++ [mrtt])).mdevMax = (TcpSock.sampled (samples ++ [mrtt])).rttvar
      ∧ (TcpSock.sampled samples).rttvar ≤ (TcpSock.sampled (samples ++ [mrtt])).rttvar
      ∧ tcpSetRto (TcpSock.sampled (samples ++ [mrtt]))
        = (TcpSock.sampled (samples ++ [mrtt])).srtt / 8
          + (TcpSock.sampled (samples ++ [mrtt])).rttvar
      ∧ tcpRtoMin ≤ tcpSetRto (TcpSock.sampled (samples ++ [mrtt]))
      ∧ tcpSetRto (TcpSock.sampled (samples ++ [mrtt])) ≤ N + max (4 * N) tcpRtoMin := by
  have hm : mrtt ≤ N := hs mrtt (List.mem_append_right _ List.mem_cons_self)
  have hsampled := bounded_sampled hN1 hN samples fun m h => hs m (List.mem_append_left _ h)
  rw [TcpSock.sampled_concat]
  rcases bounded_next hsampled hN1 hN hm with ⟨hb, hexact, hmono⟩
  exact ⟨hexact, hb.srtt_ge, hb.srtt_le, hb.mdev_le, hb.mdev_le_max, hb.max_eq, hmono, hb.rto hN⟩

/-- The largest bound for which this is said. -/
theorem estimator_bounded_largest :
    8 ≤ (TcpSock.sampled ([0, 536870911] ++ [1])).srtt
      ∧ tcpRtoMin ≤ tcpSetRto (TcpSock.sampled ([0, 536870911] ++ [1])) :=
  have h := estimator_bounded 536870911 (by decide) (by decide) [0, 536870911] 1 (by simp)
  ⟨h.2.1, h.2.2.2.2.2.2.2.2.1⟩

end Cse5462
