import Cse5462.Tcpd.EstimatorBounds
import Mathlib.Order.Bounds.Basic

/-!
# What the Estimator Forgets

Samples that repeat one value bring the estimate to that value. As long as it is
above or below, each of them moves `srtt` by at least one in the direction of
eight times the value, and none moves it past; from then on the error is zero,
and the mean deviation falls as far as its division by four lets it.

The timeout does not follow. `rttvar` is lowered at the end of a round trip, and
since `init` sets `snd_una` and `rtt_seq` to the same number and nothing moves
either, no round trip ends. So `rttvar` is the greatest deviation that there has
ever been, and the timeout stays above it, however steady the samples become.

## Main definitions

* `gap`: How far an estimate is from one that a sample leaves as it is.
* `deviations`: The deviations after each of the samples.

## Theorems

* `gap_later`: What one sample does to the distance.
* `timeout_remembers`: `rttvar` is the greatest deviation of all.
* `estimate_settles`: The estimate settles, and the timeout stays above it.
-/

namespace Cse5462

/-- How far `srtt` is from the values whose eighth is `m`. -/
def gap (m srtt : Nat) : Nat := (8 * m - srtt) + (srtt - (8 * m + 7))

/-- The mean deviations after each of the samples, and the least one that the
    timeout allows for. -/
def deviations (samples : List Nat) : Set Nat :=
  {v | v = tcpRtoMin ∨
    ∃ before, before ≠ [] ∧ before <+: samples ∧ v = (TcpSock.sampled before).mdev}

theorem gap_eq_zero_iff (m srtt : Nat) : gap m srtt = 0 ↔ srtt / 8 = m := by
  unfold gap
  omega

/-- A sample brings the estimate nearer, and not past. -/
theorem gap_later {m srtt srtt' : Nat} (h : (srtt' : Int) = srtt + (m - (srtt : Int) / 8)) :
    gap m srtt' ≤ gap m srtt - 1 := by
  unfold gap
  omega

theorem sample_eq (mrtt : Nat) : sample mrtt = (max 1 mrtt : Nat) := by
  unfold sample
  split <;> omega

theorem deviations_nil : deviations [] = {tcpRtoMin} := by
  ext v
  constructor
  · rintro (hv | ⟨before, hne, hpre, -⟩)
    · exact hv
    · exact absurd (List.prefix_nil.mp hpre) hne
  · exact Or.inl

theorem deviations_concat (samples : List Nat) (mrtt : Nat) :
    deviations (samples ++ [mrtt])
      = insert (TcpSock.sampled (samples ++ [mrtt])).mdev (deviations samples) := by
  ext v
  constructor
  · rintro (hv | ⟨before, hne, hpre, hv⟩)
    · exact Or.inr (Or.inl hv)
    · -- The samples up to the last one, or fewer.
      rcases List.prefix_concat_iff.mp hpre with heq | hpre'
      · exact Or.inl (heq ▸ hv)
      · exact Or.inr (Or.inr ⟨before, hne, hpre', hv⟩)
  · rintro (hv | hv | ⟨before, hne, hpre, hv⟩)
    · exact Or.inr ⟨_, List.append_ne_nil_of_right_ne_nil _ (List.cons_ne_nil _ _),
        List.prefix_refl _, hv⟩
    · exact Or.inl hv
    · exact Or.inr ⟨before, hne, hpre.trans (List.prefix_append _ _), hv⟩

section

variable {N : Nat} {tp : TcpSock} {mrtt : Nat}

/-- The deviation after a sample is remembered. -/
theorem Bounded.rttvar_next (h : Bounded N tp) (hN : 8 * N < 2 ^ 32) (hm : mrtt ≤ N) :
    (tcpRttEstimator tp mrtt).rttvar = max (tcpRttEstimator tp mrtt).mdev tp.rttvar := by
  rcases h.later hN hm with ⟨srtt, mdev, -, -, -, -, -, heq⟩
  rw [heq]
  exact max_comm _ _

theorem rttvar_first (hN1 : 1 ≤ N) (hN : 8 * N < 2 ^ 32) (hm : mrtt ≤ N) :
    (TcpSock.sampled [mrtt]).rttvar = max (TcpSock.sampled [mrtt]).mdev tcpRtoMin := by
  have hzero : TcpSock.init.srtt = 0 := rfl
  rcases estimator_first hzero hN1 hN hm with ⟨srtt, mdev, -, -, -, -, -, heq⟩
  rw [show TcpSock.sampled [mrtt] = tcpRttEstimator TcpSock.init mrtt from rfl, heq]

/-- After a first sample the state is bounded. -/
theorem bounded_of_ne_nil (hN1 : 1 ≤ N) (hN : 8 * N < 2 ^ 32) {samples : List Nat}
    (hs : ∀ m ∈ samples, m ≤ N) (hne : samples ≠ []) : Bounded N (TcpSock.sampled samples) := by
  rw [← List.dropLast_concat_getLast hne, TcpSock.sampled_concat]
  have hbefore : ∀ m ∈ samples.dropLast, m ≤ N := fun m h => hs m (List.dropLast_subset _ h)
  exact (bounded_next (bounded_sampled hN1 hN _ hbefore) hN1 hN (hs _ (List.getLast_mem hne))).1

/-- A sample whose value is the estimate leaves it as it is. -/
theorem Bounded.settled_next (h : Bounded N tp) (hN : 8 * N < 2 ^ 32) (hm : mrtt ≤ N)
    (hsrtt : tp.srtt / 8 = max 1 mrtt) :
    (tcpRttEstimator tp mrtt).srtt = tp.srtt
      ∧ (tcpRttEstimator tp mrtt).mdev = tp.mdev - tp.mdev / 4
      ∧ (tcpRttEstimator tp mrtt).rttvar = tp.rttvar := by
  rcases h.later hN hm with ⟨srtt, mdev, hs, hd, -, -, -, heq⟩
  have hmax := h.max_eq
  have hle := h.mdev_le_max
  -- The error is zero, so only the deviation is lowered.
  have herr : sample mrtt - (tp.srtt : Int) / 8 = 0 := by
    rw [sample_eq]
    omega
  rw [herr] at hs hd
  have hgain : exactGain tp.mdev 0 = -((tp.mdev : Int) / 4) := by
    unfold exactGain
    rw [if_neg (by omega)]
    omega
  rw [hgain] at hd
  rw [heq]
  dsimp only
  omega

/-- Samples of one value bring the estimate nearer, one step at a time. -/
theorem Bounded.gap_next (h : Bounded N tp) (hN : 8 * N < 2 ^ 32) (hm : mrtt ≤ N) :
    gap (max 1 mrtt) (tcpRttEstimator tp mrtt).srtt ≤ gap (max 1 mrtt) tp.srtt - 1 := by
  rcases h.later hN hm with ⟨srtt, mdev, hs, -, -, -, -, heq⟩
  rw [sample_eq] at hs
  rw [heq]
  exact gap_later hs

theorem Bounded.gap_le (h : Bounded N tp) (hN1 : 1 ≤ N) (hm : mrtt ≤ N) :
    gap (max 1 mrtt) tp.srtt ≤ 8 * N - 1 := by
  have hlo := h.srtt_ge
  have hhi := h.srtt_le
  unfold gap
  omega

end

/-- `rttvar` is the greatest deviation that there has been after any of the
    samples, so the timeout is never below one of them. -/
theorem timeout_remembers (N : Nat) (hN1 : 1 ≤ N) (hN : 8 * N < 2 ^ 32) (samples : List Nat)
    (hs : ∀ m ∈ samples, m ≤ N) (hne : samples ≠ []) :
    IsGreatest (deviations samples) (TcpSock.sampled samples).rttvar ∧
      ∀ v ∈ deviations samples, v ≤ tcpSetRto (TcpSock.sampled samples) := by
  have hgreatest : IsGreatest (deviations samples) (TcpSock.sampled samples).rttvar := by
    -- Induction from the last sample; the first one sets `rttvar`, later ones raise it.
    induction samples using List.reverseRecOn with
    | nil => exact absurd rfl hne
    | append_singleton samples mrtt ih =>
        have hm : mrtt ≤ N := hs mrtt (List.mem_append_right _ List.mem_cons_self)
        have hs' : ∀ m ∈ samples, m ≤ N := fun m h => hs m (List.mem_append_left _ h)
        rw [deviations_concat]
        by_cases hnil : samples = []
        · rw [hnil, List.nil_append, rttvar_first hN1 hN hm, deviations_nil]
          exact IsGreatest.insert _ isGreatest_singleton
        · rw [TcpSock.sampled_concat, (bounded_of_ne_nil hN1 hN hs' hnil).rttvar_next hN hm]
          exact IsGreatest.insert _ (ih hs' hnil)
  refine ⟨hgreatest, fun v hv => (hgreatest.2 hv).trans ?_⟩
  rw [((bounded_of_ne_nil hN1 hN hs hne).rto hN).1]
  exact Nat.le_add_left _ _

/-- After two samples of a second and one of two, the deviation of the last one
    counts. -/
theorem timeout_remembers_three :
    (TcpSock.sampled [1000, 1000, 2000]).mdev ≤ tcpSetRto (TcpSock.sampled [1000, 1000, 2000]) :=
  (timeout_remembers 2000 (by decide) (by decide) [1000, 1000, 2000] (by decide) (by decide)).2 _
    (Or.inr ⟨_, by decide, List.prefix_refl _, rfl⟩)

theorem sampled_replicate_succ (samples : List Nat) (mrtt n : Nat) :
    TcpSock.sampled (samples ++ List.replicate (n + 1) mrtt)
      = tcpRttEstimator (TcpSock.sampled (samples ++ List.replicate n mrtt)) mrtt := by
  rw [List.replicate_succ', ← List.append_assoc, TcpSock.sampled_concat]

section

variable {N : Nat} (hN1 : 1 ≤ N) (hN : 8 * N < 2 ^ 32) {samples : List Nat}
  (hs : ∀ m ∈ samples, m ≤ N) {mrtt : Nat} (hm : mrtt ≤ N)
include hN1 hN hs hm

theorem bounded_replicate (n : Nat) :
    Bounded N (TcpSock.sampled (samples ++ List.replicate (n + 1) mrtt)) := by
  refine bounded_of_ne_nil hN1 hN (fun m h => ?_) ?_
  · rcases List.mem_append.mp h with h | h
    · exact hs m h
    · exact (List.eq_of_mem_replicate h).trans_le hm
  · exact List.append_ne_nil_of_right_ne_nil _ (List.cons_ne_nil _ _)

/-- The estimate after the first of the equal samples and `n` more. -/
theorem gap_replicate (n : Nat) :
    gap (max 1 mrtt) (TcpSock.sampled (samples ++ List.replicate (n + 1) mrtt)).srtt
      ≤ 8 * N - 1 - n := by
  induction n with
  | zero => exact (bounded_replicate hN1 hN hs hm 0).gap_le hN1 hm
  | succ n ih =>
      have hnext := (bounded_replicate hN1 hN hs hm n).gap_next hN hm
      rw [sampled_replicate_succ]
      omega

/-- From then on only the deviation falls. -/
theorem settled_replicate (n : Nat) :
    (TcpSock.sampled (samples ++ List.replicate (8 * N + n) mrtt)).srtt / 8 = max 1 mrtt
      ∧ (TcpSock.sampled (samples ++ List.replicate (8 * N + n) mrtt)).rttvar
        = (TcpSock.sampled (samples ++ List.replicate (8 * N) mrtt)).rttvar
      ∧ (TcpSock.sampled (samples ++ List.replicate (8 * N + n) mrtt)).mdev
        ≤ max 3 (4 * N - n) := by
  have hb : ∀ k, Bounded N (TcpSock.sampled (samples ++ List.replicate (8 * N + k) mrtt)) := by
    intro k
    rw [show 8 * N + k = (8 * N + k - 1) + 1 by omega]
    exact bounded_replicate hN1 hN hs hm _
  induction n with
  | zero =>
      -- The gap falls by one with each sample and has come to nothing.
      have hgap := gap_replicate hN1 hN hs hm (8 * N - 1)
      rw [show 8 * N - 1 + 1 = 8 * N by omega, Nat.sub_self, Nat.le_zero, gap_eq_zero_iff] at hgap
      exact ⟨hgap, rfl, le_max_of_le_right (hb 0).mdev_le⟩
  | succ n ih =>
      rcases ih with ⟨hsrtt, hrttvar, hmdev⟩
      -- The estimate stays, and the deviation loses a fourth.
      rcases (hb n).settled_next hN hm hsrtt with ⟨hsrtt', hmdev', hrttvar'⟩
      rw [← Nat.add_assoc, sampled_replicate_succ, hsrtt', hrttvar', hmdev']
      refine ⟨hsrtt, hrttvar, ?_⟩
      omega

end

/-- Equal samples bring the estimate to their value and the deviation down to
    three; the timeout keeps what it had on top of the estimate. -/
theorem estimate_settles (N : Nat) (hN1 : 1 ≤ N) (hN : 8 * N < 2 ^ 32) (samples : List Nat)
    (hs : ∀ m ∈ samples, m ≤ N) (mrtt : Nat) (hm : mrtt ≤ N) (n : Nat) (hn : 8 * N ≤ n) :
    (TcpSock.sampled (samples ++ List.replicate n mrtt)).srtt / 8 = max 1 mrtt
      ∧ tcpSetRto (TcpSock.sampled (samples ++ List.replicate n mrtt))
        = max 1 mrtt + (TcpSock.sampled (samples ++ List.replicate (8 * N) mrtt)).rttvar
      ∧ (12 * N ≤ n → (TcpSock.sampled (samples ++ List.replicate n mrtt)).mdev ≤ 3) := by
  rcases Nat.exists_eq_add_of_le hn with ⟨k, rfl⟩
  rcases settled_replicate hN1 hN hs hm k with ⟨hsrtt, hrttvar, hmdev⟩
  have hb := bounded_replicate hN1 hN hs hm (8 * N + k - 1)
  rw [show 8 * N + k - 1 + 1 = 8 * N + k by omega] at hb
  refine ⟨hsrtt, ?_, fun hk => ?_⟩
  · rw [(hb.rto hN).1, hsrtt, hrttvar]
  · omega

/-- A sample of 20 and then samples of 3. -/
theorem estimate_settles_twenty :
    (TcpSock.sampled ([20] ++ List.replicate 300 3)).srtt / 8 = max 1 3
      ∧ (TcpSock.sampled ([20] ++ List.replicate 300 3)).mdev ≤ 3 :=
  have h := estimate_settles 20 (by decide) (by decide) [20] (by decide) 3 (by decide) 300
    (by decide)
  ⟨h.1, h.2.2 (by decide)⟩

end Cse5462
