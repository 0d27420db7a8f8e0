import Mathlib.Algebra.Order.Ring.Int

/-!
# The Round-Trip Estimator

`tcp_rtt_estimator` and the retransmission timeout computed from it. The fields
of `tcp_sock` are 32-bit unsigned, and every assignment to one is reduced to 32
bits; `m` is a 64-bit `long`, which no sample can overflow.

## Main definitions

* `TcpSock`: The state of the estimator.
* `tcpRttEstimator`: One sample folded into the state.
* `tcpSetRto`: The retransmission timeout, in microseconds.
* `TcpSock.sampled`: The state after a sequence of samples.
-/

namespace Cse5462

/-- What is stored in a `u32`. -/
def u32 (n : Int) : Nat := (n % 2 ^ 32).toNat

theorem u32_lt (n : Int) : u32 n < 2 ^ 32 := by
  unfold u32
  omega

/-- `TCP_RTO_MIN`. -/
def tcpRtoMin : Nat := 2000

/-- `struct tcp_sock`. -/
structure TcpSock where
  srtt : Nat
  mdev : Nat
  mdevMax : Nat
  rttvar : Nat
  rttSeq : Nat
  sndUna : Nat
  sndNxt : Nat
  deriving DecidableEq, Repr

/-- `init`. -/
def TcpSock.init : TcpSock :=
  { srtt := 0, mdev := 0, mdevMax := 0, rttvar := 0, rttSeq := 0, sndUna := 0, sndNxt := 0 }

/-- `after`: the difference is unsigned, so this is inequality. -/
def after (seq1 seq2 : Nat) : Bool := decide (u32 ((seq1 : Int) - seq2) > 0)

/-- `__tcp_set_rto`. -/
def tcpSetRto (tp : TcpSock) : Nat := u32 ((tp.srtt / 8 : Nat) + tp.rttvar)

/-- The first sample. -/
def firstSample (tp : TcpSock) (m : Int) : TcpSock :=
  let mdev := u32 (m * 2)
  let start := max mdev tcpRtoMin
  { tp with srtt := u32 (m * 8), mdev := mdev, mdevMax := start, rttvar := start }

/-- What a sample adds to `mdev`, given the error `m` of the estimate. A sample
    below the estimate counts with a smaller gain. -/
def mdevGain (mdev : Nat) (m : Int) : Int :=
  if m < 0 then
    -- The error is negative: it counts with an eighth where `mdev` would grow.
    let m := -m - (mdev / 4 : Nat)
    if m > 0 then m / 8 else m
  else m - (mdev / 4 : Nat)

/-- The update of `mdev_max` and `rttvar` after that of `mdev`. -/
def raiseRttvar (tp : TcpSock) : TcpSock :=
  if tp.mdev > tp.mdevMax then
    { tp with mdevMax := tp.mdev, rttvar := if tp.mdev > tp.rttvar then tp.mdev else tp.rttvar }
  else tp

/-- The update at the end of a round trip. -/
def endOfRtt (tp : TcpSock) : TcpSock :=
  if after tp.sndUna tp.rttSeq then
    { tp with
      rttvar := if tp.mdevMax < tp.rttvar then
        u32 ((tp.rttvar : Int) - ((tp.rttvar - tp.mdevMax) / 4 : Nat)) else tp.rttvar
      mdevMax := tcpRtoMin }
  else tp

/-- `tcp_rtt_estimator`. -/
def tcpRttEstimator (tp : TcpSock) (mrtt : Nat) : TcpSock :=
  let m : Int := if mrtt = 0 then 1 else mrtt
  if tp.srtt ≠ 0 then
    -- The error of the estimate, of which an eighth goes into it.
    let m := m - (tp.srtt / 8 : Nat)
    let tp := { tp with srtt := u32 (tp.srtt + m) }
    let tp := { tp with mdev := u32 (tp.mdev + mdevGain tp.mdev m) }
    endOfRtt (raiseRttvar tp)
  else firstSample tp m

/-- The estimator after a sequence of samples. -/
def TcpSock.sampled (samples : List Nat) : TcpSock := samples.foldl tcpRttEstimator TcpSock.init

theorem TcpSock.sampled_concat (samples : List Nat) (mrtt : Nat) :
    TcpSock.sampled (samples ++ [mrtt]) = tcpRttEstimator (TcpSock.sampled samples) mrtt := by
  rw [sampled, List.foldl_append, List.foldl_cons, List.foldl_nil, sampled]

/-- The first sample of a run, which `0` stands for. -/
example : tcpSetRto (tcpRttEstimator TcpSock.init 0) = 2001 := by decide

end Cse5462
