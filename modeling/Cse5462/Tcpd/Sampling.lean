import Cse5462.Tcpd.Client

/-!
# The Samples of the Estimator

Which round-trip times reach `tcp_rtt_estimator`. An acknowledgement that passes
the checksum leaves its round-trip time in `rtt`, and that is all it does to the
estimate. It is the packets that feed the estimator: whenever one goes out, for
the first time or again, what is in `rtt` at that moment is folded into `tp` and
the timeout is computed anew.

A round-trip time is therefore folded in once for every packet that goes out
before the next acknowledgement, which may be never or many times, and packets
that go out before the first acknowledgement fold in the `0` that `rtt` starts
with. Each measured round-trip time is folded in exactly once in those runs in
which acknowledgements and packets alternate.

`Record` is the client with a record of both sequences. It is there to be talked
about: the client in it takes the steps it would take anyway.

## Main definitions

* `Client.Sends`, `Client.Accepts`: What a step does.
* `Record`: The client, with the samples that were measured and fed.
* `Record.Once`: Every measured sample has been fed once.
* `Record.Alternates`: Packets and acknowledgements take turns.

## Theorems

* `next_cases`: What a step does to the record.
* `sound_run`: The estimate is that of the samples fed.
* `sampled_once_iff`: When every measured sample is fed once.
-/

namespace Cse5462

namespace Client

/-- The step sends a packet, for the first time or again. -/
def Sends (top : Int) (c : Client) (e : ClientEvent) : Prop :=
  ∃ c' p, c.step top e = some (c', some p)

/-- The step accepts an acknowledgement. -/
def Accepts (top : Int) (c : Client) (e : ClientEvent) : Prop :=
  ∃ n stamp now c' out, e = .ack n stamp now ∧ c.step top e = some (c', out)

end Client

/-- The client, the round-trip times computed by `calculate_rtt` and those passed
    to `tcp_rtt_estimator`. An acknowledgement is `waiting` if no packet has gone
    out since. -/
structure Record where
  client : Client
  measured : List Nat
  fed : List Nat
  waiting : Bool

namespace Record

/-- The record before the first step. -/
def init (sendbuf : Int → Block) (cell : Heap) (now : Timeval) : Record :=
  { client := Client.init sendbuf cell now, measured := [], fed := [], waiting := false }

/-- What is added to the record by a step to `c`. -/
def note (r : Record) (e : ClientEvent) (c : Client) : Option Packet → Record
  -- The estimator has been given what was in `rtt`.
  | some _ => { r with client := c, fed := r.fed ++ [r.client.driver.rtt], waiting := false }
  | none =>
      match e with
      | .ack _ stamp now =>
          { r with
            client := c
            measured := r.measured ++ [calculateRtt now stamp]
            waiting := true }
      | _ => { r with client := c }

/-- The client and its record after a step. -/
def next (top : Int) (r : Record) (e : ClientEvent) : Option Record :=
  (r.client.step top e).map fun s => r.note e s.1 s.2

/-- Every measured sample has been fed, in order and once, but for that of an
    acknowledgement which still waits for a packet. -/
def Once (r : Record) : Prop :=
  r.measured = if r.waiting then r.fed ++ [r.client.driver.rtt] else r.fed

/-- A packet goes out only where an acknowledgement waits, and an acknowledgement
    is accepted only where none does. -/
def Alternates (top : Int) (r : Record) (e : ClientEvent) : Prop :=
  (r.client.Sends top e → r.waiting = true) ∧ (r.client.Accepts top e → r.waiting = false)

/-- What a step does to the record, and to the variables the estimate is in. -/
inductive Did (top : Int) (r : Record) (e : ClientEvent) : Record → Prop where
  | fed (c : Client) (hsends : r.client.Sends top e) (haccepts : ¬ r.client.Accepts top e)
      (hrtt : c.driver.rtt = r.client.driver.rtt)
      (htp : c.driver.tp = tcpRttEstimator r.client.driver.tp r.client.driver.rtt)
      (hrto : c.driver.rto = tcpSetRto c.driver.tp) :
      Did top r e
        { r with client := c, fed := r.fed ++ [r.client.driver.rtt], waiting := false }
  | measured (c : Client) (hsends : ¬ r.client.Sends top e) (haccepts : r.client.Accepts top e)
      (htp : c.driver.tp = r.client.driver.tp) (hrto : c.driver.rto = r.client.driver.rto) :
      Did top r e
        { r with client := c, measured := r.measured ++ [c.driver.rtt], waiting := true }
  | neither (c : Client) (hsends : ¬ r.client.Sends top e) (haccepts : ¬ r.client.Accepts top e)
      (hrtt : c.driver.rtt = r.client.driver.rtt) (htp : c.driver.tp = r.client.driver.tp)
      (hrto : c.driver.rto = r.client.driver.rto) :
      Did top r e { r with client := c }

variable {top : Int} {r r' : Record} {e : ClientEvent}

/-- A step without a packet sends none. -/
theorem not_sends {c : Client} (h : r.client.step top e = some (c, none)) :
    ¬ r.client.Sends top e := by
  rintro ⟨c', p, hp⟩
  rw [h] at hp
  cases hp

/-- An event other than an acknowledgement accepts none. -/
theorem not_accepts (h : ∀ n stamp now, e ≠ .ack n stamp now) : ¬ r.client.Accepts top e := by
  rintro ⟨n, stamp, now, _, _, he, _⟩
  exact h n stamp now he

theorem next_cases (h : r.next top e = some r') : Did top r e r' := by
  rcases Option.map_eq_some_iff.mp h with ⟨⟨c, out⟩, hstep, rfl⟩
  cases Client.step_cases top r.client c e out hstep with
  | resent id now hphase => exact .fed _ ⟨_, _, hstep⟩ (not_accepts (by simp)) rfl rfl rfl
  | sent now hphase hguard => exact .fed _ ⟨_, _, hstep⟩ (not_accepts (by simp)) rfl rfl rfl
  | acked n stamp now lar hphase hscan =>
      exact .measured _ (not_sends hstep) ⟨n, stamp, now, _, _, rfl, hstep⟩ rfl rfl
  -- The other steps touch none of the three variables.
  | nothingAsked | asked | refilled | notRefilled | notAcked | notSent | commanded | expired
  | changed => exact .neither _ (not_sends hstep) (not_accepts (by simp)) rfl rfl rfl

/-- The estimate and the timeout are those of the samples fed, and what is fed
    next is the last round-trip time measured, or the `0` of the start. -/
structure Sound (r : Record) : Prop where
  rtt : r.client.driver.rtt = r.measured.getLastD 0
  tp : r.client.driver.tp = TcpSock.sampled r.fed
  rto : r.client.driver.rto = if r.fed = [] then tcpRtoMin else tcpSetRto r.client.driver.tp

theorem sound_init (sendbuf : Int → Block) (cell : Heap) (now : Timeval) :
    Sound (init sendbuf cell now) where
  rtt := rfl
  tp := rfl
  rto := rfl

theorem sound_next (hs : Sound r) (h : r.next top e = some r') : Sound r' := by
  rcases hs with ⟨hrtt, htp, hrto⟩
  cases next_cases h with
  | fed c hsends haccepts hrtt' htp' hrto' =>
      refine ⟨hrtt'.trans hrtt, ?_, ?_⟩
      · simp only [htp', htp, TcpSock.sampled_concat]
      · simp only [hrto', List.append_eq_nil_iff, List.cons_ne_self, and_false, if_false]
  | measured c hsends haccepts htp' hrto' =>
      refine ⟨?_, htp'.trans htp, ?_⟩
      · simp only [List.getLastD_concat]
      · simp only [hrto', hrto, htp']
  | neither c hsends haccepts hrtt' htp' hrto' =>
      refine ⟨hrtt'.trans hrtt, htp'.trans htp, ?_⟩
      simp only [hrto', hrto, htp']

/-- In every run the estimate is that of the samples fed. -/
theorem sound_run (sendbuf : Int → Block) (cell : Heap) (now : Timeval) (es : List ClientEvent)
    (h : Machine.run (next top) (init sendbuf cell now) es = some r) : Sound r :=
  Machine.run_invariant (fun _ _ _ => sound_next) es _ r (sound_init sendbuf cell now) h

/-- The measured samples have one more than was fed if one waits, and only then. -/
theorem measured_eq_fed_concat_iff (h : Once r) :
    r.measured = r.fed ++ [r.client.driver.rtt] ↔ r.waiting = true := by
  rw [h]
  cases r.waiting <;> simp

theorem measured_eq_fed_iff (h : Once r) : r.measured = r.fed ↔ r.waiting = false := by
  rw [h]
  cases r.waiting <;> simp

/-- A step without a packet or an acknowledgement is always in its turn. -/
theorem alternates_of_quiet {c : Client} (h : r.client.step top e = some (c, none))
    (hack : ∀ n stamp now, e ≠ .ack n stamp now) : Alternates top r e :=
  ⟨fun hsends => absurd hsends (not_sends h), fun haccepts => absurd haccepts (not_accepts hack)⟩

/-- A step keeps the samples in order exactly if it comes in its turn. -/
theorem once_iff (h : Once r) (hdid : Did top r e r') : Once r' ↔ Alternates top r e := by
  cases hdid with
  | fed c hsends haccepts hrtt htp hrto =>
      simp only [Once, Alternates, hsends, haccepts, Bool.false_eq_true, if_false, forall_const,
        false_imp_iff, and_true]
      exact measured_eq_fed_concat_iff h
  | measured c hsends haccepts htp hrto =>
      simp only [Once, Alternates, hsends, haccepts, if_true, forall_const, false_imp_iff,
        true_and, List.append_left_inj]
      exact measured_eq_fed_iff h
  | neither c hsends haccepts hrtt htp hrto =>
      simp only [Once, Alternates, hsends, haccepts, hrtt, false_imp_iff, and_true, iff_true]
      exact h

theorem once_next_iff (h : Once r) :
    (∀ r', r.next top e = some r' → Once r') ↔ Alternates top r e := by
  cases hnext : r.next top e with
  | some r' =>
      have hiff := once_iff h (next_cases hnext)
      simp only [Option.some.injEq, forall_eq', hiff]
  | none =>
      -- The step is not taken, so it neither sends nor accepts.
      have hnone : r.client.step top e = none := Option.map_eq_none_iff.mp hnext
      simp only [reduceCtorEq, false_imp_iff, implies_true, Alternates, Client.Sends,
        Client.Accepts, hnone, and_false, exists_false, and_self]

/-- With every sample in its turn, the samples fed are those measured. -/
theorem fed_eq {s : Record} (hr : Once r) (hs : Once s) (hmeasured : r.measured = s.measured)
    (hwaiting : r.waiting = s.waiting) : r.fed = s.fed := by
  unfold Once at hr hs
  rw [hr, hs, hwaiting] at hmeasured
  cases hw : s.waiting with
  | true =>
      rw [hw, if_pos rfl, if_pos rfl] at hmeasured
      exact List.append_inj_left' hmeasured rfl
  | false =>
      rw [hw] at hmeasured
      exact hmeasured

end Record

open Record

/-- In every run the samples fed to the estimator are those measured, each one
    once and in order, exactly if the acknowledgements that are accepted and the
    packets that go out alternate, an acknowledgement first. Two such runs that
    measure the same samples have the same estimate and timeout, if the last
    sample has been fed in both or in neither. -/
theorem sampled_once_iff (top : Int) (sendbuf : Int → Block) (cell : Heap) (start : Timeval) :
    (∀ es, Machine.Throughout (next top) Once (init sendbuf cell start) es ↔
      Machine.Meets (next top) (Alternates top) (init sendbuf cell start) es) ∧
    ∀ sendbuf' cell' start' es es' r s,
      Machine.Meets (next top) (Alternates top) (init sendbuf cell start) es →
      Machine.Meets (next top) (Alternates top) (init sendbuf' cell' start') es' →
      Machine.run (next top) (init sendbuf cell start) es = some r →
      Machine.run (next top) (init sendbuf' cell' start') es' = some s →
      r.measured = s.measured → r.waiting = s.waiting →
      r.client.driver.tp = s.client.driver.tp ∧ r.client.driver.rto = s.client.driver.rto := by
  have honce : ∀ sendbuf cell start es, Machine.Throughout (next top) Once
      (init sendbuf cell start) es ↔
        Machine.Meets (next top) (Alternates top) (init sendbuf cell start) es :=
    fun sendbuf cell start es => Machine.throughout_iff (P := fun _ => True)
      (fun _ _ _ _ _ _ => trivial) (fun _ _ _ h => once_next_iff h) es _ trivial rfl
  refine ⟨honce sendbuf cell start, ?_⟩
  intro sendbuf' cell' start' es es' r s hes hes' hr hs hmeasured hwaiting
  have hfed : r.fed = s.fed := fed_eq
    ((honce _ _ _ es).mpr hes es r (List.prefix_refl es) hr)
    ((honce _ _ _ es').mpr hes' es' s (List.prefix_refl es') hs) hmeasured hwaiting
  -- The estimate and the timeout depend on the samples fed alone.
  have hr' := sound_run _ _ _ es hr
  have hs' := sound_run _ _ _ es' hs
  have htp : r.client.driver.tp = s.client.driver.tp := by rw [hr'.tp, hs'.tp, hfed]
  refine ⟨htp, ?_⟩
  rw [hr'.rto, hs'.rto, hfed, htp]

/-- The client as it starts, with nothing recorded. -/
def Record.fresh : Record :=
  init (fun _ => Block.zero) (fun _ => ⟨0, ⟨0, 0⟩, none, none⟩) ⟨0, 0⟩

/-- A block is read, an acknowledgement comes, and the block is sent. -/
def ackThenSend : List ClientEvent :=
  [.select, .refill (Block.single 1) buffSize, .ack 5 ⟨0, 0⟩ ⟨0, 800⟩, .send ⟨0, 900⟩]

theorem alternates_ackThenSend (es : List ClientEvent)
    (h : ∀ r, Machine.run (next 64) fresh ackThenSend = some r →
      Machine.Meets (next 64) (Alternates 64) r es) :
    Machine.Meets (next 64) (Alternates 64) fresh (ackThenSend ++ es) := by
  refine Machine.meets_cons _ ?_ rfl (Machine.meets_cons _ ?_ rfl
    (Machine.meets_cons _ ?_ rfl (Machine.meets_cons _ ?_ rfl (h _ rfl))))
  · exact alternates_of_quiet rfl (by simp)
  · exact alternates_of_quiet rfl (by simp)
  · exact ⟨fun hsends => absurd hsends (not_sends rfl), fun _ => rfl⟩
  · exact ⟨fun _ => rfl, fun haccepts => absurd haccepts (not_accepts (by simp))⟩

/-- One acknowledgement before the one packet, and a further turn of the loop in
    which nothing arrives. -/
theorem sampled_once_ackThenSend :
    Machine.Throughout (next 64) Once fresh ackThenSend ∧
      ∃ r s, Machine.run (next 64) fresh ackThenSend = some r ∧
        Machine.run (next 64) fresh (ackThenSend ++ [.select, .noRefill]) = some s ∧
        r.client.driver.tp = s.client.driver.tp ∧ r.client.driver.rto = s.client.driver.rto := by
  have hone : Machine.Meets (next 64) (Alternates 64) fresh ackThenSend :=
    alternates_ackThenSend [] fun _ _ => trivial
  have hmore : Machine.Meets (next 64) (Alternates 64) fresh
      (ackThenSend ++ [.select, .noRefill]) := by
    refine alternates_ackThenSend _ fun r hr => ?_
    cases hr
    refine Machine.meets_cons _ ?_ rfl (Machine.meets_cons _ ?_ rfl trivial)
    · exact alternates_of_quiet rfl (by simp)
    · exact alternates_of_quiet rfl (by simp)
  refine ⟨((sampled_once_iff 64 _ _ _).1 ackThenSend).mpr hone, _, _, rfl, rfl, ?_⟩
  exact (sampled_once_iff 64 _ _ _).2 _ _ _ _ _ _ _ hone hmore rfl rfl rfl rfl

/-- The first packet goes out before any acknowledgement, as it must where a
    transfer begins: a sample is fed and none has been measured. Nothing has been
    acknowledged in either run, and the timeouts differ. -/
theorem sampled_without_ack :
    ∃ r, Machine.run (next 64) fresh
        [.select, .refill (Block.single 1) buffSize, .noAck, .send ⟨0, 0⟩] = some r ∧
      r.fed = [0] ∧ r.measured = [] ∧ ¬ Once r ∧ r.measured = fresh.measured ∧
      r.waiting = fresh.waiting ∧ r.client.driver.tp ≠ fresh.client.driver.tp ∧
      r.client.driver.rto ≠ fresh.client.driver.rto := by
  refine ⟨_, rfl, rfl, rfl, ?_, rfl, rfl, ?_, ?_⟩
  · intro honce
    have hnil : ([] : List Nat) = [0] := honce
    exact List.cons_ne_nil _ _ hnil.symm
  · intro htp
    have hsrtt : (8 : Nat) = 0 := congrArg TcpSock.srtt htp
    omega
  · intro hrto
    have hrto' : (2001 : Nat) = 2000 := hrto
    omega

end Cse5462
