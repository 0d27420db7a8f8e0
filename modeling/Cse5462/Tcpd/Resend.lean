import Cse5462.Tcpd.Orphan
import Cse5462.Tcpd.TimerValid

/-!
# A Frame Can Always Be Sent Again

A frame without an acknowledgement is covered, and that something is left for it
means that the client gets there by itself. The timer process reads the commands
that are in the pipe, `select` times out late enough for the whole list, and the
driver answers one request in every iteration, without a block, an
acknowledgement or anything else from outside.

One thing can stop this: `select` refuses a timeout that is not normalised, and
the timer process exits. A turn of the process can leave such a timeout, but it
does not have to. If every timer runs out before the next command is read, each
start finds an empty list, so the process comes through all of its commands. A
frame is lost for good only if the timeout is invalid already, and no request
for the frame is left either.

Time passes only if `lasttime` is set, so the first timeout may take nothing off
the list. It sets the clock, and the second one takes everything.

## Main definitions

* `TimerProcess.Awake`: There is a timeout as long as there is a timer.
* `ClientEvent.Clocked`: The timer process reads a normalised clock.
* `Tracked.Quiet`: The steps that need nothing from outside.
* `Tracked.Turns`: Turns of the timer process, and of nothing else.

## Theorems

* `keepsValid_unset`: The timeout that sets the clock leaves a valid one.
* `expire_all`: A late timeout takes every timer off the list.
* `emptied`, `drained`: The timers run out, and the commands are read.
* `answered`: A request in the pipe comes to be answered.
* `refused_step`: What is lost for good.
* `resend_reachable`: When a frame can still be sent again.
-/

namespace Cse5462

namespace TimerProcess

/-- As long as there is a timer in the list, `select` has a timeout. -/
def Awake (p : TimerProcess) : Prop := p.pending ≠ [] → p.timeout1 ≠ none

variable {p p' : TimerProcess} {m : Message} {left : Option Nat} {now : Timeval} {ids : List Int}

theorem head_ne_none_of_pending (h : p.Sound) (hp : p.pending ≠ []) : p.list.head ≠ none := by
  intro hnone
  rw [h.head_eq, List.head?_eq_none_iff] at hnone
  refine hp ?_
  unfold pending Heap.ids
  rw [hnone, List.map_nil]

/-- A start leaves `timeout1` at the head, and a cancellation where it was. -/
theorem awake_command (h : p.Sound) (ha : p.Awake) (hp : p.command m left now = some p') :
    p'.Awake := by
  intro hne
  cases hm : m.operation with
  | start =>
      have hhead := head_ne_none_of_pending (started h hm hp).sound hne
      rcases command_start hm hp with ⟨t, -, rfl⟩
      exact hhead
  | cancel =>
      have hiff := (cancelled h hm hp).2
      rcases List.exists_mem_of_ne_nil _ hne with ⟨k, hk⟩
      have hout := ha (List.ne_nil_of_mem ((hiff k).mp hk).1)
      rcases command_cancel hm hp with ⟨t, -, rfl⟩
      exact hout

/-- An expiry clears `timeout1` only if the list is empty. -/
theorem awake_timeout (h : p.Sound) (hp : p.timeout left now = some (p', ids)) : p'.Awake := by
  intro hne
  have hhead := head_ne_none_of_pending (expired h hp).1 hne
  rcases timeout_eq hp with ⟨hout, -, t, -, rfl⟩
  dsimp only at hhead ⊢
  rw [if_neg hhead]
  exact hout

/-- A carry does not add more seconds than two `int`s. -/
theorem carry_sec_le (x y : Timeval) : (carry x y).tvSec ≤ y.tvSec + 2 ^ 32 := by
  have hborrow : (borrow x y).tvSec ≤ y.tvSec + 2 ^ 31 := by
    unfold borrow
    split
    · have := cInt_bounds ((y.tvUsec - x.tvUsec) / 1000000 + 1)
      dsimp only
      omega
    · omega
  have hrepay : (repay x (borrow x y)).tvSec ≤ (borrow x y).tvSec + 2 ^ 31 := by
    unfold repay
    split
    · have := cInt_bounds ((x.tvUsec - (borrow x y).tvUsec) / 1000000)
      dsimp only
      omega
    · omega
  unfold carry
  omega

/-- A time of enough seconds reaches all nodes of a list, whatever the carries. -/
theorem reached_all (cell : Heap) (l : List Nat) : ∃ n : Nat, ∀ d : Timeval, n ≤ d.tvSec →
    cell.reached d l = l := by
  induction l with
  | nil => exact ⟨0, fun _ _ => rfl⟩
  | cons a l ih =>
      rcases ih with ⟨n, hn⟩
      refine ⟨n + (cell a).deltaTime.tvSec.toNat + 2 ^ 33, fun d hd => ?_⟩
      have hfirst := carry_sec_le d (cell a).deltaTime
      have hsecond := carry_sec_le d (carry d (cell a).deltaTime)
      rw [Heap.reached_cons, if_neg, hn]
      · unfold timeLeft timevalSubtractInPlace timevalSubtract
        dsimp only
        omega
      · unfold timevalSubtract
        dsimp only
        rw [decide_eq_true_eq]
        omega

/-- Once the clock is set, a timeout that comes late enough takes every timer
    off the list. -/
theorem expire_all (h : p.Waiting) (hv : p.TimeoutValid) (hout : p.timeout1 ≠ none)
    (hclock : ¬ (p.list.lasttime.tvSec = 0 ∧ p.list.lasttime.tvUsec = 0)) :
    ∃ (now : ClockReading) (p' : TimerProcess),
      p.timeout none now.toTimeval = some (p', p.pending) := by
  rcases reached_all p.list.cell p.list.nodes with ⟨n, hn⟩
  -- The microseconds of the clock are those of `lasttime`, so there is nothing to carry.
  let now : ClockReading :=
    ⟨⟨p.list.lasttime.tvSec + n, p.list.lasttime.tvUsec⟩, h.clock.1, h.clock.2⟩
  have hpassed : (p.list.passed now.toTimeval).tvSec = n := by
    unfold TimerList.passed timevalSubtract
    rw [if_neg hclock, carry_of_usec ⟨by dsimp only [now]; omega, by dsimp only [now]; omega⟩]
    dsimp only [now]
    omega
  rcases exists_expired h.sound hv hout none now.toTimeval with ⟨p', hp⟩
  refine ⟨now, p', ?_⟩
  rw [hp, wake_none, hn _ (Int.le_of_eq hpassed.symm)]
  rfl

theorem nodes_of_pending_eq_nil (h : p.pending = []) : p.list.nodes = [] :=
  List.map_eq_nil_iff.mp h

/-- A timeout that takes every timer off the list leaves none. -/
theorem valid_of_emptied (h : p'.Sound) (hp : p.timeout left now = some (p', ids))
    (hempty : p'.pending = []) : p'.TimeoutValid := by
  have hhead : p'.list.head = none := by
    rw [h.head_eq, nodes_of_pending_eq_nil hempty]
    rfl
  rcases timeout_eq hp with ⟨-, -, t, -, rfl⟩
  intro a ha
  dsimp only at ha hhead
  rw [if_pos hhead] at ha
  exact absurd ha (Option.not_mem_none a)

/-- The timeout that sets the clock takes no time off the list, so it leaves a
    valid one. -/
theorem keepsValid_unset (h : p.Waiting) (hv : p.TimeoutValid)
    (hclock : p.list.lasttime.tvSec = 0 ∧ p.list.lasttime.tvUsec = 0) (now : ClockReading) :
    p.KeepsValid (.timeout none now) := by
  intro _ a ha hmem
  have hvalid := hv a ha
  rcases h.target a ha with hhead | hnot
  · rcases List.head?_eq_some_iff.mp hhead with ⟨vs, hvs⟩
    unfold expiring TimerList.passed
    rw [wake_none, if_pos hclock, hvs, Heap.reached_cons]
    -- Nothing is reached, or there was no time left for the head.
    cases hneg : (timevalSubtract p.list.lasttime (p.list.cell a).deltaTime).negative with
    | true => exact Or.inl (if_pos rfl)
    | false =>
        rcases hvalid with ⟨hsec, husec, hlt⟩
        have hfits : CarryFits p.list.lasttime (p.list.cell a).deltaTime :=
          ⟨by omega, by omega⟩
        have hnot := (timevalSubtract_negative_iff hfits).not.mp
          (by rw [hneg]; exact Bool.false_ne_true)
        refine Or.inr (Or.inr ?_)
        unfold microsLeft Timeval.value at hnot
        split at hnot <;> omega
  · exact absurd hmem hnot

/-- A command that finds an empty list leaves a valid timeout. -/
theorem command_of_empty (h : p.Waiting) (hv : p.TimeoutValid) (hempty : p.pending = [])
    (m : Message) (hm : (Timeval.ofSeconds m.interval).Valid) :
    ∃ p', p.command m none ⟨0, 0⟩ = some p' ∧ p'.TimeoutValid := by
  let now : ClockReading := ⟨⟨0, 0⟩, by decide, by decide⟩
  have hnodes := nodes_of_pending_eq_nil hempty
  cases hop : m.operation with
  | start =>
      rcases exists_started h.sound hv hnodes hop none ⟨0, 0⟩ with ⟨p', hp⟩
      refine ⟨p', hp, step_valid (e := .command m none now) h hv ?_ hp⟩
      intro _ _
      rw [hempty, if_neg List.not_mem_nil, hnodes]
      exact ⟨hm, fun a ha => absurd ha (Option.not_mem_none a)⟩
  | cancel =>
      rcases exists_cancelled h.sound hv hop none ⟨0, 0⟩ with ⟨p', hp⟩
      exact ⟨p', hp, cancel_valid h hv m hop none now hp⟩

end TimerProcess

/-- The clock that the timer process reads is normalised. -/
def ClientEvent.Clocked : ClientEvent → Prop
  | .command _ now => 0 ≤ now.tvUsec ∧ now.tvUsec < 1000000
  | .timeout _ now => 0 ≤ now.tvUsec ∧ now.tvUsec < 1000000
  | _ => True

/-- How many steps the driver is away from its `select`. -/
def Phase.rank : Phase → Nat
  | .select => 0
  | .send => 1
  | .ack => 2
  | .ftpc => 3
  | .resending _ => 4

/-- The event with which the driver goes on when nothing comes from outside. -/
def Phase.goOn : Phase → ClientEvent
  | .select => .select
  | .resending _ => .resend ⟨0, 0⟩
  | .ftpc => .noRefill
  | .ack => .noAck
  | .send => .send ⟨0, 0⟩

namespace Tracked

/-- A step that needs nothing from outside: no block, no acknowledgement and no
    change of memory. The timer process takes a turn only with a timeout that
    `select` accepts. -/
def Quiet (t : Tracked) : ClientEvent → Prop
  | .refill _ _ => False
  | .ack _ _ _ => False
  | .memory _ _ => False
  | .command _ now => t.client.timer.TimeoutValid ∧ 0 ≤ now.tvUsec ∧ now.tvUsec < 1000000
  | .timeout _ now => t.client.timer.TimeoutValid ∧ 0 ≤ now.tvUsec ∧ now.tvUsec < 1000000
  | _ => True

theorem clocked_of_quiet {t : Tracked} {e : ClientEvent} (h : t.Quiet e) : e.Clocked := by
  cases e with
  | command left now => exact h.2
  | timeout left now => exact h.2
  | _ => trivial

theorem numbersSlots_of_quiet {t : Tracked} {e : ClientEvent} (h : t.Quiet e) :
    NumbersSlots e := by
  rintro n stamp now rfl
  exact h.elim

/-- Every frame without an acknowledgement is armed, if the timer process still runs.
    It has a timeout as long as it has a timer, under an invariant of its own, and the
    intervals on their way to it are stored as they should be. -/
structure Ready (t : Tracked) : Prop where
  regular : t.Regular
  armed : t.client.timer.TimeoutValid → t.AllArmed
  awake : t.client.timer.Awake
  waiting : t.client.timer.Waiting
  stored : ∀ m ∈ t.client.commands, (Timeval.ofSeconds m.interval).Valid

variable {top : Int} {t t' : Tracked} {e : ClientEvent} {n : Int}

theorem Ready.sound (h : t.Ready) : t.client.timer.Sound := h.waiting.sound

theorem ready_init (sendbuf : Int → Block) (cell : Heap) (start : ClockReading) :
    (init sendbuf cell start.toTimeval).Ready where
  regular := regular_init sendbuf cell start.toTimeval
  armed := fun _ _ hn => absurd rfl hn
  awake := fun hne => absurd rfl hne
  waiting := TimerProcess.waiting_init cell start
  stored := fun _ hm => absurd hm List.not_mem_nil

/-- The timer process has had a valid timeout, if it has one. -/
theorem valid_of_step (hstep : t.step top e = some t') (hv : t'.client.timer.TimeoutValid) :
    t.client.timer.TimeoutValid := by
  rcases Option.map_eq_some_iff.mp hstep with ⟨⟨c', out⟩, hc, rfl⟩
  cases Client.step_cases top t.client c' e out hc with
  | commanded left now m commands p hcmd hp => exact TimerProcess.command_valid hp
  | expired left now p ids hp => exact (TimerProcess.timeout_eq hp).2.1
  | _ => exact hv

theorem canceltimer_stored : (Timeval.ofSeconds (canceltimer n).interval).Valid := by
  have hzero : (Timeval.ofSeconds 0).Valid := by decide +kernel
  exact hzero

/-- The commands that the driver writes are stored with valid microseconds. -/
theorem stored_concat {ms : List Message} (h : ∀ m ∈ ms, (Timeval.ofSeconds m.interval).Valid)
    {m : Message} (hm : (Timeval.ofSeconds m.interval).Valid) :
    ∀ m' ∈ ms ++ [m], (Timeval.ofSeconds m'.interval).Valid := by
  intro m' hm'
  rcases List.mem_append.mp hm' with hm' | hm'
  · exact h m' hm'
  · exact List.mem_singleton.mp hm' ▸ hm

theorem stored_step (h : ∀ m ∈ t.client.commands, (Timeval.ofSeconds m.interval).Valid)
    (hstep : t.step top e = some t') :
    ∀ m ∈ t'.client.commands, (Timeval.ofSeconds m.interval).Valid := by
  -- A timeout is an unsigned `int`.
  have hrto : (Timeval.ofSeconds (seconds t.client.driver.estimate.rto)).Valid := by
    refine valid_seconds ?_
    change tcpSetRto _ < 2 ^ 32
    exact u32_lt _
  rcases Option.map_eq_some_iff.mp hstep with ⟨⟨c', out⟩, hc, rfl⟩
  cases Client.step_cases top t.client c' e out hc with
  | resent id now hphase => exact stored_concat h hrto
  | sent now hphase hguard => exact stored_concat h hrto
  | acked n stamp now lar hphase hscan => exact stored_concat h canceltimer_stored
  | commanded left now m commands p hcmd hp =>
      exact fun m' hm' => h m' (hcmd ▸ List.mem_cons_of_mem _ hm')
  | _ => exact h

theorem ready_step (e : ClientEvent) (h : t.Ready) (he : NumbersSlots e) (hclock : e.Clocked)
    (hstep : t.step top e = some t') : t'.Ready := by
  have hregular := regular_step top t e t' h.regular hstep
  have hstored := stored_step h.stored hstep
  have harmed : t'.client.timer.TimeoutValid → t'.AllArmed := fun hv =>
    armed_step top t e t' h.regular (h.armed (valid_of_step hstep hv)) he (Or.inr hv) hstep
  rcases Option.map_eq_some_iff.mp hstep with ⟨⟨c', out⟩, hc, rfl⟩
  cases Client.step_cases top t.client c' e out hc with
  | commanded left now m commands p hcmd hp =>
      have hturn : t.client.timer.step (.command m left ⟨now, hclock.1, hclock.2⟩) = some p := hp
      exact ⟨hregular, harmed, TimerProcess.awake_command h.sound h.awake hp,
        TimerProcess.step_waiting h.waiting hturn, hstored⟩
  | expired left now p ids hp =>
      have hturn : t.client.timer.step (.timeout left ⟨now, hclock.1, hclock.2⟩) = some p := by
        simp only [TimerProcess.step, hp, Option.map_some]
      exact ⟨hregular, harmed, TimerProcess.awake_timeout h.sound hp,
        TimerProcess.step_waiting h.waiting hturn, hstored⟩
  | _ => exact ⟨hregular, harmed, h.awake, h.waiting, hstored⟩

/-- A step of the driver that is not `select` and needs nothing from outside
    brings it nearer to `select`. -/
theorem goes_on (top : Int) (t : Tracked) (h : t.client.driver.phase ≠ .select) :
    ∃ t', t.step top t.client.driver.phase.goOn = some t' ∧
      t'.client.driver.phase.rank < t.client.driver.phase.rank ∧
      t'.client.requests = t.client.requests ∧ t'.client.timer = t.client.timer ∧
      t'.client.driver.sendbuf = t.client.driver.sendbuf := by
  -- The step is the one that the phase allows.
  have hsome : ∃ r, t.client.step top t.client.driver.phase.goOn = some r := by
    rw [← Option.isSome_iff_exists]
    cases hphase : t.client.driver.phase with
    | select => exact absurd hphase h
    | resending id => simp only [Phase.goOn, Client.step, Client.resend, hphase, Option.map_some,
        Option.isSome_some]
    | ftpc => simp only [Phase.goOn, Client.step, hphase, if_true, Option.isSome_some]
    | ack => simp only [Phase.goOn, Client.step, hphase, if_true, Option.isSome_some]
    | send =>
        simp only [Phase.goOn, Client.step, Client.send, hphase, if_true]
        split <;> rfl
  rcases hsome with ⟨⟨c', out⟩, hc⟩
  refine ⟨⟨c', record t.live t.client.driver.phase.goOn out⟩, ?_, ?_⟩
  · unfold step
    rw [hc, Option.map_some]
  · generalize hev : t.client.driver.phase.goOn = e at hc
    cases Client.step_cases top t.client c' e out hc with
    | resent id now hphase =>
        rw [hphase]
        exact ⟨Nat.lt_succ_self _, rfl, rfl, rfl⟩
    | notRefilled hphase =>
        rw [hphase]
        exact ⟨Nat.lt_succ_self _, rfl, rfl, rfl⟩
    | notAcked hphase =>
        rw [hphase]
        exact ⟨Nat.lt_succ_self _, rfl, rfl, rfl⟩
    | sent now hphase hguard =>
        rw [hphase]
        exact ⟨Nat.lt_succ_self _, rfl, rfl, rfl⟩
    | notSent now hphase hguard =>
        rw [hphase]
        exact ⟨Nat.lt_succ_self _, rfl, rfl, rfl⟩
    | nothingAsked hphase hreq => exact absurd hphase h
    | asked id requests hphase hreq => exact absurd hphase h
    | refilled body length hphase hguard hlen =>
        rw [hphase] at hev
        cases hev
    | acked n stamp now lar hphase hscan =>
        rw [hphase] at hev
        cases hev
    | commanded left now m commands p hcmd hp =>
        cases hphase : t.client.driver.phase <;> rw [hphase] at hev <;> cases hev
    | expired left now p ids hp =>
        cases hphase : t.client.driver.phase <;> rw [hphase] at hev <;> cases hev
    | changed i b hi =>
        cases hphase : t.client.driver.phase <;> rw [hphase] at hev <;> cases hev

/-- The driver comes to its `select` without taking a request. -/
theorem to_select (top : Int) (t : Tracked) :
    ∃ t', Machine.Reaches (step top) Quiet t t' ∧ t'.client.driver.phase = .select ∧
      t'.client.requests = t.client.requests ∧ t'.client.timer = t.client.timer ∧
      t'.client.driver.sendbuf = t.client.driver.sendbuf := by
  induction hrank : t.client.driver.phase.rank using Nat.strong_induction_on generalizing t with
  | _ r ih =>
      by_cases hphase : t.client.driver.phase = .select
      · exact ⟨t, Machine.reaches_refl t, hphase, rfl, rfl, rfl⟩
      · rcases goes_on top t hphase with ⟨s, hs, hlt, hreq, htimer, hbuf⟩
        rcases ih _ (hrank ▸ hlt) s rfl with ⟨t', hreach, hsel, hreq', htimer', hbuf'⟩
        refine ⟨t', Machine.reaches_cons ?_ hs hreach, hsel, hreq'.trans hreq,
          htimer'.trans htimer, hbuf'.trans hbuf⟩
        cases t.client.driver.phase <;> trivial

/-- A request that is in the pipe comes to be answered. -/
theorem answered (top : Int) (t : Tracked) (hn : n ∈ t.client.requests) :
    ∃ t', Machine.Reaches (step top) Quiet t t' ∧ t'.client.driver.phase = .resending n ∧
      t'.client.timer = t.client.timer ∧
      t'.client.driver.sendbuf = t.client.driver.sendbuf := by
  induction hids : t.client.requests generalizing t with
  | nil =>
      rw [hids] at hn
      cases hn
  | cons id ids ih =>
      rcases to_select top t with ⟨s, hreach, hsel, hreq, htimer, hbuf⟩
      rw [hids] at hreq hn
      -- The first request is taken, and it is the one or is answered before it.
      let c : Client :=
        { s.client with driver := { s.client.driver with phase := .resending id }, requests := ids }
      have hstep : s.step top .select = some ⟨c, s.live⟩ := by
        simp only [step, Client.step, Client.select, hsel, hreq, if_true, Option.map_some]
        rfl
      have hquiet : s.Quiet .select := trivial
      have hnext := Machine.reaches_trans hreach (Machine.reaches_step hquiet hstep)
      rcases List.mem_cons.mp hn with rfl | hrest
      · exact ⟨_, hnext, rfl, htimer, hbuf⟩
      · rcases ih ⟨c, s.live⟩ hrest rfl with ⟨t', hreach', hphase, htimer', hbuf'⟩
        exact ⟨t', Machine.reaches_trans hnext hreach', hphase, htimer'.trans htimer,
          hbuf'.trans hbuf⟩

/-- Only the timer process takes turns, with valid timeouts, and its timeout is
    valid at the end. -/
structure Turns (top : Int) (t t' : Tracked) : Prop where
  reach : Machine.Reaches (step top) Quiet t t'
  ready : t'.Ready
  valid : t'.client.timer.TimeoutValid
  driver : t'.client.driver = t.client.driver
  live : t'.live = t.live

theorem Turns.refl (h : t.Ready) (hvalid : t.client.timer.TimeoutValid) : Turns top t t :=
  ⟨Machine.reaches_refl t, h, hvalid, rfl, rfl⟩

theorem Turns.trans {s : Tracked} (h : Turns top t s) (h' : Turns top s t') : Turns top t t' :=
  ⟨Machine.reaches_trans h.reach h'.reach, h'.ready, h'.valid, h'.driver.trans h.driver,
    h'.live.trans h.live⟩

/-- One timeout that leaves a valid one. -/
theorem turns_timeout (h : t.Ready) (hvalid : t.client.timer.TimeoutValid) (now : ClockReading)
    {p : TimerProcess} {ids : List Int}
    (hp : t.client.timer.timeout none now.toTimeval = some (p, ids)) (hp' : p.TimeoutValid) :
    Turns top t { t with client := { t.client with
      timer := p, requests := t.client.requests ++ ids } } := by
  have hquiet : t.Quiet (.timeout none now.toTimeval) := ⟨hvalid, now.usec_nonneg, now.usec_lt⟩
  have hstep : t.step top (.timeout none now.toTimeval) = some { t with client := { t.client with
      timer := p, requests := t.client.requests ++ ids } } := by
    simp only [step, Client.step, Client.timeout, hp, Option.map_some]
    rfl
  exact ⟨Machine.reaches_step hquiet hstep,
    ready_step _ h (numbersSlots_of_quiet hquiet) (clocked_of_quiet hquiet) hstep, hp', rfl, rfl⟩

/-- Once the clock is set, all timers can run out at once. -/
theorem emptied_of_set (top : Int) (h : t.Ready) (hvalid : t.client.timer.TimeoutValid)
    (hclock : ¬ (t.client.timer.list.lasttime.tvSec = 0 ∧
      t.client.timer.list.lasttime.tvUsec = 0)) :
    ∃ t', Turns top t t' ∧ t'.client.commands = t.client.commands ∧
      t'.client.timer.pending = [] := by
  by_cases hne : t.client.timer.pending = []
  · exact ⟨t, Turns.refl h hvalid, rfl, hne⟩
  · rcases TimerProcess.expire_all h.waiting hvalid (h.awake hne) hclock with ⟨now, p, hp⟩
    rcases TimerProcess.expired h.sound hp with ⟨hsound, hsplit, -⟩
    have hempty : p.pending = [] := List.self_eq_append_right.mp hsplit
    exact ⟨_, turns_timeout h hvalid now hp (TimerProcess.valid_of_emptied hsound hp hempty), rfl,
      hempty⟩

/-- All timers can run out. -/
theorem emptied (top : Int) (h : t.Ready) (hvalid : t.client.timer.TimeoutValid) :
    ∃ t', Turns top t t' ∧ t'.client.commands = t.client.commands ∧
      t'.client.timer.pending = [] := by
  by_cases hne : t.client.timer.pending = []
  · exact ⟨t, Turns.refl h hvalid, rfl, hne⟩
  · by_cases hclock : t.client.timer.list.lasttime.tvSec = 0 ∧
        t.client.timer.list.lasttime.tvUsec = 0
    · -- The first timeout sets the clock.
      let now : ClockReading := ⟨⟨0, 1⟩, by decide, by decide⟩
      rcases TimerProcess.exists_expired h.sound hvalid (h.awake hne) none now.toTimeval with
        ⟨p, hp⟩
      have hp' : p.TimeoutValid := by
        refine (TimerProcess.timeout_keeps_iff h.waiting hvalid none now).mpr
          (TimerProcess.keepsValid_unset h.waiting hvalid hclock now) p ?_
        simp only [TimerProcess.step, hp, Option.map_some]
      have hturn : Turns top t _ := turns_timeout h hvalid now hp hp'
      have hlast : p.list.lasttime = now.toTimeval := by
        rcases TimerProcess.timeout_eq hp with ⟨-, -, u, hu, rfl⟩
        rcases TimerList.updateTimeList_reached (TimerProcess.wake_spec h.sound none).1
          now.toTimeval with ⟨u', vs, hu', -, helapsed⟩
        rw [hu, Option.some.injEq, Prod.mk.injEq] at hu'
        exact hu'.1 ▸ helapsed.lasttime
      rcases emptied_of_set top hturn.ready hturn.valid (by
        dsimp only
        rw [hlast]
        exact fun hzero => absurd hzero.2 one_ne_zero) with ⟨t', hturns, hcmd, hempty⟩
      exact ⟨t', hturn.trans hturns, hcmd, hempty⟩
    · exact emptied_of_set top h hvalid hclock

/-- All timers can run out and all commands be read. -/
theorem drained (top : Int) (h : t.Ready) (hvalid : t.client.timer.TimeoutValid) :
    ∃ t', Turns top t t' ∧ t'.client.commands = [] ∧ t'.client.timer.pending = [] := by
  induction hms : t.client.commands generalizing t with
  | nil =>
      rcases emptied top h hvalid with ⟨t', hturns, hcmd, hempty⟩
      exact ⟨t', hturns, hcmd.trans hms, hempty⟩
  | cons m ms ih =>
      rcases emptied top h hvalid with ⟨s, hturns, hcmd, hempty⟩
      rw [hms] at hcmd
      -- The command finds an empty list.
      rcases TimerProcess.command_of_empty hturns.ready.waiting hturns.valid hempty m
        (hturns.ready.stored m (hcmd ▸ List.mem_cons_self)) with ⟨p, hp, hp'⟩
      have hquiet : s.Quiet (.command none ⟨0, 0⟩) := ⟨hturns.valid, by decide, by decide⟩
      have hstep : s.step top (.command none ⟨0, 0⟩)
          = some { s with client := { s.client with timer := p, commands := ms } } := by
        simp only [step, Client.step, Client.command, hcmd, hp, Option.map_some]
        rfl
      have hready := ready_step _ hturns.ready (numbersSlots_of_quiet hquiet)
        (clocked_of_quiet hquiet) hstep
      rcases ih hready hp' rfl with ⟨t', hturns', hcmd', hempty'⟩
      exact ⟨t', hturns.trans (Turns.trans ⟨Machine.reaches_step hquiet hstep, hready, hp', rfl,
        rfl⟩ hturns'), hcmd', hempty'⟩

/-- An armed frame comes to be answered if `select` accepts the timeout. -/
theorem answered_of_armed (top : Int) (h : t.Ready) (hvalid : t.client.timer.TimeoutValid)
    (hn : t.live n ≠ none) :
    ∃ t', Machine.Reaches (step top) Quiet t t' ∧ t'.client.driver.phase = .resending n ∧
      t'.client.timer.TimeoutValid ∧ t'.client.driver.sendbuf = t.client.driver.sendbuf := by
  rcases drained top h hvalid with ⟨s, hturns, hcmd, hempty⟩
  -- With no command and no timer left, the frame is in the pipe or being answered.
  rcases hturns.ready.armed hturns.valid n (hturns.live ▸ hn) with
    hstart | ⟨-, hpend⟩ | hreq | hphase
  · rw [hcmd] at hstart
    cases hstart
  · rw [hempty] at hpend
    cases hpend
  · rcases answered top s hreq with ⟨t', hreach, hphase, htimer, hbuf⟩
    exact ⟨t', Machine.reaches_trans hturns.reach hreach, hphase, htimer ▸ hturns.valid,
      hbuf.trans (hturns.driver ▸ rfl)⟩
  · exact ⟨s, hturns.reach, hphase, hturns.valid, hturns.driver ▸ rfl⟩

/-- `select` refuses the timeout, and no request for frame number `n` is in the
    pipe or being answered. -/
structure Refused (t : Tracked) (n : Int) : Prop where
  invalid : ¬ t.client.timer.TimeoutValid
  not_asked : n ∉ t.client.requests
  not_answered : t.client.driver.phase ≠ .resending n

/-- Then nothing will bring a request. -/
theorem refused_step (e : ClientEvent) (h : t.Refused n) (hquiet : t.Quiet e)
    (hstep : t.step top e = some t') : t'.Refused n := by
  rcases Option.map_eq_some_iff.mp hstep with ⟨⟨c', out⟩, hc, rfl⟩
  rcases h with ⟨hinvalid, hasked, hanswered⟩
  cases Client.step_cases top t.client c' e out hc with
  | asked id requests hphase hreq =>
      rw [hreq, List.mem_cons, not_or] at hasked
      exact ⟨hinvalid, hasked.2, fun heq => hasked.1 (Phase.resending.inj heq).symm⟩
  | commanded left now m commands p hcmd hp => exact absurd hquiet.1 hinvalid
  | expired left now p ids hp => exact absurd hquiet.1 hinvalid
  | nothingAsked hphase hreq => exact ⟨hinvalid, hasked, fun heq => Phase.noConfusion heq⟩
  | resent id now hphase => exact ⟨hinvalid, hasked, fun heq => Phase.noConfusion heq⟩
  | refilled body length hphase hguard hlen => exact hquiet.elim
  | notRefilled hphase => exact ⟨hinvalid, hasked, fun heq => Phase.noConfusion heq⟩
  | acked k stamp now lar hphase hscan => exact hquiet.elim
  | notAcked hphase => exact ⟨hinvalid, hasked, fun heq => Phase.noConfusion heq⟩
  | sent now hphase hguard => exact ⟨hinvalid, hasked, fun heq => Phase.noConfusion heq⟩
  | notSent now hphase hguard => exact ⟨hinvalid, hasked, fun heq => Phase.noConfusion heq⟩
  | changed i b hi => exact hquiet.elim

/-- A request is answered with a frame of its own number. -/
theorem phase_of_resent {c : Client} {d : Driver} {now : Timeval}
    (h : (c.step top (.resend now)).map Prod.snd = some (some (d.packet n now))) :
    c.driver.phase = .resending n := by
  cases hphase : c.driver.phase with
  | resending id =>
      simp only [Client.step, Client.resend, hphase, Option.map_some, Option.some.injEq] at h
      exact congrArg Phase.resending (congrArg Packet.seq h)
  | _ => simp only [Client.step, Client.resend, hphase, Option.map_none, reduceCtorEq] at h

end Tracked

/-- From every state that the client can come to, a frame that has been sent and
    not been acknowledged since can be sent again, out of its slot as it is then and
    without anything from outside, if and only if `select` accepts the timeout of
    the timer process, or a request for the frame is left. -/
theorem resend_reachable (top : Int) (sendbuf : Int → Block) (cell : Heap) (start : ClockReading)
    (es : List ClientEvent) (t : Tracked)
    (hrun : Machine.run (Tracked.step top) (Tracked.init sendbuf cell start.toTimeval) es = some t)
    (hes : ∀ e ∈ es, Tracked.NumbersSlots e ∧ e.Clocked) (n : Int) (hn : t.live n ≠ none) :
    (∃ t', Machine.Reaches (Tracked.step top) Tracked.Quiet t t' ∧
      ∀ now, (t'.client.step top (.resend now)).map Prod.snd
        = some (some (t.client.driver.packet n now))) ↔
      t.client.timer.TimeoutValid ∨ n ∈ t.client.requests ∨
        t.client.driver.phase = .resending n := by
  have hready : t.Ready :=
    Machine.run_induction (fun s e s' h he hs => Tracked.ready_step e h he.1 he.2 hs) es _ t
      (Tracked.ready_init sendbuf cell start) (Machine.meets_of_forall_mem es _ hes) hrun
  constructor
  · rintro ⟨t', ⟨es', hquiet, hrun'⟩, hout⟩
    by_contra hno
    rw [not_or, not_or] at hno
    have hrefused : t'.Refused n :=
      Machine.run_induction (fun s e s' h he hs => Tracked.refused_step e h he hs) es' t t'
        ⟨hno.1, hno.2.1, hno.2.2⟩ hquiet hrun'
    exact hrefused.not_answered (Tracked.phase_of_resent (hout ⟨0, 0⟩))
  · intro hleft
    have hphase : ∃ t', Machine.Reaches (Tracked.step top) Tracked.Quiet t t' ∧
        t'.client.driver.phase = .resending n ∧
        t'.client.driver.sendbuf = t.client.driver.sendbuf := by
      rcases hleft with hvalid | hreq | hphase
      · rcases Tracked.answered_of_armed top hready hvalid hn with ⟨t', hreach, hphase, -, hbuf⟩
        exact ⟨t', hreach, hphase, hbuf⟩
      · rcases Tracked.answered top t hreq with ⟨t', hreach, hphase, -, hbuf⟩
        exact ⟨t', hreach, hphase, hbuf⟩
      · exact ⟨t, Machine.reaches_refl t, hphase, rfl⟩
    rcases hphase with ⟨t', hreach, hphase, hbuf⟩
    refine ⟨t', hreach, fun now => ?_⟩
    simp only [Client.step, Client.resend, hphase, Option.map_some, Driver.packet]
    rw [← hbuf]
    rfl

/-- Frame 0, after the first block has been sent. -/
theorem resend_reachable_first :
    ∃ t t', Machine.run (Tracked.step 64) Tracked.fresh firstSend = some t ∧
      Machine.Reaches (Tracked.step 64) Tracked.Quiet t t' ∧
      ∀ now, (t'.client.step 64 (.resend now)).map Prod.snd
        = some (some (t.client.driver.packet 0 now)) := by
  have hlive : (Machine.run (Tracked.step 64) Tracked.fresh firstSend).map
      (fun t => decide (t.live 0 ≠ none ∧ t.client.timer.timeout1 = none)) = some true := by
    decide +kernel
  rcases Option.map_eq_some_iff.mp hlive with ⟨t, hrun, hval⟩
  have ht := of_decide_eq_true hval
  have hiff := resend_reachable 64 _ _ ⟨⟨0, 0⟩, by decide, by decide⟩ firstSend t hrun
    (by
      intro e he
      simp only [firstSend, List.mem_cons, List.not_mem_nil, or_false] at he
      rcases he with rfl | rfl | rfl | rfl <;>
        exact ⟨fun _ _ _ heq => ClientEvent.noConfusion heq, trivial⟩) 0 ht.1
  have hvalid : t.client.timer.TimeoutValid := fun a ha => by
    rw [ht.2] at ha
    exact absurd ha (Option.not_mem_none a)
  rcases hiff.mpr (Or.inl hvalid) with ⟨t', hreach, hout⟩
  exact ⟨t, t', hrun, hreach, hout⟩

end Cse5462
