import Cse5462.Lib.Machine
import Cse5462.Lib.Word
import Cse5462.Tcpd.Cursors
import Cse5462.Tcpd.Estimator
import Cse5462.Tcpd.LarScan
import Cse5462.Tcpd.Server
import Cse5462.Tcpd.TimerProcess

/-!
# The Client

The two processes of `client` and the pipes between them. The driver goes round
its loop one step at a time: it looks for a resend request and answers it, reads
a block from ftpc, reads an acknowledgement, and sends the next frame. Between
any two of these steps the timer process may take a turn. The pipes are queues
that lose nothing.

What the sockets deliver is part of the event: a block and its length, the
number and the time stamp of an acknowledgement that passed the checksum, and
the clock. When nothing is there, or an acknowledgement is garbled, the driver
goes on to its next step.

The send buffer is on the stack. Indices outside of it are read as further
slots, up to `top`, where memory can no longer be read, and what is in them
changes as it likes (`ClientEvent.memory`). A step is `none` where it is not the
turn of the event or where the program dies.

## Main definitions

* `bzeroAt`: The clearing of a slot, from any byte on.
* `Driver`, `Phase`: The variables of the driver and the place in its loop.
* `Client`: Both processes and both pipes.
* `ClientEvent`: A step of either process.
* `Client.step`: The client after an event, with the packet it sends.
* `Client.next`: The client after an event.
* `Client.Asks`: What the driver may be asked to send again.

## Theorems

* `step_cases`, `Took.step_eq`: What a step can do, one case per event.
* `asks_step`: What the driver is asked for it has sent.
-/

namespace Cse5462

/-- `bzero` of the size of a block, from a byte of a buffer on. It clears a slot, or
    the end of one slot and the start of the next. -/
def bzeroAt (buf : Int → Block) (offset : Int) : Int → Block := fun i =>
  let kept := (offset % buffSize).toNat
  if i = offset / buffSize then Block.zero.copy (buf i) kept
  else if i = offset / buffSize + 1 then (buf i).copy Block.zero kept
  else buf i

/-- From the first byte of a slot on, it clears that slot. -/
theorem bzeroAt_slot (buf : Int → Block) (n : Int) :
    bzeroAt buf (buffSize * n) = Function.update buf n Block.zero := by
  have hsize : (buffSize : Int) ≠ 0 := by decide
  ext i : 1
  unfold bzeroAt
  dsimp only
  rw [Int.mul_ediv_cancel_left n hsize, Int.mul_emod_right, Int.toNat_zero, Block.copy_none,
    Block.copy_none, ite_self]
  by_cases hi : i = n
  · rw [if_pos hi, hi, Function.update_self]
  · rw [if_neg hi, Function.update_of_ne hi]

/-- The place in the loop of the driver. -/
inductive Phase where
  | select
  | resending (id : Int)
  | ftpc
  | ack
  | send
  deriving DecidableEq, Repr

/-- The variables of the driver that live from one step to the next. -/
structure Driver where
  cursors : Cursors
  sendbuf : Int → Block
  tp : TcpSock
  rtt : Nat
  rto : Nat
  phase : Phase

namespace Driver

/-- The driver when it enters its loop. The buffer is not initialised. -/
def init (sendbuf : Int → Block) : Driver :=
  { cursors := Cursors.init, sendbuf := sendbuf, tp := TcpSock.init, rtt := 0, rto := tcpRtoMin,
    phase := .select }

/-- The timeout is computed anew before every packet. -/
def estimate (d : Driver) : Driver :=
  let tp := tcpRttEstimator d.tp d.rtt
  { d with tp := tp, rto := tcpSetRto tp }

/-- The packet with sequence number `seq`, out of its slot. -/
def packet (d : Driver) (seq : Int) (now : Timeval) : Packet :=
  { seq := seq, timeStamp := now, body := d.sendbuf seq }

/-- A datagram from ftpc is received into the slot `bufpos`. -/
def refill (d : Driver) (body : Block) (length : Nat) : Driver :=
  { d with
    cursors := d.cursors.refill
    sendbuf := Function.update d.sendbuf d.cursors.bufpos
      ((d.sendbuf d.cursors.bufpos).copy body length)
    phase := .ack }

/-- The send buffer after the slot of an acknowledged frame has been cleared. The
    offset `BUFFSIZE*ack` is an `int`. -/
def clear (d : Driver) (ack : Int) : Int → Block := bzeroAt d.sendbuf (cInt (buffSize * ack))

/-- The byte offset of the slot is an `int`. -/
def OffsetFits (ack : Int) : Prop := -2147483 ≤ ack ∧ ack ≤ 2147483

instance (ack : Int) : Decidable (OffsetFits ack) := by
  unfold OffsetFits
  exact inferInstance

/-- A number whose offset fits clears its slot. -/
theorem clear_eq (d : Driver) {ack : Int} (hack : OffsetFits ack) :
    d.clear ack = Function.update d.sendbuf ack Block.zero := by
  have hfits : cInt (buffSize * ack) = buffSize * ack := by
    rcases hack with ⟨hlo, hhi⟩
    rw [cInt_eq_self_iff, show (buffSize : Int) = 1000 from rfl]
    omega
  rw [clear, hfits, bzeroAt_slot]

theorem offsetFits_slot {n : Int} (h0 : 0 ≤ n) (h64 : n < 64) : OffsetFits n :=
  ⟨by omega, by omega⟩

/-- The acknowledgement of a frame clears the slot of the frame. -/
theorem clear_seqOf (d : Driver) (n : Nat) :
    d.clear (seqOf n) = Function.update d.sendbuf (seqOf n) Block.zero :=
  d.clear_eq (offsetFits_slot (seqOf_mem n).1 (seqOf_mem n).2)

/-- An acknowledgement that passed the checksum: the slot is cleared and `lar`
    is looked for. -/
def acknowledge (d : Driver) (top ack : Int) (stamp now : Timeval) : Option Driver :=
  (larScan top (d.clear ack) d.cursors.lar d.cursors.lfs).map fun lar =>
    { d with
      cursors := { d.cursors with lar := lar }
      sendbuf := d.clear ack
      rtt := calculateRtt now stamp
      phase := .send }

end Driver

/-- The driver, the timer process, and the two pipes between them. -/
structure Client where
  driver : Driver
  timer : TimerProcess
  commands : List Message
  requests : List Int

/-- A step of the driver or of the timer process. -/
inductive ClientEvent where
  | select
  | resend (now : Timeval)
  | refill (body : Block) (length : Nat)
  | noRefill
  | ack (n : Int) (stamp now : Timeval)
  | noAck
  | send (now : Timeval)
  | command (left : Option Nat) (now : Timeval)
  | timeout (left : Option Nat) (now : Timeval)
  | memory (i : Int) (b : Block)

namespace Client

/-- The client after `fork`. -/
def init (sendbuf : Int → Block) (cell : Heap) (now : Timeval) : Client :=
  { driver := Driver.init sendbuf, timer := TimerProcess.init cell now, commands := [],
    requests := [] }

/-- `select`, and the request that it finds in the pipe from the timer. -/
def select (c : Client) : Option Client :=
  if c.driver.phase = .select then
    match c.requests with
    -- Nothing is in the pipe.
    | [] => some { c with driver := { c.driver with phase := .ftpc } }
    | id :: requests =>
        some { c with driver := { c.driver with phase := .resending id }, requests := requests }
  else none

/-- The packet that has been asked for is sent again, and its timer started. -/
def resend (c : Client) (now : Timeval) : Option (Client × Packet) :=
  match c.driver.phase with
  | .resending id =>
      -- The slot is sent as it is, whatever is in it now.
      let d := c.driver.estimate
      some ({ c with
        driver := { d with phase := .ftpc }
        commands := c.commands ++ [starttimer (seconds d.rto) id] }, d.packet id now)
  | _ => none

/-- A datagram of `length` bytes from ftpc is read, if the guard allows it. -/
def refill (c : Client) (body : Block) (length : Nat) : Option Client :=
  if c.driver.phase = .ftpc ∧ c.driver.cursors.refillGuard ∧ length ≤ buffSize then
    some { c with driver := c.driver.refill body length }
  else none

/-- An acknowledgement that passed the checksum is read. Its timer is cancelled
    before anything else is done. -/
def acknowledge (c : Client) (top n : Int) (stamp now : Timeval) : Option Client :=
  if c.driver.phase = .ack then
    -- The number is not looked at before its timer is cancelled.
    (c.driver.acknowledge top n stamp now).map fun d =>
      { c with driver := d, commands := c.commands ++ [canceltimer n] }
  else none

/-- The send step: the next frame goes out, if the guard holds. -/
def send (c : Client) (now : Timeval) : Option (Client × Option Packet) :=
  if c.driver.phase = .send then
    if c.driver.cursors.sendGuard then
      -- The next frame, with the timeout computed anew.
      let d := c.driver.estimate
      let seq := d.cursors.lfs + 1
      some ({ c with
        driver := { d with cursors := d.cursors.sent, phase := .select }
        commands := c.commands ++ [starttimer (seconds d.rto) seq] }, some (d.packet seq now))
    else some ({ c with driver := { c.driver with phase := .select } }, none)
  else none

/-- The timer process reads a command. -/
def command (c : Client) (left : Option Nat) (now : Timeval) : Option Client :=
  match c.commands with
  -- There is nothing to read.
  | [] => none
  | m :: commands =>
      (c.timer.command m left now).map fun p => { c with timer := p, commands := commands }

/-- The timer process writes resend requests. -/
def timeout (c : Client) (left : Option Nat) (now : Timeval) : Option Client :=
  (c.timer.timeout left now).map fun r =>
    { c with timer := r.1, requests := c.requests ++ r.2 }

/-- A step of the client, with the packet that it sends. -/
def step (top : Int) (c : Client) : ClientEvent → Option (Client × Option Packet)
  | .select => c.select.map fun c => (c, none)
  | .resend now => (c.resend now).map fun r => (r.1, some r.2)
  | .refill body length => (c.refill body length).map fun c => (c, none)
  | .noRefill =>
      if c.driver.phase = .ftpc then
        some ({ c with driver := { c.driver with phase := .ack } }, none)
      else none
  | .ack n stamp now => (c.acknowledge top n stamp now).map fun c => (c, none)
  | .noAck =>
      if c.driver.phase = .ack then
        some ({ c with driver := { c.driver with phase := .send } }, none)
      else none
  | .send now => c.send now
  | .command left now => (c.command left now).map fun c => (c, none)
  | .timeout left now => (c.timeout left now).map fun c => (c, none)
  | .memory i b =>
      if 0 ≤ i ∧ i < sendRecvBufSize then none
      else some ({ c with driver := { c.driver with
        sendbuf := Function.update c.driver.sendbuf i b } }, none)

/-- The client after a step. -/
def next (top : Int) (c : Client) (e : ClientEvent) : Option Client :=
  (c.step top e).map Prod.fst

/-- What a step can do, one case per outcome. -/
inductive Took (top : Int) (c : Client) : ClientEvent → Client → Option Packet → Prop where
  | nothingAsked (hphase : c.driver.phase = .select) (hreq : c.requests = []) :
      Took top c .select { c with driver := { c.driver with phase := .ftpc } } none
  | asked (id : Int) (requests : List Int) (hphase : c.driver.phase = .select)
      (hreq : c.requests = id :: requests) :
      Took top c .select
        { c with driver := { c.driver with phase := .resending id }, requests := requests } none
  | resent (id : Int) (now : Timeval) (hphase : c.driver.phase = .resending id) :
      Took top c (.resend now)
        { c with
          driver := { c.driver.estimate with phase := .ftpc }
          commands := c.commands ++ [starttimer (seconds c.driver.estimate.rto) id] }
        (some (c.driver.packet id now))
  | refilled (body : Block) (length : Nat) (hphase : c.driver.phase = .ftpc)
      (hguard : c.driver.cursors.refillGuard) (hlen : length ≤ buffSize) :
      Took top c (.refill body length) { c with driver := c.driver.refill body length } none
  | notRefilled (hphase : c.driver.phase = .ftpc) :
      Took top c .noRefill { c with driver := { c.driver with phase := .ack } } none
  | acked (n : Int) (stamp now : Timeval) (lar : Int) (hphase : c.driver.phase = .ack)
      (hscan : larScan top (c.driver.clear n) c.driver.cursors.lar c.driver.cursors.lfs
        = some lar) :
      Took top c (.ack n stamp now)
        { c with
          driver := { c.driver with
            cursors := { c.driver.cursors with lar := lar }
            sendbuf := c.driver.clear n
            rtt := calculateRtt now stamp
            phase := .send }
          commands := c.commands ++ [canceltimer n] } none
  | notAcked (hphase : c.driver.phase = .ack) :
      Took top c .noAck { c with driver := { c.driver with phase := .send } } none
  | sent (now : Timeval) (hphase : c.driver.phase = .send)
      (hguard : c.driver.cursors.sendGuard) :
      Took top c (.send now)
        { c with
          driver := { c.driver.estimate with
            cursors := c.driver.cursors.sent
            phase := .select }
          commands := c.commands ++
            [starttimer (seconds c.driver.estimate.rto) (c.driver.cursors.lfs + 1)] }
        (some (c.driver.packet (c.driver.cursors.lfs + 1) now))
  | notSent (now : Timeval) (hphase : c.driver.phase = .send)
      (hguard : ¬ c.driver.cursors.sendGuard) :
      Took top c (.send now) { c with driver := { c.driver with phase := .select } } none
  | commanded (left : Option Nat) (now : Timeval) (m : Message) (commands : List Message)
      (p : TimerProcess) (hcmd : c.commands = m :: commands)
      (htimer : c.timer.command m left now = some p) :
      Took top c (.command left now) { c with timer := p, commands := commands } none
  | expired (left : Option Nat) (now : Timeval) (p : TimerProcess) (ids : List Int)
      (htimer : c.timer.timeout left now = some (p, ids)) :
      Took top c (.timeout left now) { c with timer := p, requests := c.requests ++ ids } none
  | changed (i : Int) (b : Block) (hout : ¬ (0 ≤ i ∧ i < sendRecvBufSize)) :
      Took top c (.memory i b)
        { c with driver := { c.driver with
          sendbuf := Function.update c.driver.sendbuf i b } } none

theorem step_cases (top : Int) (c c' : Client) (e : ClientEvent) (out : Option Packet)
    (h : c.step top e = some (c', out)) : Took top c e c' out := by
  cases e with
  | select =>
      simp only [step, select] at h
      split at h
      · rename_i hphase
        split at h
        · rename_i hreq
          cases h
          exact .nothingAsked hphase hreq
        · rename_i id requests hreq
          cases h
          exact .asked id requests hphase hreq
      · cases h
  | resend now =>
      simp only [step, resend] at h
      split at h
      · rename_i id hphase
        cases h
        exact .resent id now hphase
      · cases h
  | refill body length =>
      simp only [step, refill] at h
      split at h
      · rename_i hok
        cases h
        exact .refilled body length hok.1 hok.2.1 hok.2.2
      · cases h
  | noRefill =>
      simp only [step] at h
      split at h
      · rename_i hphase
        cases h
        exact .notRefilled hphase
      · cases h
  | ack n stamp now =>
      simp only [step, acknowledge, Driver.acknowledge] at h
      split at h
      · rename_i hphase
        cases hscan : larScan top (c.driver.clear n) c.driver.cursors.lar c.driver.cursors.lfs with
        | none =>
            rw [hscan] at h
            cases h
        | some lar =>
            rw [hscan] at h
            cases h
            exact .acked n stamp now lar hphase hscan
      · cases h
  | noAck =>
      simp only [step] at h
      split at h
      · rename_i hphase
        cases h
        exact .notAcked hphase
      · cases h
  | send now =>
      simp only [step, send] at h
      split at h
      · rename_i hphase
        split at h
        · rename_i hguard
          cases h
          exact .sent now hphase hguard
        · rename_i hguard
          cases h
          exact .notSent now hphase hguard
      · cases h
  | command left now =>
      simp only [step, command] at h
      split at h
      · cases h
      · rename_i m commands hcmd
        cases htimer : c.timer.command m left now with
        | none =>
            rw [htimer] at h
            cases h
        | some p =>
            rw [htimer] at h
            cases h
            exact .commanded left now m commands p hcmd htimer
  | timeout left now =>
      simp only [step, timeout] at h
      cases htimer : c.timer.timeout left now with
      | none =>
          rw [htimer] at h
          cases h
      | some r =>
          rw [htimer] at h
          cases h
          exact .expired left now r.1 r.2 htimer
  | memory i b =>
      simp only [step] at h
      split at h
      · cases h
      · rename_i hout
        cases h
        exact .changed i b hout

/-- What a step can do, it does. -/
theorem Took.step_eq {top : Int} {c c' : Client} {e : ClientEvent} {out : Option Packet}
    (h : Took top c e c' out) : c.step top e = some (c', out) := by
  cases h with
  | nothingAsked hphase hreq =>
      simp only [step, select, if_pos hphase, hreq, Option.map_some]
  | asked id requests hphase hreq =>
      simp only [step, select, if_pos hphase, hreq, Option.map_some]
  | resent id now hphase =>
      simp only [step, resend, hphase, Option.map_some]
      rfl
  | refilled body length hphase hguard hlen =>
      simp only [step, refill]
      rw [if_pos ⟨hphase, hguard, hlen⟩, Option.map_some]
  | notRefilled hphase => simp only [step, if_pos hphase]
  | acked n stamp now lar hphase hscan =>
      simp only [step, acknowledge, Driver.acknowledge, if_pos hphase, hscan, Option.map_some]
  | notAcked hphase => simp only [step, if_pos hphase]
  | sent now hphase hguard =>
      simp only [step, send, if_pos hphase, if_pos hguard]
      rfl
  | notSent now hphase hguard => simp only [step, send, if_pos hphase, if_neg hguard]
  | commanded left now m commands p hcmd htimer =>
      simp only [step, command, hcmd, htimer, Option.map_some]
  | expired left now p ids htimer => simp only [step, timeout, htimer, Option.map_some]
  | changed i b hout => simp only [step, if_neg hout]

/-- The timer list is linked, and every number that the driver is asked to
    send again, or may be asked later on, is in `G`. -/
structure Asks (G : Int → Prop) (c : Client) : Prop where
  timer : c.timer.Sound
  started : ∀ m ∈ c.commands, m.operation = .start → G m.id
  pending : ∀ n ∈ c.timer.pending, G n
  asked : ∀ n ∈ c.requests, G n
  answered : ∀ n, c.driver.phase = .resending n → G n

theorem asks_init (G : Int → Prop) (sendbuf : Int → Block) (cell : Heap) (now : Timeval) :
    Asks G (init sendbuf cell now) where
  timer := TimerProcess.sound_init cell now
  started := fun _ hm => absurd hm List.not_mem_nil
  pending := fun _ hn => absurd hn List.not_mem_nil
  asked := fun _ hn => absurd hn List.not_mem_nil
  answered := fun _ h => Phase.noConfusion h

variable {G : Int → Prop} {c c' : Client}

theorem Asks.mono {G' : Int → Prop} (h : Asks G c) (hsub : ∀ n, G n → G' n) : Asks G' c where
  timer := h.timer
  started := fun m hm hop => hsub _ (h.started m hm hop)
  pending := fun n hn => hsub n (h.pending n hn)
  asked := fun n hn => hsub n (h.asked n hn)
  answered := fun n hn => hsub n (h.answered n hn)

/-- A start is written only for a packet that is sent. -/
theorem started_concat {ms : List Message} (h : ∀ m ∈ ms, m.operation = .start → G m.id)
    (m' : Message) (h' : m'.operation = .start → G m'.id) :
    ∀ m ∈ ms ++ [m'], m.operation = .start → G m.id := by
  intro m hm hop
  rcases List.mem_append.mp hm with hm | hm
  · exact h m hm hop
  · rw [List.mem_singleton.mp hm] at hop ⊢
    exact h' hop

/-- What the driver is asked for are the numbers of packets that it has sent. -/
theorem asks_step (top : Int) (e : ClientEvent) (out : Option Packet) (h : Asks G c)
    (hstep : c.step top e = some (c', out)) (hout : ∀ p, out = some p → G p.seq) :
    Asks G c' := by
  rcases h with ⟨htimer, hstart, hpend, hreq, hans⟩
  cases step_cases top c c' e out hstep with
  | nothingAsked hphase hnil => exact ⟨htimer, hstart, hpend, hreq, fun n hn => by cases hn⟩
  | asked id requests hphase hcons =>
      -- The request that is read was in the pipe.
      rw [hcons] at hreq
      refine ⟨htimer, hstart, hpend, fun n hn => hreq n (List.mem_cons_of_mem _ hn), ?_⟩
      intro n hn
      cases hn
      exact hreq id List.mem_cons_self
  | resent id now hphase =>
      refine ⟨htimer, started_concat hstart _ fun _ => hans id hphase, hpend, hreq, ?_⟩
      exact fun n hn => by cases hn
  | refilled body length hphase hguard hlen =>
      exact ⟨htimer, hstart, hpend, hreq, fun n hn => by cases hn⟩
  | notRefilled hphase => exact ⟨htimer, hstart, hpend, hreq, fun n hn => by cases hn⟩
  | acked n stamp now lar hphase hscan =>
      refine ⟨htimer, started_concat hstart _ fun hop => ?_, hpend, hreq, fun n hn => by cases hn⟩
      cases hop
  | notAcked hphase => exact ⟨htimer, hstart, hpend, hreq, fun n hn => by cases hn⟩
  | sent now hphase hguard =>
      refine ⟨htimer, started_concat hstart _ fun _ => ?_, hpend, hreq, fun n hn => by cases hn⟩
      exact hout _ rfl
  | notSent now hphase hguard => exact ⟨htimer, hstart, hpend, hreq, fun n hn => by cases hn⟩
  | commanded left now m commands p hcmd hp =>
      rw [hcmd] at hstart
      -- The commands behind the one that is read.
      have hrest : ∀ m ∈ commands, m.operation = .start → G m.id := fun m' hm' =>
        hstart m' (List.mem_cons_of_mem _ hm')
      cases hm : m.operation with
      | start =>
          have hstarted := TimerProcess.started htimer hm hp
          refine ⟨hstarted.sound, hrest, fun n hn => ?_, hreq, hans⟩
          rcases hstarted.only n hn with hn | rfl
          · exact hpend n hn
          · exact hstart m List.mem_cons_self hm
      | cancel =>
          rcases TimerProcess.cancelled htimer hm hp with ⟨hsound, hiff⟩
          exact ⟨hsound, hrest, fun n hn => hpend n ((hiff n).mp hn).1, hreq, hans⟩
  | expired left now p ids hp =>
      rcases TimerProcess.expired htimer hp with ⟨hsound, heq, _⟩
      -- What has expired was in the list.
      rw [heq] at hpend
      refine ⟨hsound, hstart, fun n hn => hpend n (List.mem_append_right _ hn), ?_, hans⟩
      intro n hn
      rcases List.mem_append.mp hn with hn | hn
      · exact hreq n hn
      · exact hpend n (List.mem_append_left _ hn)
  | changed i b hi => exact ⟨htimer, hstart, hpend, hreq, hans⟩

end Client

/-- The client as it starts, with a clear send buffer. -/
def Client.fresh : Client :=
  Client.init (fun _ => Block.zero) (fun _ => ⟨0, ⟨0, 0⟩, none, none⟩) ⟨0, 0⟩

end Cse5462
