import Cse5462.Tcpd.EndToEnd
import Cse5462.Tcpd.EstimatorBounds

/-!
# Round Trips in the Whole Transfer

What the driver measures, and what timeouts come of it, when both ends and the
network run together.

The client stamps every packet, the server copies the stamp into the
acknowledgement, and the driver subtracts it from the clock. Nothing is looked
up by number, so the measured time is that of the copy that has been
acknowledged, also if the frame was sent several times. The network may lose,
duplicate and reorder, and the transfer may go wrong in any of the ways it can;
an acknowledgement is that of a packet that was sent all the same.

If no acknowledgement comes later than `N` microseconds after its packet was
sent, no sample is greater than `N`, and every timer that is started is for at
least 2 ms and at most `N + max (4 * N) 2000` microseconds.

## Main definitions

* `System.Prompt`: The acknowledgement comes within `N` microseconds.
* `System.Answering`: Every acknowledgement is that of a packet.
* `Client.Timed`: What has been measured and started so far.

## Theorems

* `calculateRtt_eq`: The measured time is the elapsed time.
* `timed_step`: A prompt step keeps the bounds.
* `round_trips_bounded`: The bounds hold in every state.
-/

namespace Cse5462

/-- The measured time is the difference of the clock readings, cut to 32 bits. -/
theorem calculateRtt_eq (x y : Timeval) :
    calculateRtt x y = ((x.value - y.value) % 2 ^ 32).toNat := by
  unfold calculateRtt Timeval.value
  dsimp only
  congr 2
  split <;> omega

/-- The timeout when no sample is above `N`. -/
def longest (N : Nat) : Nat := N + max (4 * N) tcpRtoMin

/-- No sample so far is above `N`, and every timer that has been asked for is
    for a time between 2 ms and the longest timeout. -/
structure Client.Timed (N : Nat) (c : Client) : Prop where
  tp : c.driver.tp = TcpSock.init ∨ Bounded N c.driver.tp
  rtt_le : c.driver.rtt ≤ N
  rto : tcpRtoMin ≤ c.driver.rto ∧ c.driver.rto ≤ longest N
  started : ∀ m ∈ c.commands, m.operation = .start →
    ∃ rto, m.interval = seconds rto ∧ tcpRtoMin ≤ rto ∧ rto ≤ longest N

namespace Client

variable {N : Nat} {c c' : Client} {top : Int}

theorem timed_init (N : Nat) (sendbuf : Int → Block) (cell : Heap) (start : Timeval) :
    Timed N (init sendbuf cell start) where
  tp := Or.inl rfl
  rtt_le := Nat.zero_le N
  rto := ⟨Nat.le_refl _, Nat.le_trans (Nat.le_max_right (4 * N) _) (Nat.le_add_left _ N)⟩
  started := fun _ hm => absurd hm List.not_mem_nil

/-- The timeout that is computed before a packet is sent. -/
theorem Timed.estimate (h : Timed N c) (hN1 : 1 ≤ N) (hN : 8 * N < 2 ^ 32) :
    Bounded N c.driver.estimate.tp ∧ tcpRtoMin ≤ c.driver.estimate.rto ∧
      c.driver.estimate.rto ≤ longest N := by
  have hb := (bounded_next h.tp hN1 hN h.rtt_le).1
  exact ⟨hb, (hb.rto hN).2⟩

/-- A start with a timeout in bounds, behind commands that are. -/
theorem started_in_bounds {ms : List Message} {lo hi : Nat}
    (h : ∀ m ∈ ms, m.operation = .start → ∃ rto, m.interval = seconds rto ∧ lo ≤ rto ∧ rto ≤ hi)
    (m' : Message)
    (hm' : m'.operation = .start → ∃ rto, m'.interval = seconds rto ∧ lo ≤ rto ∧ rto ≤ hi) :
    ∀ m ∈ ms ++ [m'], m.operation = .start →
      ∃ rto, m.interval = seconds rto ∧ lo ≤ rto ∧ rto ≤ hi := by
  intro m hm
  rcases List.mem_append.mp hm with hm | hm
  · exact h m hm
  · rw [List.mem_singleton.mp hm]
    exact hm'

/-- Every step keeps the bounds, if an acknowledgement that it reads comes
    within `N` microseconds. -/
theorem timed_step (hN1 : 1 ≤ N) (hN : 8 * N < 2 ^ 32) (h : Timed N c) (e : ClientEvent)
    (out : Option Packet) (hstep : c.step top e = some (c', out))
    (hprompt : ∀ n stamp now, e = .ack n stamp now → calculateRtt now stamp ≤ N) :
    Timed N c' := by
  rcases h.estimate hN1 hN with ⟨hb, hrto⟩
  -- The estimate changes where a packet is sent, the measured time where one is answered.
  cases step_cases top c c' e out hstep with
  | resent id now hphase =>
      exact ⟨Or.inr hb, h.rtt_le, hrto, started_in_bounds h.started _ fun _ =>
        ⟨_, rfl, hrto⟩⟩
  | sent now hphase hguard =>
      exact ⟨Or.inr hb, h.rtt_le, hrto, started_in_bounds h.started _ fun _ =>
        ⟨_, rfl, hrto⟩⟩
  | acked n stamp now lar hphase hscan =>
      exact ⟨h.tp, hprompt n stamp now rfl, h.rto, started_in_bounds h.started _ nofun⟩
  | commanded left now m commands p hcmd hp =>
      -- The commands that are left were in the pipe before.
      refine ⟨h.tp, h.rtt_le, h.rto, fun m' hm' => h.started m' ?_⟩
      rw [hcmd]
      exact List.mem_cons_of_mem _ hm'
  | _ => exact ⟨h.tp, h.rtt_le, h.rto, h.started⟩

end Client

namespace System

variable {N : Nat} {b : Nat → Block} {top : Int} {y y' : System} {e : SystemEvent}

/-- An acknowledgement that is delivered comes after the time stamp in it, by no
    more than `N` microseconds. -/
def Prompt (N : Nat) (y : System) : SystemEvent → Prop
  | .ack i now => ∀ a ∈ y.acks[i]?,
      a.message.timeStamp.value ≤ now.value ∧ now.value ≤ a.message.timeStamp.value + N
  | _ => True

instance (N : Nat) (y : System) (e : SystemEvent) : Decidable (y.Prompt N e) := by
  unfold Prompt
  split <;> exact inferInstance

/-- Every acknowledgement repeats the number and the time stamp of a packet that
    was sent. -/
def Answering (y : System) : Prop :=
  ∀ a ∈ y.acks, ∃ x ∈ y.packets, x.frame = a.frame ∧ x.message.seq = a.message.ackSeq ∧
    x.message.timeStamp = a.message.timeStamp

/-- What the client reads as an acknowledgement is one that the network has. -/
theorem clientEvent_ack {n : Int} {stamp now : Timeval}
    (h : y.clientEvent b e = some (.ack n stamp now)) :
    ∃ i a, e = .ack i now ∧ y.acks[i]? = some a ∧ a.message.timeStamp = stamp := by
  rcases clientEvent_cases b y e _ h with ⟨-, hce⟩ | ⟨i, now', a, rfl, ha, -, hce⟩ | ⟨-, hown⟩
  · cases hce
  · cases hce
    exact ⟨i, a, rfl, ha, rfl⟩
  · cases hown

theorem packetsAfter_subset (y : System) (out : Option Packet) :
    y.packets ⊆ y.packetsAfter out := by
  cases out with
  | none => exact fun x hx => hx
  | some p => exact fun x hx => List.mem_cons_of_mem _ hx

theorem answering_step (h : y.Answering) (hstep : y.step b top e = some y') : y'.Answering := by
  intro a ha
  rcases step_cases b top y y' e hstep with
    ⟨x, hx, -, s', out, ack, hs, rfl⟩ | ⟨ce, c', out, -, -, rfl⟩
  · rcases List.mem_cons.mp ha with rfl | ha
    · -- The server answers with what is in the packet.
      rcases Option.map_eq_some_iff.mp hs with ⟨r, -, heq⟩
      cases heq
      exact ⟨x, hx, rfl, rfl, rfl⟩
    · exact h a ha
  · rcases h a ha with ⟨x, hx, hspec⟩
    exact ⟨x, packetsAfter_subset y out hx, hspec⟩

theorem timed_step (hN1 : 1 ≤ N) (hN : 8 * N < 2 ^ 32) (h : y.client.Timed N)
    (hprompt : y.Prompt N e) (hstep : y.step b top e = some y') : y'.client.Timed N := by
  rcases step_cases b top y y' e hstep with
    ⟨_, _, _, _, _, _, _, rfl⟩ | ⟨ce, c', out, hce, hc, rfl⟩
  · exact h
  · refine Client.timed_step hN1 hN h ce out hc fun n stamp now heq => ?_
    rw [heq] at hce
    rcases clientEvent_ack hce with ⟨i, a, rfl, ha, rfl⟩
    rcases hprompt a ha with ⟨hlo, hhi⟩
    -- A time of up to `N` is not cut to 32 bits.
    rw [calculateRtt_eq, Int.emod_eq_of_lt (by omega) (by omega)]
    omega

end System

/-- In every run in which no acknowledgement comes later than `N` microseconds
    after its packet was sent, each of them answers a packet, no measured time
    is above `N`, and no timer is started for less than 2 ms or for more than
    the longest timeout. -/
theorem round_trips_bounded (N : Nat) (hN1 : 1 ≤ N) (hN : 8 * N < 2 ^ 32) (b : Nat → Block)
    (top : Int) (sendbuf : Int → Block) (cell : Heap) (start : Timeval) (es : List SystemEvent)
    (h : Machine.Meets (System.step b top) (System.Prompt N) (System.init sendbuf cell start) es)
    (y : System)
    (hrun : Machine.run (System.step b top) (System.init sendbuf cell start) es = some y) :
    y.Answering ∧ y.client.Timed N := by
  refine Machine.run_induction (P := fun y => y.Answering ∧ y.client.Timed N)
    (fun y e y' hy hprompt hstep => ?_) es _ y ?_ h hrun
  · exact ⟨System.answering_step hy.1 hstep, System.timed_step hN1 hN hy.2 hprompt hstep⟩
  · exact ⟨fun a ha => absurd ha List.not_mem_nil, Client.timed_init N sendbuf cell start⟩

/-- The first packet is acknowledged after 5 microseconds, and the next one is
    sent. -/
theorem round_trips_bounded_first :
    ∃ y, Machine.run (System.step ones 65) System.fresh
        (iteration true none ++ [.packet 0, .client .select, .block, .ack 0 ⟨0, 5⟩,
          .client (.send ⟨0, 6⟩)]) = some y ∧
      y.client.driver.rtt = 5 ∧ y.Answering ∧ y.client.Timed 5 := by
  have hrun : (Machine.run (System.step ones 65) System.fresh
      (iteration true none ++ [.packet 0, .client .select, .block, .ack 0 ⟨0, 5⟩,
        .client (.send ⟨0, 6⟩)])).map (fun y => y.client.driver.rtt) = some 5 := by
    decide +kernel
  rcases Option.map_eq_some_iff.mp hrun with ⟨y, hy, hrtt⟩
  refine ⟨y, hy, hrtt, ?_⟩
  exact round_trips_bounded 5 (by decide) (by decide) ones 65 _ _ _ _ (by decide +kernel) y hy

end Cse5462
