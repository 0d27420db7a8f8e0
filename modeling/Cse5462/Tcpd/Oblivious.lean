import Cse5462.Tcpd.Client

/-!
# What the Programs See of a File

Neither end keeps a flag for a slot that is in use. Both look at the bytes: a
slot is empty if all of them are zero. So the contents of a file decide where
the cursors go, but only through one bit for each block, whether it is all zero.

Two runs on different contents are followed in lockstep. `Twin` says that the
two states are the same but for the contents of the slots, and that a slot which
is empty in one is empty in the other. What a step does and what can be seen of
it is then the same in both. A step keeps the relation if the block that it
stores is all zero in both runs or in neither.

## Main definitions

* `DriverEvent`, `Driver.step`: The driver without the timer process.
* `Server.Twin`, `Driver.Twin`: Two states that differ in contents only.
* `Server.AlikeStored`, `Driver.AlikeStored`: What is stored is zero in both
  runs or in neither.
* `Server.Agree`, `Driver.Agree`: The two runs look the same.

## Theorems

* `step_driver`: The steps of the client are steps of the driver.
* `client_refines_driver`: So are the runs.
* `Server.twin_step`, `Driver.twin_step`: What a step does to twins.
* `oblivious`: Runs that store alike blocks look the same.
* `zero_block_seen`: A block of zeros can be told from another one.
-/

namespace Cse5462

/-- A slot that is empty in one buffer is empty in the other. -/
def SamePattern (b b' : Int → Block) : Prop := ∀ i, (b i).isEmpty = (b' i).isEmpty

theorem isEmpty_eq_iff (b b' : Block) :
    b.isEmpty = b'.isEmpty ↔ (b = Block.zero ↔ b' = Block.zero) := by
  rw [Bool.eq_iff_iff, Block.isEmpty_iff, Block.isEmpty_iff]

namespace SamePattern

variable {b b' : Int → Block}

theorem update (h : SamePattern b b') (i : Int) {c c' : Block} (hc : c.isEmpty = c'.isEmpty) :
    SamePattern (Function.update b i c) (Function.update b' i c') := by
  intro j
  by_cases hj : j = i
  · rw [hj, Function.update_self, Function.update_self, hc]
  · rw [Function.update_of_ne hj, Function.update_of_ne hj, h j]

theorem bzeroSlots (h : SamePattern b b') (i j : Int) :
    SamePattern (bzeroSlots b i j) (Cse5462.bzeroSlots b' i j) := by
  intro k
  by_cases hk : i ≤ k ∧ k < j
  · rw [bzeroSlots_in _ _ _ _ hk, bzeroSlots_in _ _ _ _ hk]
  · rw [bzeroSlots_out _ _ _ _ hk, bzeroSlots_out _ _ _ _ hk, h k]

/-- The delivery loops take the same way. -/
theorem passLoop (h : SamePattern b b') (length n : Nat) (i : Int) :
    (passLoop b length n i).1 = (Cse5462.passLoop b' length n i).1 ∧
      (Cse5462.passLoop b length n i).2.length = (Cse5462.passLoop b' length n i).2.length := by
  induction n generalizing i with
  | zero => exact ⟨rfl, rfl⟩
  | succ n ih =>
      rw [Cse5462.passLoop, Cse5462.passLoop, h i]
      split
      · exact ⟨rfl, rfl⟩
      · exact ⟨(ih (i + 1)).1, congrArg (· + 1) (ih (i + 1)).2⟩

/-- The scan for `lar` takes the same way. -/
theorem larScan (h : SamePattern b b') (top lar lfs : Int) :
    larScan top b lar lfs = Cse5462.larScan top b' lar lfs := by
  have hloop : ∀ (n : Nat) (i : Int), larLoop b lar lfs n i = larLoop b' lar lfs n i := by
    intro n
    induction n with
    | zero => exact fun i => rfl
    | succ n ih =>
        intro i
        rw [larLoop, larLoop, h i, ih]
  have hpattern : (fun j => (b j).isEmpty) = fun j => (b' j).isEmpty := funext h
  rw [Cse5462.larScan, Cse5462.larScan, hloop, hpattern]

end SamePattern

namespace Server

/-- Two states with the same cursors that differ in contents only. -/
structure Twin (s t : Server) : Prop where
  lfr_eq : s.lfr = t.lfr
  laf_eq : s.laf = t.laf
  pattern : SamePattern s.recvbuf t.recvbuf

/-- Delivery does the same to twins, but for what it sends. -/
theorem Twin.flush {s t : Server} (h : Twin s t) (length : Nat) :
    Twin (s.flush length).1 (t.flush length).1 ∧
      (s.flush length).2.length = (t.flush length).2.length := by
  rcases s with ⟨lfr, laf, b⟩
  rcases t with ⟨lfr', laf', b'⟩
  rcases h with ⟨rfl, rfl, hpattern⟩
  dsimp only at hpattern
  unfold Server.flush
  dsimp only
  split
  · rcases hpattern.passLoop length (laf - lfr).toNat (lfr + 1) with ⟨hend, hsent⟩
    rw [← hend]
    split
    · exact ⟨⟨rfl, rfl, hpattern.bzeroSlots _ _⟩, hsent⟩
    · exact ⟨⟨rfl, rfl, hpattern⟩, hsent⟩
  · split
    · rcases hpattern.passLoop length (sendRecvBufSize - (lfr + 1)).toNat (lfr + 1) with
        ⟨hend, hsent⟩
      rw [← hend]
      -- The second loop reads the buffer that the first one has cleared.
      have hcleared := hpattern.bzeroSlots (lfr + 1)
        (passLoop b length (sendRecvBufSize - (lfr + 1)).toNat (lfr + 1)).1
      rcases hcleared.passLoop length (laf + 1).toNat 0 with ⟨hend', hsent'⟩
      rw [← hend']
      split
      · split
        · exact ⟨⟨rfl, rfl, hcleared⟩, hsent⟩
        · split
          · refine ⟨⟨rfl, rfl, hcleared.bzeroSlots _ _⟩, ?_⟩
            rw [List.length_append, List.length_append, hsent, hsent']
          · refine ⟨⟨rfl, rfl, hcleared⟩, ?_⟩
            rw [List.length_append, List.length_append, hsent, hsent']
      · exact ⟨⟨rfl, rfl, hpattern⟩, hsent⟩
    · exact ⟨⟨rfl, rfl, hpattern⟩, rfl⟩

/-- The server after a whole packet. -/
def feed (s : Server) (p : Packet) : Option Server := (s.step (fullSize p)).map Prod.fst

/-- What can be seen of an iteration: the cursors after it, the number of blocks
    passed to ftps, and the acknowledgement. -/
def seen (r : Server × List (List UInt8) × Ack) : Int × Int × Nat × Ack :=
  (r.1.lfr, r.1.laf, r.2.1.length, r.2.2)

/-- Two runs look the same in the next iteration. -/
def Agree (y : Server × Server) (x : Packet × Packet) : Prop :=
  (y.1.step (fullSize x.1)).map seen = (y.2.step (fullSize x.2)).map seen

/-- Two packets that differ in their bodies only. -/
def SameHeader (x : Packet × Packet) : Prop :=
  x.1.seq = x.2.seq ∧ x.1.timeStamp = x.2.timeStamp

/-- A block that is stored is zero in both runs or in neither. -/
def AlikeStored (y : Server × Server) (x : Packet × Packet) : Prop :=
  y.1.accepts x.1.seq → y.1.recvbuf x.1.seq = Block.zero →
    (x.1.body = Block.zero ↔ x.2.body = Block.zero)

theorem receive_overrun {s : Server} {d : Datagram} (hacc : s.accepts d.packet.seq)
    (hslot : d.packet.seq < 0 ∨ sendRecvBufSize ≤ d.packet.seq) : s.receive d = none := by
  rw [receive, if_pos hacc, if_pos hslot]

/-- What an iteration does to twins. -/
theorem twin_step {s t : Server} {p q : Packet} (h : Twin s t) (hpq : SameHeader (p, q))
    (halike : AlikeStored (s, t) (p, q)) :
    Option.Rel (fun r r' => Twin r.1 r'.1 ∧ seen r = seen r')
      (s.step (fullSize p)) (t.step (fullSize q)) := by
  have hsize : sendRecvBufSize = 64 := rfl
  obtain ⟨hseq, hstamp⟩ : p.seq = q.seq ∧ p.timeStamp = q.timeStamp := hpq
  have haccepts : t.accepts q.seq ↔ s.accepts p.seq := by
    unfold accepts
    rw [h.lfr_eq, h.laf_eq, hseq]
  -- Nothing but the acknowledgement comes of it.
  have hidle : Twin s t ∧
      seen (s, [], ⟨p.seq, p.timeStamp⟩) = seen (t, [], ⟨q.seq, q.timeStamp⟩) := by
    refine ⟨h, ?_⟩
    simp only [seen, h.lfr_eq, h.laf_eq, hseq, hstamp]
  by_cases hacc : s.accepts p.seq
  · by_cases hslot : p.seq < 0 ∨ sendRecvBufSize ≤ p.seq
    · rw [step, step, receive_overrun hacc hslot,
        receive_overrun (haccepts.mpr hacc) (hseq ▸ hslot :)]
      exact .none
    · have h0 : 0 ≤ p.seq := by omega
      have h64 : p.seq < 64 := by omega
      have hempty : s.recvbuf p.seq = Block.zero ↔ t.recvbuf q.seq = Block.zero := by
        rw [← hseq]
        exact (isEmpty_eq_iff _ _).mp (h.pattern p.seq)
      by_cases hzero : s.recvbuf p.seq = Block.zero
      · rw [step, step, receive_full s p hacc h0 h64 hzero,
          receive_full t q (haccepts.mpr hacc) (hseq ▸ h0) (hseq ▸ h64) (hempty.mp hzero)]
        -- The block that is stored keeps the pattern.
        have hstored : Twin { s with recvbuf := Function.update s.recvbuf p.seq p.body }
            { t with recvbuf := Function.update t.recvbuf q.seq q.body } := by
          refine ⟨h.lfr_eq, h.laf_eq, ?_⟩
          rw [← hseq]
          exact h.pattern.update _ ((isEmpty_eq_iff _ _).mpr (halike hacc hzero))
        rcases hstored.flush buffSize with ⟨htwin, hsent⟩
        generalize Server.flush { s with recvbuf := _ } buffSize = r at htwin hsent ⊢
        generalize Server.flush { t with recvbuf := _ } buffSize = r' at htwin hsent ⊢
        refine .some ⟨htwin, ?_⟩
        simp only [seen, htwin.lfr_eq, htwin.laf_eq, hsent, fullSize, hseq, hstamp]
      · rw [step, step, receive_duplicate s (fullSize p) h0 h64 hzero,
          receive_duplicate t (fullSize q) (hseq ▸ h0) (hseq ▸ h64) (mt hempty.mpr hzero)]
        exact .some hidle
  · rw [step, step, receive_outside s (fullSize p) hacc,
      receive_outside t (fullSize q) (mt haccepts.mp hacc)]
    exact .some hidle

/-- Runs of the server on packets that differ in their bodies only look the
    same, if what they store is zero in both or in neither. -/
theorem agree_of_alike (xs : List (Packet × Packet)) (hxs : ∀ x ∈ xs, SameHeader x)
    (halike : Machine.Meets (Machine.lockstep feed) AlikeStored (init, init) xs) :
    Machine.Meets (Machine.lockstep feed) Agree (init, init) xs := by
  have hboth := Machine.meets_and (Machine.meets_of_forall_mem xs (init, init) hxs) halike
  exact Machine.meets_lockstep (T := Twin) (fun y x hy hx => twin_step hy hx.1 hx.2) xs
    (init, init) ⟨rfl, rfl, fun _ => rfl⟩ hboth

end Server

/-- A step of the driver. What the timer process asks for is part of the event. -/
inductive DriverEvent where
  | select (request : Option Int)
  | resend (now : Timeval)
  | refill (body : Block) (length : Nat)
  | noRefill
  | ack (n : Int) (stamp now : Timeval)
  | noAck
  | send (now : Timeval)
  | memory (i : Int) (b : Block)

namespace Driver

/-- A step of the driver, with the packet that it sends. -/
def step (top : Int) (d : Driver) : DriverEvent → Option (Driver × Option Packet)
  | .select request =>
      if d.phase = .select then
        some ({ d with phase := request.elim .ftpc .resending }, none)
      else none
  | .resend now =>
      match d.phase with
      | .resending id => some ({ d.estimate with phase := .ftpc }, some (d.estimate.packet id now))
      | _ => none
  | .refill body length =>
      if d.phase = .ftpc ∧ d.cursors.refillGuard ∧ length ≤ buffSize then
        some (d.refill body length, none)
      else none
  | .noRefill => if d.phase = .ftpc then some ({ d with phase := .ack }, none) else none
  | .ack n stamp now =>
      if d.phase = .ack then (d.acknowledge top n stamp now).map fun d => (d, none) else none
  | .noAck => if d.phase = .ack then some ({ d with phase := .send }, none) else none
  | .send now =>
      if d.phase = .send then
        if d.cursors.sendGuard then
          some ({ d.estimate with cursors := d.cursors.sent, phase := .select },
            some (d.estimate.packet (d.cursors.lfs + 1) now))
        else some ({ d with phase := .select }, none)
      else none
  | .memory i b =>
      if 0 ≤ i ∧ i < sendRecvBufSize then none
      else some ({ d with sendbuf := Function.update d.sendbuf i b }, none)

end Driver

/-- A step of the client is one of its driver, or the driver does not notice
    it. -/
theorem Client.step_driver {top : Int} {c c' : Client} {e : ClientEvent} {out : Option Packet}
    (h : c.step top e = some (c', out)) :
    (c'.driver = c.driver ∧ out = none) ∨
      ∃ de, c.driver.step top de = some (c'.driver, out) := by
  cases Client.step_cases top c c' e out h with
  | nothingAsked hphase hreq => exact Or.inr ⟨.select none, if_pos hphase⟩
  | asked id requests hphase hreq => exact Or.inr ⟨.select (some id), if_pos hphase⟩
  | resent id now hphase =>
      refine Or.inr ⟨.resend now, ?_⟩
      simp only [Driver.step, hphase]
      rfl
  | refilled body length hphase hguard hlen =>
      exact Or.inr ⟨.refill body length, if_pos ⟨hphase, hguard, hlen⟩⟩
  | notRefilled hphase => exact Or.inr ⟨.noRefill, if_pos hphase⟩
  | acked n stamp now lar hphase hscan =>
      refine Or.inr ⟨.ack n stamp now, ?_⟩
      simp only [Driver.step, if_pos hphase, Driver.acknowledge, hscan, Option.map_some]
  | notAcked hphase => exact Or.inr ⟨.noAck, if_pos hphase⟩
  | sent now hphase hguard =>
      refine Or.inr ⟨.send now, ?_⟩
      simp only [Driver.step, if_pos hphase, if_pos hguard]
      rfl
  | notSent now hphase hguard =>
      refine Or.inr ⟨.send now, ?_⟩
      simp only [Driver.step, if_pos hphase, if_neg hguard]
  | commanded left now m commands p hcmd htimer => exact Or.inl ⟨rfl, rfl⟩
  | expired left now p ids htimer => exact Or.inl ⟨rfl, rfl⟩
  | changed i b hout => exact Or.inr ⟨.memory i b, if_neg hout⟩

/-- The client after a step, with the packets that have been sent. -/
def Client.sends (top : Int) (r : Client × List Packet) (e : ClientEvent) :
    Option (Client × List Packet) :=
  (r.1.step top e).map fun s => (s.1, r.2 ++ s.2.toList)

/-- The driver after a step, with the packets that have been sent. -/
def Driver.sends (top : Int) (r : Driver × List Packet) (e : DriverEvent) :
    Option (Driver × List Packet) :=
  (r.1.step top e).map fun s => (s.1, r.2 ++ s.2.toList)

/-- Every run of the client is for its driver a run of the driver alone, which ends
    in the same state and has sent the same packets. -/
theorem client_refines_driver (top : Int) (c c' : Client) (ps : List Packet)
    (es : List ClientEvent) (hrun : Machine.run (Client.sends top) (c, []) es = some (c', ps)) :
    ∃ des, Machine.run (Driver.sends top) (c.driver, []) des = some (c'.driver, ps) := by
  have hstep : ∀ (r : Client × List Packet) e r' (q : Driver × List Packet),
      q = (r.1.driver, r.2) → True → Client.sends top r e = some r' →
      ∃ q', Machine.Reaches (Driver.sends top) (fun _ _ => True) q q' ∧
        q' = (r'.1.driver, r'.2) := by
    rintro r e r' _ rfl - hs
    rcases Option.map_eq_some_iff.mp hs with ⟨⟨c, out⟩, hc, rfl⟩
    rcases Client.step_driver hc with ⟨hdriver, rfl⟩ | ⟨de, hde⟩
    · -- The timer process takes a step, and the driver waits.
      refine ⟨_, Machine.reaches_refl _, ?_⟩
      dsimp only
      rw [hdriver, Option.toList_none, List.append_nil]
    · refine ⟨_, Machine.reaches_step (e := de) trivial ?_, rfl⟩
      unfold Driver.sends
      dsimp only
      rw [hde, Option.map_some]
  rcases Machine.reaches_of_simulates hstep es (c, []) (c', ps) _ rfl (Machine.meets_true es _) hrun
    with ⟨q, ⟨des, -, hdes⟩, rfl⟩
  exact ⟨des, hdes⟩

/-- A block is sent, its timer expires, and it is sent again. -/
theorem client_refines_driver_twice :
    ∃ c ps des, Machine.run (Client.sends 64) (Client.fresh, [])
        [.select, .refill (Block.single 1) buffSize, .noAck, .send ⟨1, 0⟩, .command none ⟨1, 0⟩,
          .timeout none ⟨2, 0⟩, .select, .resend ⟨3, 0⟩] = some (c, ps) ∧ ps.length = 2 ∧
      Machine.run (Driver.sends 64) (Client.fresh.driver, []) des = some (c.driver, ps) := by
  have hrun : (Machine.run (Client.sends 64) (Client.fresh, [])
      [.select, .refill (Block.single 1) buffSize, .noAck, .send ⟨1, 0⟩, .command none ⟨1, 0⟩,
        .timeout none ⟨2, 0⟩, .select, .resend ⟨3, 0⟩]).map (fun r => r.2.length) = some 2 := by
    decide +kernel
  rcases Option.map_eq_some_iff.mp hrun with ⟨⟨c, ps⟩, hr, hlen⟩
  rcases client_refines_driver 64 Client.fresh c ps _ hr with ⟨des, hdes⟩
  exact ⟨c, ps, des, hr, hlen, hdes⟩

namespace DriverEvent

/-- Two events that differ in the contents of blocks only. -/
inductive SameSchedule : DriverEvent × DriverEvent → Prop where
  | refill (b b' : Block) (length : Nat) : SameSchedule (.refill b length, .refill b' length)
  | memory (i : Int) (b b' : Block) : SameSchedule (.memory i b, .memory i b')
  | same (e : DriverEvent) : SameSchedule (e, e)

end DriverEvent

namespace Driver

/-- Two states that differ in the contents of the send buffer only. -/
structure Twin (d d' : Driver) : Prop where
  rest : d' = { d with sendbuf := d'.sendbuf }
  pattern : SamePattern d.sendbuf d'.sendbuf

/-- The driver after a step. -/
def next (top : Int) (d : Driver) (e : DriverEvent) : Option Driver := (d.step top e).map Prod.fst

/-- What can be seen of a step: the cursors after it, and the number of the
    packet that is sent. -/
def seen (r : Driver × Option Packet) : Cursors × Option Int := (r.1.cursors, r.2.map Packet.seq)

/-- Two runs look the same in the next step. -/
def Agree (top : Int) (y : Driver × Driver) (x : DriverEvent × DriverEvent) : Prop :=
  (y.1.step top x.1).map seen = (y.2.step top x.2).map seen

/-- The slot that a block is read into is all zero afterwards in both runs or in
    neither, and so is what memory changes to, and what is left of each slot by an
    acknowledgement whose offset does not fit an `int`. -/
def AlikeStored (y : Driver × Driver) : DriverEvent × DriverEvent → Prop
  | (.refill b length, .refill b' length') =>
      (y.1.sendbuf y.1.cursors.bufpos).copy b length = Block.zero ↔
        (y.2.sendbuf y.2.cursors.bufpos).copy b' length' = Block.zero
  | (.memory _ b, .memory _ b') => b = Block.zero ↔ b' = Block.zero
  | (.ack n _ _, .ack n' _ _) =>
      ¬ OffsetFits n → ∀ i, y.1.clear n i = Block.zero ↔ y.2.clear n' i = Block.zero
  | _ => True

/-- What a step does to twins. -/
theorem twin_step {top : Int} {d d' : Driver} {x : DriverEvent × DriverEvent} (h : Twin d d')
    (hx : DriverEvent.SameSchedule x) (halike : AlikeStored (d, d') x) :
    Option.Rel (fun r r' => Twin r.1 r'.1 ∧ seen r = seen r')
      (d.step top x.1) (d'.step top x.2) := by
  rcases h with ⟨hrest, hpattern⟩
  generalize d'.sendbuf = b at hrest hpattern
  subst hrest
  -- A guard that does not look at the buffer holds in both runs or in neither.
  have hif : ∀ (P : Prop) [Decidable P] (r r' : Driver × Option Packet),
      (P → Twin r.1 r'.1 ∧ seen r = seen r') →
      Option.Rel (fun r r' => Twin r.1 r'.1 ∧ seen r = seen r') (if P then some r else none)
        (if P then some r' else none) := by
    intro P _ r r' hr
    by_cases hP : P
    · rw [if_pos hP, if_pos hP]
      exact .some (hr hP)
    · rw [if_neg hP, if_neg hP]
      exact .none
  cases hx with
  | refill c c' length =>
      refine hif _ _ _ fun _ => ⟨⟨rfl, ?_⟩, rfl⟩
      exact hpattern.update _ ((isEmpty_eq_iff _ _).mpr halike)
  | memory i c c' =>
      simp only [step]
      split
      · exact .none
      · exact .some ⟨⟨rfl, hpattern.update i ((isEmpty_eq_iff c c').mpr halike)⟩, rfl⟩
  | same e =>
      cases e with
      | select request => exact hif _ _ _ fun _ => ⟨⟨rfl, hpattern⟩, rfl⟩
      | resend now =>
          simp only [step]
          split
          · exact .some ⟨⟨rfl, hpattern⟩, rfl⟩
          · exact .none
      | refill c length =>
          refine hif _ _ _ fun _ => ⟨⟨rfl, ?_⟩, rfl⟩
          exact hpattern.update _ ((isEmpty_eq_iff _ _).mpr halike)
      | noRefill => exact hif _ _ _ fun _ => ⟨⟨rfl, hpattern⟩, rfl⟩
      | ack n stamp now =>
          have hclear : SamePattern (d.clear n) (Driver.clear { d with sendbuf := b } n) := by
            by_cases hfits : OffsetFits n
            · rw [clear_eq _ hfits, clear_eq _ hfits]
              exact hpattern.update n rfl
            · exact fun i => (isEmpty_eq_iff _ _).mpr (halike hfits i)
          simp only [step, acknowledge]
          split
          · have hscan := hclear.larScan top d.cursors.lar d.cursors.lfs
            rw [hscan]
            cases larScan top (Driver.clear { d with sendbuf := b } n) d.cursors.lar
              d.cursors.lfs with
            | none => exact .none
            | some lar => exact .some ⟨⟨rfl, hclear⟩, rfl⟩
          · exact .none
      | noAck => exact hif _ _ _ fun _ => ⟨⟨rfl, hpattern⟩, rfl⟩
      | send now =>
          simp only [step]
          split
          · split
            · exact .some ⟨⟨rfl, hpattern⟩, rfl⟩
            · exact .some ⟨⟨rfl, hpattern⟩, rfl⟩
          · exact .none
      | memory i c =>
          simp only [step]
          split
          · exact .none
          · exact .some ⟨⟨rfl, hpattern.update i rfl⟩, rfl⟩

/-- Runs of the driver on the same schedule look the same, if what they store is
    zero in both or in neither. -/
theorem agree_of_alike {top : Int} {sendbuf sendbuf' : Int → Block}
    (hbuf : SamePattern sendbuf sendbuf') (es : List (DriverEvent × DriverEvent))
    (hes : ∀ x ∈ es, DriverEvent.SameSchedule x)
    (halike : Machine.Meets (Machine.lockstep (next top)) AlikeStored
      (init sendbuf, init sendbuf') es) :
    Machine.Meets (Machine.lockstep (next top)) (Agree top) (init sendbuf, init sendbuf') es := by
  have hboth := Machine.meets_and
    (Machine.meets_of_forall_mem es (init sendbuf, init sendbuf') hes) halike
  exact Machine.meets_lockstep (T := Twin) (fun y x hy hx => twin_step hy hx.1 hx.2) es
    (init sendbuf, init sendbuf') ⟨rfl, hbuf⟩ hboth

end Driver

/-- In any two runs of the server on packets that differ in their bodies only,
    and in any two runs of the driver on the same schedule with different
    blocks, everything that can be seen agrees, if what is stored is all zero in
    both runs or in neither. -/
theorem oblivious (xs : List (Packet × Packet)) (hxs : ∀ x ∈ xs, Server.SameHeader x)
    (hstored : Machine.Meets (Machine.lockstep Server.feed) Server.AlikeStored
      (Server.init, Server.init) xs)
    (top : Int) (sendbuf sendbuf' : Int → Block) (hbuf : SamePattern sendbuf sendbuf')
    (es : List (DriverEvent × DriverEvent)) (hes : ∀ x ∈ es, DriverEvent.SameSchedule x)
    (hread : Machine.Meets (Machine.lockstep (Driver.next top)) Driver.AlikeStored
      (Driver.init sendbuf, Driver.init sendbuf') es) :
    Machine.Meets (Machine.lockstep Server.feed) Server.Agree (Server.init, Server.init) xs ∧
      Machine.Meets (Machine.lockstep (Driver.next top)) (Driver.Agree top)
        (Driver.init sendbuf, Driver.init sendbuf') es :=
  ⟨Server.agree_of_alike xs hxs hstored, Driver.agree_of_alike hbuf es hes hread⟩

/-- A packet with the contents `b` at the start of a transfer. -/
def firstPacket (b : Block) : Packet := ⟨0, ⟨0, 0⟩, b⟩

/-- Two files that differ in the one byte they have. -/
theorem oblivious_one :
    Machine.Meets (Machine.lockstep Server.feed) Server.Agree (Server.init, Server.init)
        [(firstPacket (Block.single 1), firstPacket (Block.single 2))] ∧
      Machine.Meets (Machine.lockstep (Driver.next 64)) (Driver.Agree 64)
        (Driver.init fun _ => Block.zero, Driver.init fun _ => Block.zero)
        [(.select none, .select none),
          (.refill (Block.single 1) buffSize, .refill (Block.single 2) buffSize),
          (.noAck, .noAck), (.send ⟨1, 0⟩, .send ⟨1, 0⟩)] := by
  have hone := Block.single_ne_zero 1 (by decide)
  have htwo := Block.single_ne_zero 2 (by decide)
  have hfull : ∀ b b' : Block, b.copy (Block.single 1) buffSize = Block.zero ↔
      b'.copy (Block.single 2) buffSize = Block.zero := by
    intro b b'
    rw [Block.copy_full, Block.copy_full]
    exact ⟨fun h => absurd h hone, fun h => absurd h htwo⟩
  refine oblivious _ ?_ ?_ 64 _ _ (fun _ => rfl) _ ?_ ?_
  · intro x hx
    rw [List.mem_singleton.mp hx]
    exact ⟨rfl, rfl⟩
  · exact ⟨fun _ _ => ⟨fun h => absurd h hone, fun h => absurd h htwo⟩, fun _ _ => trivial⟩
  · intro x hx
    simp only [List.mem_cons, List.not_mem_nil, or_false] at hx
    rcases hx with rfl | rfl | rfl | rfl
    · exact .same _
    · exact .refill _ _ _
    · exact .same _
    · exact .same _
  · exact ⟨trivial, fun _ _ => ⟨hfull _ _, fun _ _ => ⟨trivial, fun _ _ => ⟨trivial,
      fun _ _ => trivial⟩⟩⟩⟩

/-- The server is fed one packet. It passes the block on and moves `lfr`, unless
    the block is all zero. -/
theorem zero_block_seen :
    ¬ Machine.Meets (Machine.lockstep Server.feed) Server.Agree (Server.init, Server.init)
      [(firstPacket Block.zero, firstPacket (Block.single 1))] := by
  have hleft : ((Server.init.step (fullSize (firstPacket Block.zero))).map Server.seen).map
      (fun v => v.1) = some (-1) := by decide +kernel
  have hright : ((Server.init.step (fullSize (firstPacket (Block.single 1)))).map Server.seen).map
      (fun v => v.1) = some 0 := by decide +kernel
  intro h
  have hagree : Server.Agree (Server.init, Server.init)
      (firstPacket Block.zero, firstPacket (Block.single 1)) := h.1
  unfold Server.Agree at hagree
  dsimp only at hagree
  rw [hagree, hright] at hleft
  exact absurd hleft (by decide)

end Cse5462
