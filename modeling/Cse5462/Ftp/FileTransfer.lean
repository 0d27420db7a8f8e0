import Cse5462.Ftp.FileInformation
import Cse5462.Ftp.Receive
import Cse5462.Tcpd.EndToEnd

/-!
# A File from End to End

The four programs of a transfer: ftpc, the two ends of the transport with the
network between them, and ftps. Each of them takes a step whenever it can, in
any order. The sockets between ftpc and the client and between the server and
ftps keep what they are given, in order.

ftpc hands over the file information and then the file, 1000 bytes at a time.
The last block is shorter, and when the driver has read it the rest of its slot
is what was there before. The frame that is sent for it is the whole slot, so
what the transport transfers is not what ftpc has handed over but what the slots
held after it had been read, and this is known only as the transfer goes on.
`Inv.sound` therefore speaks of all transfers `b` that begin with the blocks
stored so far.

ftps counts down the size that was announced, so the padding is not written. But
`strncpy` cuts the size off above its lowest zero byte, and what ftps then ends
with is a part of the file.

## Main definitions

* `announced`: The size that ftps reads for a file.
* `FileTransfer`: The state of all programs.
* `FileTransfer.step`: A step of one of them.
* `FileTransfer.Inv`: The invariant of a transfer.
* `FtpsPhase.Writes`: What ftps has written is right.

## Theorems

* `announced_le`: No size is announced as a larger one.
* `inv_step`: Every careful step keeps the invariant.
* `file_arrives`: What ftps writes, in every run of careful steps.
-/

namespace Cse5462

/-- The size that ftps reads for a file of `size` bytes. -/
def announced (size : Int) : Int := idOfBytes (strncpy (idBytes size))

/-- A datagram that is received into a clear buffer of 1000 bytes. -/
def Block.receive (d : List UInt8) : Block :=
  ⟨Bytes.put (Bytes.zeros buffSize) 0 (d.take buffSize), by
    rw [Bytes.length_put (by rw [Bytes.length_zeros, List.length_take]; omega),
      Bytes.length_zeros]⟩

/-- The place in ftps, with what it knows of the file there. -/
inductive FtpsPhase where
  | start
  | receiving (name : List UInt8) (size : Int) (written : List UInt8)
  | finished (name written : List UInt8)
  deriving DecidableEq

/-- The state of all programs. `stored` are the slots of the send buffer as they
    were after a block had been read into them, and `taken` is the number of
    datagrams that ftps has received. -/
structure FileTransfer where
  ftpc : Sending
  system : System
  stored : List Block
  taken : Nat
  ftps : FtpsPhase

/-- A step of one of the programs: a round of ftpc, the driver reads a block
    from ftpc, anything else at either end, or a step of ftps. -/
inductive FileEvent where
  | ftpc
  | block
  | system (e : SystemEvent)
  | ftps

namespace FileTransfer

/-- The programs after ftpc has sent the file information. -/
def init (file name : List UInt8) (sendbuf : Int → Block) (cell : Heap) (start : Timeval) :
    Option FileTransfer :=
  (fileInformation file.length name).map fun buf =>
    { ftpc := { file := file, sent := [buf] }, system := System.init sendbuf cell start,
      stored := [], taken := 0, ftps := .start }

/-- A round of ftpc. -/
def sendBlock (t : FileTransfer) : Option FileTransfer :=
  match Ftpc.step t.ftpc with
  | .inl s => some { t with ftpc := s }
  | .inr _ => none

/-- The driver reads the next datagram of ftpc into the slot `bufpos`. -/
def readBlock (top : Int) (t : FileTransfer) : Option FileTransfer :=
  match t.ftpc.sent[t.stored.length]? with
  | none => none
  | some d =>
      let bufpos := t.system.client.driver.cursors.bufpos
      (t.system.drive top (.refill (Block.receive d) (d.take buffSize).length)).map fun y =>
        { t with system := y, stored := t.stored ++ [y.client.driver.sendbuf bufpos] }

/-- A step of ftps. -/
def receive (t : FileTransfer) : Option FileTransfer :=
  match t.ftps with
  | .start =>
      match t.system.passed[t.taken]? with
      -- `RECV` waits.
      | none => none
      | some d =>
          (readInformation (Block.receive d).bytes).map fun r =>
            { t with taken := t.taken + 1, ftps := .receiving r.2 r.1 [] }
  | .receiving name size written =>
      match Ftps.step ⟨size, t.system.passed.drop t.taken, written⟩ with
      | .inl s =>
          some { t with
            taken := t.system.passed.length - s.datagrams.length
            ftps := .receiving name s.size s.written }
      | .inr s => some { t with ftps := .finished name s.written }
  | .finished _ _ => none

/-- A step of one of the programs. -/
def step (top : Int) (t : FileTransfer) : FileEvent → Option FileTransfer
  | .ftpc => t.sendBlock
  | .block => t.readBlock top
  -- Blocks come from ftpc only.
  | .system .block => none
  | .system e =>
      (t.system.step (fun _ => Block.zero) top e).map fun y => { t with system := y }
  | .ftps => t.receive

/-- A step of the transport does not spoil the transfer. -/
def Careful (t : FileTransfer) (e : FileEvent) : Prop :=
  ∀ e', e = .system e' → t.system.Careful (fun _ => Block.zero) e'

end FileTransfer

theorem Block.receive_bytes {d : List UInt8} (hd : d.length = buffSize) :
    (Block.receive d).bytes = d := by
  unfold Block.receive
  dsimp only
  rw [List.take_of_length_le (Nat.le_of_eq hd), put_zeros, hd, Nat.sub_self, List.replicate_zero,
    List.append_nil]

/-- A slot after a datagram has been read into it begins with the datagram. -/
theorem Block.prefix_copy_receive (dst : Block) {d : List UInt8} (hd : d.length ≤ buffSize) :
    d <+: (dst.copy (Block.receive d) d.length).bytes := by
  unfold Block.copy Block.receive
  dsimp only
  rw [List.take_of_length_le hd, put_zeros, List.take_left]
  exact List.prefix_append d _

theorem ofLe_replicate_zero (n : Nat) : Bytes.ofLe (List.replicate n 0) = 0 := by
  induction n with
  | zero => rfl
  | succ n ih =>
      rw [List.replicate_succ, Bytes.ofLe, ih]
      rfl

/-- What `strncpy` drops makes a number smaller. -/
theorem ofLe_strncpy_le (bs : List UInt8) : Bytes.ofLe (strncpy bs) ≤ Bytes.ofLe bs := by
  induction bs with
  | nil => exact Nat.le_refl 0
  | cons b bs ih =>
      unfold strncpy
      split
      · rename_i hb
        rw [hb, Bytes.ofLe, Bytes.ofLe, ofLe_replicate_zero]
        omega
      · rw [Bytes.ofLe, Bytes.ofLe]
        omega

theorem ofLe_idBytes {size : Int} (h0 : 0 ≤ size) (h : size < 2 ^ 31) :
    (Bytes.ofLe (idBytes size) : Int) = size := by
  rw [idBytes_eq, Bytes.leInt, Bytes.ofLe_le]
  omega

/-- What is left of the size, as a number without a sign. -/
theorem announced_eq {size : Int} (h0 : 0 ≤ size) (h : size < 2 ^ 31) :
    announced size = Bytes.ofLe (strncpy (idBytes size)) := by
  have hle := ofLe_strncpy_le (idBytes size)
  have hsize := ofLe_idBytes h0 h
  unfold announced
  rw [idOfBytes_eq (length_strncpy _), Bytes.ofLeInt, length_strncpy,
    show (idBytes size).length = 4 from rfl, Int.bmod_eq_of_le (by omega) (by omega)]

/-- No size is announced as a larger one. -/
theorem announced_le {size : Int} (h0 : 0 ≤ size) (h : size < 2 ^ 31) :
    0 ≤ announced size ∧ announced size ≤ size := by
  have hle := ofLe_strncpy_le (idBytes size)
  have hsize := ofLe_idBytes h0 h
  rw [announced_eq h0 h]
  omega

/-- The file is announced as it is exactly if no zero byte of its size is below
    a non-zero one. -/
theorem announced_eq_iff {size : Int} (h0 : 0 ≤ size) (h : size < 2 ^ 31) :
    announced size = size ↔ ZerosOnTop size := by
  rw [announced, idOfBytes_strncpy_iff size (by omega) h, strncpy_eq_self_iff,
    pairwise_idBytes_iff size h0 h]

/-- The file information of a file, under a name that fits. -/
def header (file name : List UInt8) : List UInt8 :=
  strncpy (idBytes file.length) ++ (name ++ List.replicate (996 - name.length) 0)

theorem length_header (file : List UInt8) {name : List UInt8} (hlen : name.length ≤ 19) :
    (header file name).length = buffSize := by
  unfold header
  rw [List.length_append, length_strncpy, List.length_append, List.length_replicate,
    show (idBytes (file.length : Int)).length = 4 from rfl, buffSize]
  omega

theorem header_nonzero (file : List UInt8) {name : List UInt8} (hname : ∀ c ∈ name, c ≠ 0)
    (hpos : 1 ≤ name.length) : ∃ c ∈ header file name, c ≠ 0 := by
  rcases List.exists_mem_of_length_pos hpos with ⟨c, hc⟩
  exact ⟨c, List.mem_append_right _ (List.mem_append_left _ hc), hname c hc⟩

/-- What round `k` of ftpc reads. -/
def chunk (file : List UInt8) (k : Nat) : List UInt8 := (file.drop (buffSize * k)).take buffSize

/-- Every block of the file has a byte that is not zero. -/
def BlocksNonzero (file : List UInt8) : Prop :=
  ∀ k, buffSize * k < file.length → ∃ c ∈ chunk file k, c ≠ 0

/-- What ftps has written is right: the name is that of the file, the bytes are
    its first bytes, never more than were announced, and at the end as many. -/
def FtpsPhase.Writes (file name : List UInt8) : FtpsPhase → Prop
  | .start => True
  | .receiving name' _ written =>
      name' = name ∧ written <+: file ∧ written.length ≤ (announced file.length).toNat
  | .finished name' written =>
      name' = name ∧ written = file.take (announced file.length).toNat ∧
        (written = file ↔ ZerosOnTop file.length)

/-- What ftps has done after it has taken so many datagrams. -/
def FtpsPhase.After (file name : List UInt8) (taken : Nat) : FtpsPhase → Prop
  | .start => taken = 0
  | .receiving name' size written =>
      name' = name ∧ ∃ j, taken = j + 1 ∧
        size = announced file.length - (buffSize * j : Nat) ∧
        written = file.take (min (buffSize * j) (announced file.length).toNat)
  | .finished name' written =>
      name' = name ∧ written = file.take (announced file.length).toNat

/-- The invariant of a transfer: what ftpc has sent, what the slots held, which
    transfers the transport may be carrying out, and what ftps has made of it. -/
structure FileTransfer.Inv (file name buf : List UInt8) (t : FileTransfer) : Prop where
  sent : ∃ m, t.ftpc = ⟨file.drop (buffSize * m), buf :: (List.range m).map (chunk file)⟩ ∧
    ∀ k < m, buffSize * k < file.length
  read : t.stored.length = t.system.filled
  stored : ∀ (k : Nat) (slot : Block), t.stored[k]? = some slot →
    ∃ d, t.ftpc.sent[k]? = some d ∧ d <+: slot.bytes
  sound : ∀ b : Nat → Block, (∀ n, b n ≠ Block.zero) →
    (∀ (n : Nat) (slot : Block), t.stored[n]? = some slot → b n = slot) → System.Sound b t.system
  taken_le : t.taken ≤ t.system.passed.length
  after : t.ftps.After file name t.taken

namespace FileTransfer

variable {file name buf : List UInt8} {t t' : FileTransfer}

/-- Nothing that ftpc sends is empty, longer than a buffer, or all zero. -/
theorem Inv.sent_nonzero (h : Inv file name buf t) (hblocks : BlocksNonzero file)
    (hbuf : buf.length = buffSize) (hnz : ∃ c ∈ buf, c ≠ 0) :
    ∀ d ∈ t.ftpc.sent, d.length ≤ buffSize ∧ ∃ c ∈ d, c ≠ 0 := by
  rcases h.sent with ⟨m, heq, hm⟩
  rw [heq]
  intro d hd
  rcases List.mem_cons.mp hd with rfl | hd
  · exact ⟨Nat.le_of_eq hbuf, hnz⟩
  · rcases List.mem_map.mp hd with ⟨k, hk, rfl⟩
    refine ⟨?_, hblocks k (hm k (List.mem_range.mp hk))⟩
    unfold chunk
    rw [List.length_take]
    exact Nat.min_le_left _ _

/-- So no slot is all zero after a datagram has been read into it. -/
theorem Inv.stored_ne_zero (h : Inv file name buf t) (hblocks : BlocksNonzero file)
    (hbuf : buf.length = buffSize) (hnz : ∃ c ∈ buf, c ≠ 0) :
    ∀ slot ∈ t.stored, slot ≠ Block.zero := by
  intro slot hslot hzero
  rcases List.getElem?_of_mem hslot with ⟨k, hk⟩
  rcases h.stored k slot hk with ⟨d, hd, hpre⟩
  rcases (h.sent_nonzero hblocks hbuf hnz d (List.mem_of_getElem? hd)).2 with ⟨c, hc, hne⟩
  rw [hzero] at hpre
  exact hne (List.eq_of_mem_replicate (hpre.subset hc))

/-- What the server has passed on are slots that datagrams of ftpc were read
    into, in the order in which ftpc sent them. -/
theorem Inv.passed (h : Inv file name buf t) (hblocks : BlocksNonzero file)
    (hbuf : buf.length = buffSize) (hnz : ∃ c ∈ buf, c ≠ 0) (i : Nat) (p : List UInt8)
    (hp : t.system.passed[i]? = some p) :
    ∃ d, t.ftpc.sent[i]? = some d ∧ Padded d p := by
  -- A transfer that begins with the blocks stored so far.
  let b : Nat → Block := fun n => (t.stored[n]?).getD (Block.single 1)
  have hb : ∀ n, b n ≠ Block.zero := by
    intro n
    cases hn : t.stored[n]? with
    | none =>
        simp only [b, hn, Option.getD_none]
        exact Block.single_ne_zero 1 (by decide)
    | some slot =>
        simp only [b, hn, Option.getD_some]
        exact h.stored_ne_zero hblocks hbuf hnz slot (List.mem_of_getElem? hn)
  have hagree : ∀ (n : Nat) (slot : Block), t.stored[n]? = some slot → b n = slot := by
    intro n slot hn
    simp only [b, hn, Option.getD_some]
  rcases (h.sound b hb hagree).inPrefix with ⟨k, hk, hpassed⟩
  rw [hpassed, List.getElem?_map, Option.map_eq_some_iff] at hp
  rcases hp with ⟨n, hn, rfl⟩
  rcases List.getElem?_eq_some_iff.mp hn with ⟨hlt, rfl⟩
  rw [List.length_range] at hlt
  rw [List.getElem_range]
  have hi : i < t.stored.length := by
    rw [h.read]
    omega
  have hstored : t.stored[i]? = some t.stored[i] := List.getElem?_eq_getElem hi
  rw [hagree i _ hstored]
  rcases h.stored i _ hstored with ⟨d, hd, hpre⟩
  exact ⟨d, hd, hpre, Block.length_eq _⟩

end FileTransfer

namespace System

variable {b : Nat → Block} {top : Int} {y y' : System} {e : SystemEvent}

/-- A step that reads no block is the same in every transfer. -/
theorem step_eq_of_ne_block (b' : Nat → Block) (he : e ≠ .block) :
    y.step b top e = y.step b' top e := by
  cases e with
  | block => exact absurd rfl he
  | _ => rfl

theorem careful_of_ne_block (b' : Nat → Block) (he : e ≠ .block) (h : y.Careful b e) :
    y.Careful b' e := by
  cases e with
  | block => exact absurd rfl he
  | _ => exact h

theorem filled_step (he : e ≠ .block) (h : y.step b top e = some y') : y'.filled = y.filled := by
  rcases step_cases b top y y' e h with ⟨_, _, _, _, _, _, _, rfl⟩ | ⟨ce, _, _, hce, _, rfl⟩
  · rfl
  · rcases clientEvent_cases b y e ce hce with
      ⟨hblock, -⟩ | ⟨i, now, a, -, -, -, rfl⟩ | ⟨-, hown⟩
    · exact absurd hblock he
    · rfl
    · cases ce with
      | refill body length => cases hown
      | _ => rfl

/-- Nothing that has been passed to ftps is taken back. -/
theorem passed_step (h : y.step b top e = some y') : y.passed <+: y'.passed := by
  rcases step_cases b top y y' e h with ⟨_, _, _, _, out, _, _, rfl⟩ | ⟨_, _, _, _, _, rfl⟩
  · exact List.prefix_append _ out
  · exact List.prefix_refl _

end System

namespace FileTransfer

variable {file name buf : List UInt8} {t t' : FileTransfer} {top : Int}

/-- A round of ftpc reads the next part of the file. -/
theorem inv_sendBlock (h : Inv file name buf t) (hstep : t.sendBlock = some t') :
    Inv file name buf t' := by
  rcases h.sent with ⟨m, heq, hm⟩
  have hround : Ftpc.step t.ftpc = if (chunk file m).length > 0 then
      .inl ⟨file.drop (buffSize * (m + 1)), buf :: (List.range (m + 1)).map (chunk file)⟩
      else .inr t.ftpc.sent := by
    unfold Ftpc.step sendRound
    rw [heq, List.range_succ, List.map_append, List.drop_drop, Nat.mul_succ]
    rfl
  unfold sendBlock at hstep
  rw [hround] at hstep
  by_cases hlen : (chunk file m).length > 0
  · rw [if_pos hlen] at hstep
    cases hstep
    refine ⟨⟨m + 1, rfl, fun k hk => ?_⟩, h.read, fun k slot hk => ?_, h.sound, h.taken_le, h.after⟩
    · rcases Nat.lt_or_ge k m with hlt | hge
      · exact hm k hlt
      · unfold chunk at hlen
        rw [List.length_take, List.length_drop] at hlen
        have hkm : k = m := by omega
        subst hkm
        omega
    · -- What has been sent before stays where it is.
      rcases h.stored k slot hk with ⟨d, hd, hpre⟩
      refine ⟨d, ?_, hpre⟩
      rw [heq] at hd
      rw [List.range_succ, List.map_append, ← List.cons_append,
        List.getElem?_append_left (List.getElem?_eq_some_iff.mp hd).1]
      exact hd
  · rw [if_neg hlen] at hstep
    cases hstep

/-- Reading a datagram of ftpc is reading what is in the slot afterwards. -/
theorem refill_stored (d : Driver) (body : Block) (length : Nat) :
    d.refill body length
      = d.refill ((d.refill body length).sendbuf d.cursors.bufpos) buffSize := by
  unfold Driver.refill
  dsimp only
  rw [Function.update_self, Block.copy_full]

theorem drive_refill (y : System) (body : Block) {length : Nat} (hlen : length ≤ buffSize) :
    y.drive top (.refill body length) = y.drive top (.refill
      ((y.client.driver.refill body length).sendbuf y.client.driver.cursors.bufpos) buffSize) := by
  have hclient : y.client.refill body length = y.client.refill
      ((y.client.driver.refill body length).sendbuf y.client.driver.cursors.bufpos) buffSize := by
    unfold Client.refill
    rw [← refill_stored]
    simp only [hlen, and_true, Nat.le_refl]
  simp only [System.drive, Client.step, hclient]
  rfl

/-- The driver reads a datagram of ftpc. -/
theorem inv_readBlock (h : Inv file name buf t) (hlen : ∀ d ∈ t.ftpc.sent, d.length ≤ buffSize)
    (hstep : t.readBlock top = some t') : Inv file name buf t' := by
  unfold readBlock at hstep
  split at hstep
  · cases hstep
  · rename_i d hd
    have hdlen := hlen d (List.mem_of_getElem? hd)
    rw [List.take_of_length_le hdlen] at hstep
    dsimp only at hstep
    rcases Option.map_eq_some_iff.mp hstep with ⟨y, hy, rfl⟩
    rcases Option.map_eq_some_iff.mp hy with ⟨⟨c', out⟩, hc, rfl⟩
    cases Client.step_cases top t.system.client c' _ out hc with
    | refilled body length hphase hguard hle =>
        dsimp only [System.filledAfter, System.sentAfter, System.packetsAfter] at hy ⊢
        -- The slot that the datagram has been read into.
        let slot := (t.system.client.driver.refill (Block.receive d) d.length).sendbuf
          t.system.client.driver.cursors.bufpos
        have hpre : d <+: slot.bytes := by
          simp only [slot, Driver.refill, Function.update_self]
          exact Block.prefix_copy_receive _ hdlen
        refine ⟨h.sent, ?_, fun k s hk => ?_, fun b hb hagree => ?_, h.taken_le, h.after⟩
        · rw [List.length_append, h.read]
          rfl
        · rcases Nat.lt_or_ge k t.stored.length with hlt | hge
          · rw [List.getElem?_append_left hlt] at hk
            exact h.stored k s hk
          · rw [List.getElem?_append_right hge, List.getElem?_singleton] at hk
            split at hk
            · rename_i hzero
              cases hk
              have hkd : k = t.stored.length := by omega
              exact ⟨d, hkd ▸ hd, hpre⟩
            · cases hk
        · -- For a transfer whose next block is that slot, this is its step.
          have hold := h.sound b hb fun n s hn => hagree n s (by
            rw [List.getElem?_append_left (List.getElem?_eq_some_iff.mp hn).1]
            exact hn)
          have hnext : b t.system.filled = slot := hagree _ slot (by
            rw [← h.read, List.getElem?_concat_length])
          refine System.sound_step hb top t.system .block _ hold
            (System.careful_block b t.system) ?_
          change t.system.drive top (.refill (b t.system.filled) buffSize) = _
          rw [hnext, ← hy]
          exact (drive_refill t.system (Block.receive d) hdlen).symm

/-- Any other step of the transport. -/
theorem inv_system (h : Inv file name buf t) (e : SystemEvent)
    (hok : t.system.Careful (fun _ => Block.zero) e) (hstep : t.step top (.system e) = some t') :
    Inv file name buf t' := by
  by_cases he : e = .block
  · rw [he] at hstep
    cases hstep
  · have hmap : t.step top (.system e)
        = (t.system.step (fun _ => Block.zero) top e).map fun y => { t with system := y } := by
      cases e with
      | block => exact absurd rfl he
      | _ => rfl
    rw [hmap] at hstep
    rcases Option.map_eq_some_iff.mp hstep with ⟨y, hy, rfl⟩
    refine ⟨h.sent, ?_, h.stored, fun b hb hagree => ?_, ?_, h.after⟩
    · rw [h.read, ← System.filled_step he hy]
    · rw [System.step_eq_of_ne_block b he] at hy
      exact System.sound_step hb top t.system e y (h.sound b hb hagree)
        (System.careful_of_ne_block b he hok) hy
    · exact Nat.le_trans h.taken_le (System.passed_step hy).length_le

/-- A round of ftps that receives a part of the file, padded, writes the next
    bytes of the file, as many as are left of what was announced. -/
theorem written_chunk (file : List UInt8) (a j : Nat) (d : List UInt8) (ha : a ≤ file.length)
    (hj : buffSize * j < a) (hd : Padded (chunk file j) d) :
    file.take (min (buffSize * j) a) ++ d.take (a - buffSize * j)
      = file.take (min (buffSize * (j + 1)) a) := by
  have hlen : (chunk file j).length = min buffSize (file.length - buffSize * j) := by
    unfold chunk
    rw [List.length_take, List.length_drop]
  -- What is written of the datagram is not padding.
  have htake : d.take (a - buffSize * j)
      = (file.drop (buffSize * j)).take (min buffSize (a - buffSize * j)) := by
    have hmin : d.take (a - buffSize * j) = d.take (min buffSize (a - buffSize * j)) := by
      rw [Nat.min_comm, ← List.take_take, List.take_of_length_le (Nat.le_of_eq hd.2)]
    rcases hd.1 with ⟨pad, hpad⟩
    rw [hmin, ← hpad, List.take_append_of_le_length (by omega), chunk, List.take_take,
      Nat.min_eq_left (Nat.min_le_left _ _)]
  rw [htake, Nat.min_eq_left (Nat.le_of_lt hj), ← List.take_add]
  congr 1
  rw [Nat.mul_succ]
  omega

/-- ftps reads the file information, which comes first. -/
theorem inv_information (h : Inv file name (header file name) t) (hblocks : BlocksNonzero file)
    (hname : ∀ c ∈ name, c ≠ 0) (hpos : 1 ≤ name.length) (hlen : name.length ≤ 19)
    (hstart : t.ftps = .start) (hstep : t.receive = some t') :
    Inv file name (header file name) t' := by
  have hafter := h.after
  rw [hstart] at hafter
  have htaken : t.taken = 0 := hafter
  unfold receive at hstep
  rw [hstart, htaken] at hstep
  dsimp only at hstep
  split at hstep
  · cases hstep
  · rename_i p hp
    rcases h.passed hblocks (length_header file hlen) (header_nonzero file hname hpos) 0 p hp with
      ⟨d, hd, hpad⟩
    rcases h.sent with ⟨m, heq, hm⟩
    rw [heq, List.getElem?_cons_zero, Option.some.injEq] at hd
    -- It is as long as a slot, so nothing is padded.
    have hsame : d = p := hpad.1.eq_of_length (by rw [hpad.2, ← hd, length_header file hlen])
    rw [Block.receive_bytes hpad.2, ← hsame, ← hd, header,
      readInformation_eq _ (length_strncpy _) hname (by omega)] at hstep
    cases hstep
    refine ⟨h.sent, h.read, h.stored, h.sound, ?_, rfl, 0, rfl, ?_, ?_⟩
    · exact (List.getElem?_eq_some_iff.mp hp).1
    · dsimp only
      rw [Nat.mul_zero, Int.natCast_zero, Int.sub_zero]
      rfl
    · rw [Nat.mul_zero, Nat.zero_min, List.take_zero]

/-- What is passed on behind the file information are the parts of the file,
    padded. -/
theorem Inv.passed_chunk (h : Inv file name buf t) (hblocks : BlocksNonzero file)
    (hbuf : buf.length = buffSize) (hnz : ∃ c ∈ buf, c ≠ 0) {j : Nat} {p : List UInt8}
    (hp : t.system.passed[j + 1]? = some p) : Padded (chunk file j) p := by
  rcases h.passed hblocks hbuf hnz (j + 1) p hp with ⟨d, hd, hpad⟩
  rcases h.sent with ⟨m, heq, hm⟩
  rw [heq, List.getElem?_cons_succ, List.getElem?_map, Option.map_eq_some_iff] at hd
  rcases hd with ⟨k, hk, rfl⟩
  rcases List.getElem?_eq_some_iff.mp hk with ⟨hlt, rfl⟩
  rw [List.getElem_range] at hpad
  exact hpad

/-- A round of the loop of ftps. -/
theorem inv_round (h : Inv file name (header file name) t) (hblocks : BlocksNonzero file)
    (hsize : file.length < 2 ^ 31) (hname : ∀ c ∈ name, c ≠ 0) (hpos : 1 ≤ name.length)
    (hlen : name.length ≤ 19) {name' : List UInt8} {size : Int} {written : List UInt8}
    (hrec : t.ftps = .receiving name' size written) (hstep : t.receive = some t') :
    Inv file name (header file name) t' := by
  have hann : 0 ≤ announced file.length ∧ announced file.length ≤ file.length :=
    announced_le (by omega) (by omega)
  have hafter := h.after
  rw [hrec] at hafter
  rcases hafter with ⟨rfl, j, htaken, hsz, hwritten⟩
  unfold receive at hstep
  rw [hrec] at hstep
  dsimp only at hstep
  by_cases hmore : 0 < size
  · cases hdrop : t.system.passed.drop t.taken with
    | nil =>
        -- There is no datagram, and `RECV` waits.
        have hwait : Ftps.step ⟨size, [], written⟩ = .inl ⟨size, [], written⟩ := if_pos hmore
        rw [hdrop, hwait] at hstep
        cases hstep
        have hle := List.drop_eq_nil_iff.mp hdrop
        have htk := h.taken_le
        refine ⟨h.sent, h.read, h.stored, h.sound, ?_, rfl, j, ?_, hsz, hwritten⟩
        · dsimp only
          omega
        · dsimp only [List.length_nil]
          omega
    | cons p ds =>
        have hp : t.system.passed[j + 1]? = some p := by
          rw [← htaken, ← Nat.add_zero t.taken, ← List.getElem?_drop, hdrop]
          rfl
        have hrest := congrArg List.length hdrop
        rw [List.length_drop, List.length_cons] at hrest
        have hpad := h.passed_chunk hblocks (length_header file hlen)
          (header_nonzero file hname hpos) hp
        rw [hdrop, Ftps.step_cons hmore (Nat.le_of_eq hpad.2)] at hstep
        cases hstep
        refine ⟨h.sent, h.read, h.stored, h.sound, ?_, rfl, j + 1, ?_, ?_, ?_⟩
        · dsimp only
          omega
        · dsimp only
          omega
        · dsimp only
          rw [hsz, hpad.2, Nat.mul_succ]
          omega
        · dsimp only
          rw [hwritten, show size.toNat = (announced file.length).toNat - buffSize * j by omega]
          exact written_chunk file _ j p (by omega) (by omega) hpad
  · -- All that was announced has been written.
    rw [Ftps.step, if_neg hmore] at hstep
    cases hstep
    refine ⟨h.sent, h.read, h.stored, h.sound, h.taken_le, rfl, ?_⟩
    dsimp only
    rw [hwritten, Nat.min_eq_right (by omega)]

/-- A step of ftps. -/
theorem inv_receive (h : Inv file name (header file name) t) (hblocks : BlocksNonzero file)
    (hsize : file.length < 2 ^ 31) (hname : ∀ c ∈ name, c ≠ 0) (hpos : 1 ≤ name.length)
    (hlen : name.length ≤ 19) (hstep : t.receive = some t') :
    Inv file name (header file name) t' := by
  cases hphase : t.ftps with
  | start => exact inv_information h hblocks hname hpos hlen hphase hstep
  | receiving name' size written =>
      exact inv_round h hblocks hsize hname hpos hlen hphase hstep
  | finished name' written =>
      -- The loop has ended.
      unfold receive at hstep
      rw [hphase] at hstep
      cases hstep

/-- Every careful step keeps the invariant. -/
theorem inv_step (hblocks : BlocksNonzero file) (hsize : file.length < 2 ^ 31)
    (hname : ∀ c ∈ name, c ≠ 0) (hpos : 1 ≤ name.length) (hlen : name.length ≤ 19)
    (e : FileEvent) (h : Inv file name (header file name) t) (hok : t.Careful e)
    (hstep : t.step top e = some t') : Inv file name (header file name) t' := by
  have hsent := h.sent_nonzero hblocks (length_header file hlen) (header_nonzero file hname hpos)
  cases e with
  | ftpc => exact inv_sendBlock h hstep
  | block => exact inv_readBlock h (fun d hd => (hsent d hd).1) hstep
  | system e => exact inv_system h e (hok e rfl) hstep
  | ftps => exact inv_receive h hblocks hsize hname hpos hlen hstep

theorem init_eq (sendbuf : Int → Block) (cell : Heap) (start : Timeval)
    (hname : ∀ c ∈ name, c ≠ 0) (hlen : name.length ≤ 19) :
    init file name sendbuf cell start = some
      { ftpc := { file := file, sent := [header file name] },
        system := System.init sendbuf cell start, stored := [], taken := 0, ftps := .start } := by
  unfold init
  rw [fileInformation_eq _ hname (by omega)]
  rfl

theorem inv_init (file name : List UInt8) (sendbuf : Int → Block) (cell : Heap) (start : Timeval) :
    Inv file name (header file name)
      { ftpc := { file := file, sent := [header file name] },
        system := System.init sendbuf cell start, stored := [], taken := 0, ftps := .start } where
  sent := ⟨0, rfl, fun k hk => absurd hk (Nat.not_lt_zero k)⟩
  read := rfl
  stored := nofun
  sound := fun b _ _ => Or.inr ⟨0, 0, [], System.going_init b sendbuf cell start⟩
  taken_le := Nat.le_refl 0
  after := rfl

theorem Inv.writes (h : Inv file name buf t) (hsize : file.length < 2 ^ 31) :
    t.ftps.Writes file name := by
  have hafter := h.after
  have hann : 0 ≤ announced file.length ∧ announced file.length ≤ file.length :=
    announced_le (by omega) (by omega)
  cases hphase : t.ftps with
  | start => trivial
  | receiving name' size written =>
      rw [hphase] at hafter
      rcases hafter with ⟨hn, j, -, -, hw⟩
      have hshort : written.length ≤ (announced file.length).toNat := by
        rw [hw]
        exact (List.length_take_le _ _).trans (Nat.min_le_right _ _)
      exact ⟨hn, hw ▸ List.take_prefix _ _, hshort⟩
  | finished name' written =>
      rw [hphase] at hafter
      rcases hafter with ⟨hn, hw⟩
      refine ⟨hn, hw, ?_⟩
      rw [hw, ← announced_eq_iff (by omega) (by omega), List.take_eq_self_iff]
      omega

end FileTransfer

/-- In every run in which the steps of the transport are careful, ftps writes
    the file under its name, in order, up to the size that is announced. It ends
    with the whole file exactly if the size survives `strncpy`. -/
theorem file_arrives (file name : List UInt8) (hsize : file.length < 2 ^ 31)
    (hname : ∀ c ∈ name, c ≠ 0) (hpos : 1 ≤ name.length) (hlen : name.length ≤ 19)
    (hblocks : BlocksNonzero file) (top : Int) (sendbuf : Int → Block) (cell : Heap)
    (start : Timeval) :
    ∃ t₀, FileTransfer.init file name sendbuf cell start = some t₀ ∧
      ∀ (es : List FileEvent) (t : FileTransfer),
        Machine.Meets (FileTransfer.step top) FileTransfer.Careful t₀ es →
        Machine.run (FileTransfer.step top) t₀ es = some t → t.ftps.Writes file name := by
  refine ⟨_, FileTransfer.init_eq sendbuf cell start hname hlen, fun es t hes hrun => ?_⟩
  have hinv := Machine.run_induction
    (fun s e s' h hok hs => FileTransfer.inv_step hblocks hsize hname hpos hlen e h hok hs) es _ t
    (FileTransfer.inv_init file name sendbuf cell start) hes hrun
  exact hinv.writes hsize

/-- ftpc sends a file of one byte, the client sends two frames, and the second
    one is delivered before the first. -/
def oneByteEvents : List FileEvent :=
  [.ftpc, .system (.client .select), .block, .system (.client .noAck),
    .system (.client (.send ⟨0, 0⟩)), .system (.client .select), .block, .system (.client .noAck),
    .system (.client (.send ⟨0, 0⟩)), .system (.packet 0), .system (.packet 1), .ftps, .ftps, .ftps]

/-- A step that is careful and can be seen to be: it is none of the transport, or
    it delivers a packet, or it is a plain step of the client, or it sends out of
    a window that does not cross slot 63. -/
def FileTransfer.Plain (t : FileTransfer) : FileEvent → Prop
  | .system (.client (.send _)) => ¬ t.system.client.driver.cursors.Overdrawn
  | .system (.client e) => System.plain e = true
  | .system (.ack _ _) => False
  | _ => True

instance (t : FileTransfer) (e : FileEvent) : Decidable (t.Plain e) := by
  unfold FileTransfer.Plain
  split <;> exact inferInstance

theorem FileTransfer.careful_of_plain (t : FileTransfer) (e : FileEvent) (h : t.Plain e) :
    t.Careful e := by
  rintro e' rfl
  cases e' with
  | block => exact System.careful_block _ _
  | packet i => exact System.careful_packet _ _ i
  | ack i now => cases h
  | client e =>
      cases e with
      | send now => exact System.careful_client _ _ _ ⟨fun _ _ _ => h, nofun, nofun⟩
      | _ => exact System.careful_plain _ _ _ h

theorem file_arrives_one :
    ∃ t₀ t, FileTransfer.init [7] [97] (fun _ => Block.single 1)
        (fun _ => ⟨0, ⟨0, 0⟩, none, none⟩) ⟨0, 0⟩ = some t₀ ∧
      Machine.run (FileTransfer.step 65) t₀ oneByteEvents = some t ∧
      t.ftps = .finished [97] [7] ∧ t.ftps.Writes [7] [97] := by
  have hname : ∀ c ∈ [97], c ≠ (0 : UInt8) := by simp
  have hblocks : BlocksNonzero [7] := by
    intro k hk
    have hk0 : k = 0 := by
      simp only [List.length_cons, List.length_nil, buffSize] at hk
      omega
    subst hk0
    exact ⟨7, List.mem_cons_self, by decide⟩
  rcases file_arrives [7] [97] (by decide) hname (by decide) (by decide) hblocks 65
    (fun _ => Block.single 1) (fun _ => ⟨0, ⟨0, 0⟩, none, none⟩) ⟨0, 0⟩ with ⟨t₀, h0, harr⟩
  cases (FileTransfer.init_eq _ _ _ hname (by decide)).symm.trans h0
  have hrun : (Machine.run (FileTransfer.step 65)
      { ftpc := { file := [7], sent := [header [7] [97]] },
        system := System.init (fun _ => Block.single 1) (fun _ => ⟨0, ⟨0, 0⟩, none, none⟩) ⟨0, 0⟩,
        stored := [], taken := 0, ftps := .start } oneByteEvents).map (fun t => t.ftps)
      = some (.finished [97] [7]) := by
    decide +kernel
  have hplain : Machine.Meets (FileTransfer.step 65) FileTransfer.Plain
      { ftpc := { file := [7], sent := [header [7] [97]] },
        system := System.init (fun _ => Block.single 1) (fun _ => ⟨0, ⟨0, 0⟩, none, none⟩) ⟨0, 0⟩,
        stored := [], taken := 0, ftps := .start } oneByteEvents := by
    decide +kernel
  rcases Option.map_eq_some_iff.mp hrun with ⟨t, ht, hphase⟩
  refine ⟨_, t, h0, ht, hphase, harr oneByteEvents t ?_ ht⟩
  exact Machine.meets_mono FileTransfer.careful_of_plain hplain

end Cse5462
