import Cse5462.Lib.Bytes
import Cse5462.Tcpd.Command
import Cse5462.Tcpd.Head

/-!
# The File Information Block

The first block of a transfer. `ftpc` puts the size of the file into its first
four bytes and the name behind them, and `ftps` takes them out again before it
opens the file that it receives into.

`ftps` copies the size with `memcpy`. `ftpc` copies it with `strncpy`, although
the four bytes of an `int` are no string: what is above a zero byte is lost. The
size survives exactly if no zero byte of it is below a non-zero one, so a file
of 256 bytes is announced as empty.

## Main definitions

* `strlen`: The length of a string, if the array holds its end.
* `fileInformation`: The block that `ftpc` builds.
* `readInformation`: What `ftps` reads out of a block.
* `FileInformationSurvives`: The size and the name arrive.

## Theorems

* `strncpy_eq_self_iff`: When `strncpy` copies everything.
* `fileInformation_eq`: The block of a name that fits.
* `readInformation_eq`: Such a block read back.
* `file_information_survives_iff`: The sizes that survive.
-/

namespace Cse5462

/-- `FILE_NAME_SIZE`. -/
def fileNameSize : Nat := 20

/-- `FILE_BYTES_SIZE`. -/
def fileBytesSize : Nat := 4

/-- `strlen` of the string at the start of an array; `none` if the array ends
    before the string does. -/
def strlen : List UInt8 → Option Nat
  | [] => none
  | b :: bs => if b = 0 then some 0 else (strlen bs).map (· + 1)

/-- The block that `ftpc` builds for a file of `size` bytes whose name is given
    as `name` on the command line. -/
def fileInformation (size : Int) (name : List UInt8) : Option (List UInt8) :=
  let filename := Bytes.put (Bytes.zeros fileNameSize) 0 (strncpy (name.take fileNameSize))
  -- A name of 20 bytes leaves no room for its end.
  (strlen filename).map fun n =>
    let buf := Bytes.put (Bytes.zeros buffSize) 0 (strncpy (idBytes size))
    Bytes.put buf fileBytesSize (strncpy (filename.take n))

/-- What `ftps` reads out of a block: the size and the name. -/
def readInformation (buf : List UInt8) : Option (Int × List UInt8) :=
  let size := idOfBytes (Bytes.slice buf 0 fileBytesSize)
  (strlen (buf.drop fileBytesSize)).bind fun n =>
    let bytes := Bytes.slice buf fileBytesSize (min n fileNameSize)
    let filename := Bytes.put (Bytes.zeros fileNameSize) 0 bytes
    (strlen filename).map fun n => (size, filename.take n)

/-- The size and the name that `ftpc` announces are those that `ftps` reads. -/
def FileInformationSurvives (size : Int) (name : List UInt8) : Prop :=
  (fileInformation size name).bind readInformation = some (size, name)

theorem length_strncpy (bs : List UInt8) : (strncpy bs).length = bs.length := by
  induction bs with
  | nil => rfl
  | cons b bs ih =>
      unfold strncpy
      split
      · rw [List.length_cons, List.length_cons, List.length_replicate]
      · rw [List.length_cons, List.length_cons, ih]

/-- `strncpy` copies everything exactly if no zero byte is before a non-zero
    one. -/
theorem strncpy_eq_self_iff (bs : List UInt8) :
    strncpy bs = bs ↔ bs.Pairwise fun a b => a = 0 → b = 0 := by
  induction bs with
  | nil => exact ⟨fun _ => List.Pairwise.nil, fun _ => rfl⟩
  | cons b bs ih =>
      unfold strncpy
      rw [List.pairwise_cons, ← ih]
      by_cases hb : b = 0
      · -- All that follows a zero byte has to be zero.
        rw [if_pos hb, hb, List.cons.injEq]
        constructor
        · rintro ⟨-, hzero⟩
          have hall : ∀ c ∈ bs, c = 0 := by
            intro c hc
            rw [← hzero] at hc
            exact List.eq_of_mem_replicate hc
          refine ⟨fun c hc _ => hall c hc, ih.mpr (List.pairwise_of_forall_mem_list ?_)⟩
          exact fun c _ c' hc' _ => hall c' hc'
        · rintro ⟨hall, -⟩
          exact ⟨rfl, (List.eq_replicate_of_mem fun c hc => hall c hc rfl).symm⟩
      · rw [if_neg hb, List.cons.injEq]
        exact ⟨fun h => ⟨fun c _ h0 => absurd h0 hb, h.2⟩, fun h => ⟨rfl, h.2⟩⟩

/-- A string without zero bytes is copied as it is. -/
theorem strncpy_of_nonzero {bs : List UInt8} (h : ∀ b ∈ bs, b ≠ 0) : strncpy bs = bs :=
  (strncpy_eq_self_iff bs).mpr
    (List.pairwise_of_forall_mem_list fun a ha _ _ h0 => absurd h0 (h a ha))

theorem strlen_append {bs : List UInt8} (h : ∀ b ∈ bs, b ≠ 0) (rest : List UInt8) :
    strlen (bs ++ 0 :: rest) = some bs.length := by
  induction bs with
  | nil => rfl
  | cons b bs ih =>
      rw [List.cons_append, strlen, if_neg (h b List.mem_cons_self),
        ih fun c hc => h c (List.mem_cons_of_mem b hc)]
      rfl

/-- A string copied to the start of a clear array that is longer. -/
theorem put_zeros (bs : List UInt8) (n : Nat) :
    Bytes.put (Bytes.zeros n) 0 bs = bs ++ List.replicate (n - bs.length) 0 := by
  unfold Bytes.put Bytes.zeros
  rw [List.take_zero, List.nil_append, Nat.zero_add, List.drop_replicate]

theorem strlen_put_zeros {bs : List UInt8} (h : ∀ b ∈ bs, b ≠ 0) (n : Nat) (hn : bs.length < n) :
    strlen (Bytes.put (Bytes.zeros n) 0 bs) = some bs.length := by
  rw [put_zeros, show n - bs.length = n - bs.length - 1 + 1 by omega, List.replicate_succ]
  exact strlen_append h _

variable {name : List UInt8}

/-- The block of a name that fits. -/
theorem fileInformation_eq (size : Int) (hname : ∀ b ∈ name, b ≠ 0) (hlen : name.length < 20) :
    fileInformation size name
      = some (strncpy (idBytes size) ++ (name ++ List.replicate (996 - name.length) 0)) := by
  have htake : name.take fileNameSize = name := List.take_of_length_le (by
    unfold fileNameSize
    omega)
  have hsize : (strncpy (idBytes size)).length = 4 := length_strncpy _
  unfold fileInformation
  dsimp only
  rw [htake, strncpy_of_nonzero hname, strlen_put_zeros hname fileNameSize hlen, Option.map_some,
    put_zeros name, List.take_left, strncpy_of_nonzero hname, put_zeros]
  unfold Bytes.put fileBytesSize
  rw [List.take_left' hsize, List.drop_append, List.drop_of_length_le (by omega), hsize,
    List.nil_append, List.drop_replicate, List.append_assoc,
    show buffSize - 4 - (4 + name.length - 4) = 996 - name.length by
      unfold buffSize
      omega]

/-- Such a block read back: the name is right, the size is what its four bytes
    say. -/
theorem readInformation_eq (bs : List UInt8) (hbs : bs.length = 4) (hname : ∀ b ∈ name, b ≠ 0)
    (hlen : name.length < 20) :
    readInformation (bs ++ (name ++ List.replicate (996 - name.length) 0))
      = some (idOfBytes bs, name) := by
  have hend : List.replicate (996 - name.length) (0 : UInt8)
      = 0 :: List.replicate (995 - name.length) 0 := by
    rw [show 996 - name.length = 995 - name.length + 1 by omega, List.replicate_succ]
  unfold readInformation Bytes.slice fileBytesSize
  dsimp only
  rw [List.drop_zero, List.take_left' hbs, List.drop_left' hbs, hend, strlen_append hname,
    Option.bind_some, Nat.min_eq_left (by unfold fileNameSize; omega), List.take_left,
    strlen_put_zeros hname fileNameSize hlen, Option.map_some, put_zeros, List.take_left]

/-- An `int` as four bytes, lowest first, is the number in little-endian
    order. -/
theorem idBytes_eq (n : Int) : idBytes n = Bytes.leInt 4 n := by
  have hbyte : ∀ (m : Int) (k : Nat), m % 256 = k % 256 → UInt8.ofInt m = UInt8.ofNat k :=
      fun m k hm => by
    unfold UInt8.ofInt
    refine UInt8.toNat_inj.mp ?_
    rw [UInt8.toNat_ofNat', UInt8.toNat_ofNat']
    omega
  unfold idBytes Bytes.leInt
  simp only [Bytes.le, List.cons.injEq, and_true]
  refine ⟨hbyte _ _ ?_, hbyte _ _ ?_, hbyte _ _ ?_, hbyte _ _ ?_⟩ <;> omega

theorem idOfBytes_eq {bs : List UInt8} (hbs : bs.length = 4) :
    idOfBytes bs = Bytes.ofLeInt bs := by
  have hfold : bs.foldr (fun b n => (b.toNat : Int) + 2 ^ 8 * n) 0 = (Bytes.ofLe bs : Int) := by
    clear hbs
    induction bs with
    | nil => rfl
    | cons b bs ih =>
        rw [List.foldr_cons, ih, Bytes.ofLe]
        push_cast
        rfl
  unfold idOfBytes Bytes.ofLeInt
  rw [hfold, hbs]
  rfl

/-- An `int` that is copied whole is read as it was. -/
theorem idOfBytes_idBytes {n : Int} (h0 : -2 ^ 31 ≤ n) (h : n < 2 ^ 31) :
    idOfBytes (idBytes n) = n := by
  rw [idOfBytes_eq rfl, idBytes_eq]
  exact Bytes.ofLeInt_leInt 4 n (by omega) (by omega)

/-- The size that is read is the size that was written exactly if all of its
    bytes are. -/
theorem idOfBytes_strncpy_iff (size : Int) (h0 : -2 ^ 31 ≤ size) (h : size < 2 ^ 31) :
    idOfBytes (strncpy (idBytes size)) = size ↔ strncpy (idBytes size) = idBytes size := by
  have hlen : (strncpy (idBytes size)).length = 4 := length_strncpy _
  constructor
  · intro heq
    rw [idOfBytes_eq hlen] at heq
    have hback := Bytes.leInt_ofLeInt (strncpy (idBytes size))
    rw [hlen, heq, ← idBytes_eq] at hback
    exact hback.symm
  · intro heq
    rw [heq]
    exact idOfBytes_idBytes h0 h

theorem ofInt_eq_zero_iff (n : Int) : UInt8.ofInt n = 0 ↔ n % 256 = 0 := by
  unfold UInt8.ofInt
  rw [← UInt8.toNat_inj, UInt8.toNat_ofNat', UInt8.toNat_zero]
  omega

/-- Above a zero byte of the size there are only zero bytes. -/
def ZerosOnTop (size : Int) : Prop := ∀ k < 4, size / 256 ^ k % 256 = 0 → size < 256 ^ k

theorem pairwise_idBytes_iff (size : Int) (h0 : 0 ≤ size) (h : size < 2 ^ 31) :
    (idBytes size).Pairwise (fun a b => a = 0 → b = 0) ↔ ZerosOnTop size := by
  unfold idBytes ZerosOnTop
  simp only [List.pairwise_cons, List.mem_cons, List.not_mem_nil, or_false, forall_eq_or_imp,
    forall_eq, ofInt_eq_zero_iff, List.Pairwise.nil, false_implies, implies_true, and_true]
  constructor
  · intro hp k hk hz
    rcases show k = 0 ∨ k = 1 ∨ k = 2 ∨ k = 3 by omega with rfl | rfl | rfl | rfl <;> omega
  · intro hz
    have hz0 := hz 0 (by decide)
    have hz1 := hz 1 (by decide)
    have hz2 := hz 2 (by decide)
    omega

/-- For every size and every name of 1 to 19 bytes, what `ftps` reads is what
    `ftpc` announces exactly if no zero byte of the size is below a non-zero
    one. -/
theorem file_information_survives_iff (size : Int) (name : List UInt8) (h0 : 0 ≤ size)
    (h : size < 2 ^ 31) (hname : ∀ b ∈ name, b ≠ 0) (hpos : 1 ≤ name.length)
    (hlen : name.length ≤ 19) : FileInformationSurvives size name ↔ ZerosOnTop size := by
  unfold FileInformationSurvives
  rw [fileInformation_eq size hname (by omega), Option.bind_some,
    readInformation_eq _ (length_strncpy _) hname (by omega), Option.some.injEq, Prod.mk.injEq,
    and_iff_left rfl, idOfBytes_strncpy_iff size (by omega) h, strncpy_eq_self_iff,
    pairwise_idBytes_iff size h0 h]

/-- A file of 65793 bytes, whose size has three bytes that are not zero. -/
theorem file_information_survives_65793 :
    FileInformationSurvives 65793 [97, 46, 99] :=
  (file_information_survives_iff 65793 [97, 46, 99] (by decide) (by decide) (by simp) (by decide)
    (by decide)).mpr (by unfold ZerosOnTop; decide)

/-- A file of 256 bytes is announced as one of none. -/
theorem file_information_lost :
    (fileInformation 256 [97]).bind readInformation = some (0, [97]) ∧
      ¬ FileInformationSurvives 256 [97] := by
  have hname : ∀ b ∈ [97], b ≠ (0 : UInt8) := by simp
  have hread : (fileInformation 256 [97]).bind readInformation = some (0, [97]) := by
    rw [fileInformation_eq 256 hname (by decide), Option.bind_some,
      readInformation_eq _ (length_strncpy _) hname (by decide)]
    decide
  refine ⟨hread, ?_⟩
  intro h
  have heq := hread.symm.trans h
  exact absurd heq (by decide)

end Cse5462
