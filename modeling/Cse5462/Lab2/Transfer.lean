import Cse5462.Ftp.FileTransfer
import Cse5462.Lab2.Receive
import Mathlib.Data.List.DropRight

/-!
# A File over a Stream, from End to End

The whole of the second exercise. ftpc sends the file information in a block of
its own and then the file. ftps waits until it has a whole block, takes the size
and the name out of it, and receives what follows however the stream cuts it.

What ftps ends with does not depend on the cuts. The size is announced whole or
so much too small that no block that `recv` may still return makes up for it, so
the file arrives exactly if no byte of its size is lost.

The name is copied without its end, into an array that ftps has not cleared. The
file is therefore opened under the name with whatever the array held behind it.

## Main definitions

* `behindSlash`: The loop that looks for the last slash.
* `fileInformation`, `readInformation`: The first block, built and read.
* `Ftpc.Sends`, `Ftps.Makes`: What either program does in the whole.

## Theorems

* `drop_behindSlash`: The loop finds the last component of the path.
* `announced_far`: A size that is not announced whole is announced far too small.
* `ends_written`: How much the receive loop writes.
* `received_iff`: What arrives, for every file and every cut of the stream.
-/

namespace Cse5462

namespace Lab2

/-- The last component of a path. -/
def base (path : List UInt8) : List UInt8 := path.rtakeWhile (· ≠ 47)

/-- The loop that goes back through `filename` up to a slash. The result is the
    index behind the slash. -/
def behindSlash (filename : List UInt8) : Nat → Nat
  | 0 => 0
  | t + 1 => if filename[t]? = some 47 then t + 1 else behindSlash filename t

/-- The block that ftpc builds for a file of `size` bytes whose path is given on
    the command line. -/
def fileInformation (size : Int) (path : List UInt8) : Option (List UInt8) :=
  let filename := Bytes.put (Bytes.zeros fileNameSize) 0 (strncpy (path.take fileNameSize))
  -- A path of 20 bytes leaves no room for its end.
  (strlen filename).map fun n =>
    let filename₁ := (filename.take n).drop (behindSlash filename n)
    let buf := Bytes.put (Bytes.zeros buffSize) 0 (strncpy (idBytes size))
    Bytes.put buf fileBytesSize (strncpy filename₁)

/-- What ftps reads out of a block: the size and the name. The array for the name
    holds `memory` before. -/
def readInformation (memory buf : List UInt8) : Option (Int × List UInt8) :=
  let size := idOfBytes (Bytes.slice buf 0 fileBytesSize)
  (strlen (buf.drop fileBytesSize)).bind fun n =>
    let bytes := Bytes.slice buf fileBytesSize (min n fileNameSize)
    let filename := Bytes.put memory 0 (strncpy bytes)
    (strlen filename).map fun n => (size, filename.take n)

/-- ftpc sends these bytes for a file and its path. -/
def Ftpc.Sends (file path bytes : List UInt8) : Prop :=
  ∃ buf sent, fileInformation file.length path = some buf ∧
    Loop.Ends Ftpc.step ⟨file, [buf]⟩ sent ∧ bytes = sent.flatten

/-- Of these bytes, which behind the first block come in these chunks, ftps makes
    a file of that name and contents. -/
def Ftps.Makes (memory bytes : List UInt8) (chunks : List Chunk) (ending : Ending)
    (name written : List UInt8) : Prop :=
  stream chunks = bytes.drop buffSize ∧
    ∃ size, readInformation memory (bytes.take buffSize) = some (size, name) ∧
      Loop.Ends Ftps.step ⟨size, chunks, ending, []⟩ written

/-- The loop finds the last component of the path. -/
theorem drop_behindSlash (path rest : List UInt8) :
    path.drop (behindSlash (path ++ rest) path.length) = base path ∧
      behindSlash (path ++ rest) path.length ≤ path.length := by
  induction path using List.reverseRecOn generalizing rest with
  | nil => exact ⟨rfl, Nat.le_refl 0⟩
  | append_singleton path c ih =>
      rcases ih (c :: rest) with ⟨hdrop, hle⟩
      have hget : (path ++ [c] ++ rest)[path.length]? = some c := by
        rw [List.append_assoc, List.getElem?_append_right (Nat.le_refl _), Nat.sub_self]
        rfl
      rw [List.length_append, List.length_singleton, behindSlash, hget]
      unfold base at hdrop ⊢
      rw [List.rtakeWhile_concat]
      by_cases hc : c = 47
      · rw [if_pos (congrArg some hc), if_neg (by simpa using hc)]
        exact ⟨List.drop_of_length_le (by simp), Nat.le_refl _⟩
      · rw [if_neg (mt Option.some.inj hc), if_pos (by simpa using hc), List.append_assoc,
          List.singleton_append, List.drop_append_of_le_length hle, hdrop]
        exact ⟨rfl, Nat.le_succ_of_le hle⟩

theorem base_suffix (path : List UInt8) : base path <:+ path := List.rtakeWhile_suffix _ path

theorem strlen_append_nonzero {bs : List UInt8} (h : ∀ b ∈ bs, b ≠ 0) (rest : List UInt8) :
    strlen (bs ++ rest) = (strlen rest).map (· + bs.length) := by
  induction bs with
  | nil => exact Option.map_id'.symm
  | cons b bs ih =>
      rw [List.cons_append, strlen, if_neg (h b List.mem_cons_self),
        ih fun c hc => h c (List.mem_cons_of_mem b hc), Option.map_map]
      rfl

/-- An array holds the end of a string exactly if it holds a zero byte. -/
theorem strlen_eq (bs : List UInt8) :
    strlen bs = if 0 ∈ bs then some (Bytes.cString bs).length else none := by
  induction bs with
  | nil => rfl
  | cons b bs ih =>
      unfold Bytes.cString at ih ⊢
      rw [strlen, List.takeWhile_cons]
      by_cases hb : b = 0
      · rw [if_pos hb, if_pos (hb ▸ List.mem_cons_self), if_neg (by simpa using hb)]
        rfl
      · have hmem : 0 ∈ b :: bs ↔ 0 ∈ bs := by simp [Ne.symm hb]
        rw [if_neg hb, ih]
        by_cases h0 : 0 ∈ bs
        · rw [if_pos h0, if_pos (hmem.mpr h0), if_pos (by simpa using hb)]
          rfl
        · rw [if_neg h0, if_neg (mt hmem.mp h0)]
          rfl

variable {path name : List UInt8}

/-- The block of a path that fits. -/
theorem fileInformation_eq (size : Int) (hpath : ∀ b ∈ path, b ≠ 0)
    (hlen : path.length < fileNameSize) :
    fileInformation size path
      = some (strncpy (idBytes size) ++
          (base path ++ List.replicate (4092 - (base path).length) 0)) := by
  have hsize : (strncpy (idBytes size)).length = 4 := length_strncpy _
  have hbase : ∀ b ∈ base path, b ≠ 0 := fun b hb => hpath b ((base_suffix path).subset hb)
  have hle := (base_suffix path).length_le
  unfold fileInformation
  dsimp only
  rw [List.take_of_length_le hlen.le, strncpy_of_nonzero hpath, strlen_put_zeros hpath _ hlen,
    Option.map_some, put_zeros path, List.take_left, (drop_behindSlash path _).1,
    strncpy_of_nonzero hbase, put_zeros]
  unfold Bytes.put fileBytesSize
  rw [List.take_left' hsize, List.drop_append, List.drop_of_length_le (by omega), hsize,
    List.nil_append, List.drop_replicate, List.append_assoc,
    show buffSize - 4 - (4 + (base path).length - 4) = 4092 - (base path).length by
      unfold buffSize
      omega]

/-- A path that does not fit leaves the array without an end. -/
theorem fileInformation_eq_none (size : Int) (hpath : ∀ b ∈ path, b ≠ 0)
    (hlen : fileNameSize ≤ path.length) : fileInformation size path = none := by
  have htake : ∀ b ∈ path.take fileNameSize, b ≠ 0 := fun b hb => hpath b (List.mem_of_mem_take hb)
  have hlength : (path.take fileNameSize).length = fileNameSize := List.length_take_of_le hlen
  have hzero : 0 ∉ path.take fileNameSize := fun h => htake 0 h rfl
  unfold fileInformation
  dsimp only
  rw [strncpy_of_nonzero htake, put_zeros (path.take _), hlength, Nat.sub_self,
    List.replicate_zero, List.append_nil, strlen_eq, if_neg hzero, Option.map_none]

/-- Such a block read back. Behind the name is the string that was in the array. -/
theorem readInformation_eq (memory : List UInt8) {bs : List UInt8} (hbs : bs.length = 4)
    (hname : ∀ b ∈ name, b ≠ 0) (hlen : name.length < fileNameSize) :
    readInformation memory (bs ++ (name ++ List.replicate (4092 - name.length) 0))
      = if 0 ∈ memory.drop name.length
        then some (idOfBytes bs, name ++ Bytes.cString (memory.drop name.length)) else none := by
  have hend : List.replicate (4092 - name.length) (0 : UInt8)
      = 0 :: List.replicate (4091 - name.length) 0 := by
    unfold fileNameSize at hlen
    rw [show 4092 - name.length = 4091 - name.length + 1 by omega, List.replicate_succ]
  unfold readInformation Bytes.slice fileBytesSize
  dsimp only
  rw [List.drop_zero, List.take_left' hbs, List.drop_left' hbs, hend, strlen_append hname,
    Option.bind_some, Nat.min_eq_left hlen.le, List.take_left, strncpy_of_nonzero hname]
  unfold Bytes.put
  rw [List.take_zero, List.nil_append, Nat.zero_add, strlen_append_nonzero hname, strlen_eq]
  by_cases hmem : 0 ∈ memory.drop name.length
  · rw [if_pos hmem, if_pos hmem, Option.map_some, Option.map_some, Nat.add_comm,
      List.take_length_add_append]
    congr 3
    exact (List.prefix_iff_eq_take.mp (List.takeWhile_prefix _)).symm
  · rw [if_neg hmem, if_neg hmem, Option.map_none, Option.map_none]

/-- A size that is not announced whole is announced as zero, or further below
    than a block is long. -/
theorem announced_far {size : Int} (h0 : 0 ≤ size) (h : size < 2 ^ 31)
    (hzeros : ¬ ZerosOnTop size) :
    (announced size ≤ 0 ∧ 0 < size) ∨ announced size + buffSize ≤ size := by
  rw [announced_eq h0 h]
  have hb0 := UInt8.toNat_lt (UInt8.ofInt size)
  have hb1 := UInt8.toNat_lt (UInt8.ofInt (size / 2 ^ 8))
  have hzeros' : ∃ k < 4, size / 256 ^ k % 256 = 0 ∧ 256 ^ k ≤ size := by
    by_contra hnot
    refine hzeros fun k hk hz => ?_
    by_contra hle
    exact hnot ⟨k, hk, hz, Int.not_lt.mp hle⟩
  have hcases : size % 256 = 0 ∧ 0 < size ∨ size / 2 ^ 8 % 256 = 0 ∧ 2 ^ 16 ≤ size ∨
      size / 2 ^ 16 % 256 = 0 ∧ 2 ^ 24 ≤ size := by
    rcases hzeros' with ⟨k, hk, hz, hle⟩
    rcases show k = 0 ∨ k = 1 ∨ k = 2 ∨ k = 3 by omega with rfl | rfl | rfl | rfl <;> omega
  simp only [← ofInt_eq_zero_iff] at hcases
  unfold idBytes buffSize
  -- The lowest byte that is zero cuts off those above it.
  by_cases hz0 : UInt8.ofInt size = 0
  · have hsize : 0 < size := by
      rcases hcases with h | h | h <;> omega
    refine Or.inl ⟨?_, hsize⟩
    rw [strncpy, if_pos hz0, ← List.replicate_succ, ofLe_replicate_zero]
    rfl
  · right
    rw [strncpy, if_neg hz0, Bytes.ofLe]
    by_cases hz1 : UInt8.ofInt (size / 2 ^ 8) = 0
    · rw [strncpy, if_pos hz1, ← List.replicate_succ, ofLe_replicate_zero]
      rcases hcases with h | h | h
      · exact absurd h.1 hz0
      · omega
      · omega
    · rcases hcases with h | h | h
      · exact absurd h.1 hz0
      · exact absurd h.1 hz1
      · rw [strncpy, if_neg hz1, Bytes.ofLe, strncpy, if_pos h.1, ← List.replicate_succ,
          ofLe_replicate_zero]
        omega

/-- What the receive loop writes is a prefix of the stream, and no more than one
    block above the size. -/
theorem ends_written {s : Ftps} {written : List UInt8} (h : Loop.Ends Ftps.step s written) :
    ∃ bytes, written = s.written ++ bytes ∧ bytes <+: stream s.chunks ∧
      (s.size ≤ 0 → bytes = []) ∧ (0 < s.size → bytes.length < s.size + buffSize) := by
  induction h with
  | @done s r h =>
      rcases s with ⟨size, chunks, ending, written⟩
      suffices hr : r = written from
        ⟨[], by rw [hr, List.append_nil], List.nil_prefix, fun _ => rfl, fun h =>
          Int.add_pos_of_pos_of_nonneg h (Int.natCast_nonneg _)⟩
      by_cases hsize : 0 < size
      · cases chunks with
        | cons c cs => cases (Ftps.step_cons hsize c cs ending written).symm.trans h
        | nil =>
            cases ending with
            | closed => cases (Ftps.step_closed hsize written).symm.trans h
            | error =>
                unfold Ftps.step at h
                rw [if_pos hsize] at h
                exact (Sum.inr.inj h).symm
      · unfold Ftps.step at h
        rw [if_neg hsize] at h
        exact (Sum.inr.inj h).symm
  | @more s s' r h _ ih =>
      rcases s with ⟨size, chunks, ending, written⟩
      by_cases hsize : 0 < size
      · cases chunks with
        | cons c cs =>
            cases (Ftps.step_cons hsize c cs ending written).symm.trans h
            rcases ih with ⟨bytes, hr, hpre, hnil, hlt⟩
            have hle := c.le
            refine ⟨c.bytes ++ bytes, by rw [hr, List.append_assoc], ?_,
              fun hnot => absurd hsize (Int.not_lt.mpr hnot), fun _ => ?_⟩
            · rw [stream, List.map_cons, List.flatten_cons]
              exact (List.prefix_append_right_inj _).mpr hpre
            · rw [List.length_append]
              -- The chunk that takes the size to zero or below is the last one.
              rcases Int.lt_or_le 0 (size - c.bytes.length) with hmore | hdone
              · have := hlt hmore
                dsimp only at this ⊢
                omega
              · rw [hnil hdone, List.length_nil]
                dsimp only
                omega
        | nil =>
            cases ending with
            | closed =>
                cases (Ftps.step_closed hsize written).symm.trans h
                exact ih
            | error =>
                unfold Ftps.step at h
                rw [if_pos hsize] at h
                cases h
      · unfold Ftps.step at h
        rw [if_neg hsize] at h
        cases h

/-- Of a file that was announced, what is written is the file exactly if its size
    was announced whole. -/
theorem written_eq_iff {file written : List UInt8} {chunks : List Chunk} {ending : Ending}
    (hsize : file.length < 2 ^ 31) (hstream : stream chunks = file)
    (h : Loop.Ends Ftps.step ⟨announced file.length, chunks, ending, []⟩ written) :
    written <+: file ∧ (written = file ↔ ZerosOnTop file.length) := by
  rcases ends_written h with ⟨bytes, rfl, hpre, hnil, hlt⟩
  dsimp only at hpre hnil hlt
  rw [hstream] at hpre
  refine ⟨hpre, fun heq => ?_, fun hzeros => ?_⟩
  · by_contra hzeros
    rcases announced_far (Int.natCast_nonneg _) (by omega) hzeros with ⟨hle, hpos⟩ | hfar
    · have hlen := congrArg List.length heq
      rw [hnil hle, List.length_nil] at hlen
      omega
    · rcases Int.lt_or_le 0 (announced file.length) with hpos | hle
      · have := hlt hpos
        rw [heq] at this
        omega
      · have hlen := congrArg List.length heq
        have hnonneg := (announced_le (Int.natCast_nonneg file.length) (by omega)).1
        rw [hnil hle, List.length_nil] at hlen
        unfold buffSize at hfar
        omega
  · have hann : announced file.length = file.length :=
      (announced_eq_iff (Int.natCast_nonneg _) (by omega)).mpr hzeros
    rw [hann] at h
    rcases ftps_ends chunks ending file.length (Or.inl (by rw [hstream])) []
      with ⟨bytes', h', -, hall⟩
    rw [Loop.Ends.unique h h', List.nil_append, hall (by rw [hstream]), hstream]

/-- What ftpc sends: the first block and the file. -/
theorem sends_iff {file bytes : List UInt8} (hpath : ∀ b ∈ path, b ≠ 0) :
    Ftpc.Sends file path bytes ↔ path.length < fileNameSize ∧
      bytes = strncpy (idBytes file.length) ++
        (base path ++ List.replicate (4092 - (base path).length) 0) ++ file := by
  rcases sendRound_ends (show 0 < buffSize by decide) file
    [strncpy (idBytes file.length) ++
      (base path ++ List.replicate (4092 - (base path).length) 0)] with ⟨blocks, hends, hflat, -, -⟩
  constructor
  · rintro ⟨buf, sent, hbuf, hsent, rfl⟩
    have hlen : path.length < fileNameSize := by
      by_contra hle
      rw [fileInformation_eq_none _ hpath (Nat.le_of_not_lt hle)] at hbuf
      cases hbuf
    rw [fileInformation_eq _ hpath hlen] at hbuf
    cases hbuf
    refine ⟨hlen, ?_⟩
    rw [Loop.Ends.unique hsent hends, List.flatten_append, List.flatten_singleton, hflat]
  · rintro ⟨hlen, rfl⟩
    refine ⟨_, _, fileInformation_eq _ hpath hlen, hends, ?_⟩
    rw [List.flatten_append, List.flatten_singleton, hflat]

/-- For every file and path, ftpc sends the file if its path is not too long.
    However the stream then cuts it, ftps makes a file of it if there is an end
    for the name in memory; its contents are those of the file exactly if the
    size was announced whole, and its name is followed by what was in memory. -/
theorem received_iff (file path : List UInt8) (hpath : ∀ b ∈ path, b ≠ 0)
    (hsize : file.length < 2 ^ 31) :
    ((∃ bytes, Ftpc.Sends file path bytes) ↔ path.length < fileNameSize) ∧
      ∀ bytes, Ftpc.Sends file path bytes → ∀ memory chunks ending,
        memory.length = fileNameSize → stream chunks = bytes.drop buffSize →
        ((∃ name written, Ftps.Makes memory bytes chunks ending name written) ↔
          0 ∈ memory.drop (base path).length) ∧
        ∀ name written, Ftps.Makes memory bytes chunks ending name written →
          written <+: file ∧ (written = file ↔ ZerosOnTop file.length) ∧
            name = base path ++ Bytes.cString (memory.drop (base path).length) := by
  refine ⟨⟨fun ⟨_, h⟩ => ((sends_iff hpath).mp h).1, fun h => ⟨_, (sends_iff hpath).mpr ⟨h, rfl⟩⟩⟩,
    fun bytes hsends memory chunks ending hmem hstream => ?_⟩
  rcases (sends_iff hpath).mp hsends with ⟨hlen, rfl⟩
  have hbase : ∀ b ∈ base path, b ≠ 0 := fun b hb => hpath b ((base_suffix path).subset hb)
  have hlen' : (base path).length < fileNameSize := (base_suffix path).length_le.trans_lt hlen
  have hblock : (strncpy (idBytes file.length) ++
      (base path ++ List.replicate (4092 - (base path).length) 0)).length = buffSize := by
    rw [List.length_append, length_strncpy, List.length_append, List.length_replicate]
    unfold fileNameSize at hlen'
    unfold idBytes buffSize
    simp only [List.length_cons, List.length_nil]
    omega
  rw [List.drop_left' hblock] at hstream
  have hread := readInformation_eq memory (length_strncpy (idBytes file.length)) hbase
    hlen'
  unfold Ftps.Makes
  rw [List.drop_left' hblock, List.take_left' hblock, hread]
  refine ⟨⟨?_, fun h0 => ?_⟩, ?_⟩
  · rintro ⟨name, written, -, size, hinfo, -⟩
    by_contra h0
    rw [if_neg h0] at hinfo
    cases hinfo
  · have hle := (announced_le (Int.natCast_nonneg file.length) (by omega)).2
    rcases ftps_ends chunks ending (announced file.length) (Or.inl (by rw [hstream]; exact hle)) []
      with ⟨written, hends, -, -⟩
    exact ⟨_, written, hstream, _, if_pos h0, hends⟩
  · rintro name written ⟨-, size, hinfo, hends⟩
    by_cases h0 : 0 ∈ memory.drop (base path).length
    · rw [if_pos h0] at hinfo
      cases hinfo
      rcases written_eq_iff hsize hstream hends with ⟨hpre, hiff⟩
      exact ⟨hpre, hiff, rfl⟩
    · rw [if_neg h0] at hinfo
      cases hinfo

/-- Three bytes from the file `a/b`, into cleared memory. -/
theorem received_three :
    (∃ bytes, Ftpc.Sends [1, 2, 3] [97, 47, 98] bytes) ∧
      ∀ bytes, Ftpc.Sends [1, 2, 3] [97, 47, 98] bytes → ∀ chunks ending name written,
        stream chunks = bytes.drop buffSize →
        Ftps.Makes (Bytes.zeros 20) bytes chunks ending name written →
        name = [98] ∧ written = [1, 2, 3] := by
  have h := received_iff [1, 2, 3] [97, 47, 98] (by simp) (by decide)
  refine ⟨h.1.mpr (by decide), fun bytes hsends chunks ending name written hstream hmakes => ?_⟩
  rcases (h.2 bytes hsends (Bytes.zeros 20) chunks ending rfl hstream).2 name written hmakes
    with ⟨-, hiff, hname⟩
  exact ⟨hname.trans (by decide), hiff.mpr (by unfold ZerosOnTop; decide)⟩

end Lab2

end Cse5462
