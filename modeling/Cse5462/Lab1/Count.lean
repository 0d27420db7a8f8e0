import Cse5462.Lib.Bytes
import Cse5462.Lib.Loop
import Cse5462.Lib.Sequences
import Cse5462.Lib.Word

/-!
# Counting a String in a File

The loop of the first exercise reads a file in chunks of up to 1000 bytes that
end at a newline, counts the search string in each chunk and adds the counts up.
If a full chunk has no match, the file position is moved back by the length of
the string, so that a match that the end of the chunk cuts is found in the next
one.

## Main definitions

* `fgets`: The next chunk.
* `compare`: The matches in a chunk.
* `Count.step`: One round of the loop.
* `Occurs`, `occurrences`: The search string in the file.

## Theorems

* `fgets_cases`: What a chunk is.
* `compare_chunk`: The matches in a chunk as occurrences in the file.
* `Count.step_done`, `Count.step_short`, `Count.step_back`, `Count.step_count`:
  What a round does.
-/

namespace Cse5462

namespace Lab1

open Bytes

/-- `STRLEN`: the size of the buffer for a chunk. -/
def bufLen : Nat := 1001

/-- The bytes up to the first newline, with it. -/
def throughNewline : List UInt8 → List UInt8
  | [] => []
  | b :: bs => if b = 10 then [b] else b :: throughNewline bs

/-- `fgets(str, STRLEN, fin)` at a position of the file. -/
def fgets (file : List UInt8) (pos : Nat) : Option (List UInt8) :=
  let chunk := throughNewline ((file.drop pos).take (bufLen - 1))
  if chunk = [] then none else some chunk

/-- `fseek(fin, offset, SEEK_CUR)`, which fails before the start of the file. -/
def fseek (pos : Nat) (offset : Int) : Nat :=
  if (pos : Int) + offset < 0 then pos else ((pos : Int) + offset).toNat

/-- The inner loop of `compare`: how many characters of `target` are found. -/
def matched : List UInt8 → List UInt8 → Nat
  | a :: str, b :: target => if a = b then matched str target + 1 else 0
  | _, _ => 0

/-- `compare`. -/
def compare (str target : List UInt8) : Nat :=
  (List.range str.length).countP fun i => matched (str.drop i) target = target.length

/-- What the loop works on: the position in the file and the count. -/
structure Count where
  pos : Nat
  count : Int
  deriving DecidableEq, Repr

/-- `int len = strlen(target)`. -/
def len (target : List UInt8) : Int := cInt target.length

/-- One round of the loop. The result is the number that is printed. -/
def Count.step (file target : List UInt8) (s : Count) : Count ⊕ Int :=
  match fgets file s.pos with
  | none => .inr s.count
  | some chunk =>
    let str := cString chunk
    let pos := s.pos + chunk.length
    -- Meant for empty lines, which are a newline.
    if str.length = 1 then .inl { s with pos := pos }
    else
      let c := compare str target
      -- The end of a full chunk is read again only if nothing was found in it.
      .inl
        { pos := if c = 0 ∧ str.length = bufLen - 1 then fseek pos (-len target) else pos
          count := cInt (s.count + c) }

/-- The start of the loop. -/
def Count.start : Count := { pos := 0, count := 0 }

/-- The search string stands at a position. -/
def Occurs (file target : List UInt8) (i : Nat) : Prop := target <+: file.drop i

instance (file target : List UInt8) : DecidablePred (Occurs file target) := fun i =>
  inferInstanceAs (Decidable (target <+: file.drop i))

/-- The number of positions at which the search string stands. -/
def occurrences (file target : List UInt8) : Nat := Nat.count (Occurs file target) file.length

theorem matched_eq_iff (str target : List UInt8) :
    matched str target = target.length ↔ target <+: str := by
  -- Induction along the string; the target runs out first or there is no match.
  induction str generalizing target with
  | nil =>
      cases target with
      | nil => simp [matched]
      | cons b target => simp [matched]
  | cons a str ih =>
      cases target with
      | nil => simp [matched]
      | cons b target =>
          rw [matched, List.length_cons, List.cons_prefix_cons]
          by_cases hab : a = b
          · rw [if_pos hab, Nat.add_right_cancel_iff, ih]
            exact ⟨fun h => ⟨hab.symm, h⟩, fun h => h.2⟩
          · rw [if_neg hab]
            exact ⟨fun h => (Nat.succ_ne_zero _ h.symm).elim, fun h => (hab h.1.symm).elim⟩

/-- `compare` counts the positions at which the target stands. -/
theorem compare_eq_occurrences (str target : List UInt8) :
    compare str target = occurrences str target := by
  unfold compare occurrences Nat.count
  refine List.countP_congr ?_
  intro i _
  rw [decide_eq_true_eq, decide_eq_true_eq, matched_eq_iff]
  rfl

/-- What is read goes on to the end or ends with a newline. -/
theorem throughNewline_eq_take (bs : List UInt8) :
    ∃ n ≤ bs.length, throughNewline bs = bs.take n ∧ (bs ≠ [] → 0 < n)
      ∧ (n = bs.length ∨ bs[n - 1]? = some 10) := by
  induction bs with
  | nil => exact ⟨0, Nat.le_refl _, rfl, fun h => (h rfl).elim, Or.inl rfl⟩
  | cons b bs ih =>
      by_cases hb : b = 10
      · refine ⟨1, by simp, by simp [throughNewline, hb], fun _ => Nat.one_pos, Or.inr ?_⟩
        rw [hb]
        rfl
      · rcases ih with ⟨n, hn, htake, hpos, hend⟩
        refine ⟨n + 1, Nat.succ_le_succ hn, by simp [throughNewline, hb, htake],
          fun _ => Nat.succ_pos n, ?_⟩
        rcases hend with rfl | hend
        · exact Or.inl rfl
        · -- There is a byte before the newline.
          rcases n with _ | n
          · exact Or.inl (by simpa using hpos)
          · exact Or.inr hend

variable {file target chunk : List UInt8} {pos n : Nat}

/-- The chunk at `pos` has `n` bytes. It has fewer than 1000 only at a newline or
    at the end of the file. -/
structure ChunkAt (file : List UInt8) (pos n : Nat) : Prop where
  pos_n : 0 < n
  le : n ≤ 1000
  inside : pos + n ≤ file.length
  eq : fgets file pos = some ((file.drop pos).take n)
  stops : n = 1000 ∨ pos + n = file.length ∨ file[pos + n - 1]? = some 10

/-- At the end of the file there is no chunk, and elsewhere there is one. -/
theorem fgets_cases (file : List UInt8) (pos : Nat) :
    file.length ≤ pos ∧ fgets file pos = none ∨ ∃ n, ChunkAt file pos n := by
  have hbs : ((file.drop pos).take (bufLen - 1)).length = min 1000 (file.length - pos) := by
    rw [List.length_take, List.length_drop]
    rfl
  rcases throughNewline_eq_take ((file.drop pos).take (bufLen - 1)) with ⟨n, hn, htake, hpos, hend⟩
  rw [hbs] at hn hend
  rw [List.take_take, Nat.min_eq_left (show n ≤ bufLen - 1 by unfold bufLen; omega)] at htake
  have hfgets : fgets file pos = if (file.drop pos).take n = [] then none
      else some ((file.drop pos).take n) := by
    unfold fgets
    rw [htake]
  rcases Nat.lt_or_ge pos file.length with hlt | hge
  · -- Before the end of the file at least one byte is read.
    have hn0 : 0 < n := hpos (by rw [← List.length_pos_iff, hbs]; omega)
    have hne : (file.drop pos).take n ≠ [] := by
      rw [← List.length_pos_iff, List.length_take, List.length_drop]
      omega
    refine Or.inr ⟨n, hn0, by omega, by omega, hfgets.trans (if_neg hne), ?_⟩
    rcases hend with hend | hend
    · omega
    · rw [List.getElem?_take, List.getElem?_drop] at hend
      split at hend
      · exact Or.inr (Or.inr (by rwa [Nat.add_sub_assoc hn0]))
      · cases hend
  · refine Or.inl ⟨hge, hfgets.trans (if_pos ?_)⟩
    rw [List.drop_of_length_le hge, List.take_nil]

theorem ChunkAt.length (h : ChunkAt file pos n) : ((file.drop pos).take n).length = n := by
  have := h.inside
  rw [List.length_take, List.length_drop]
  omega

/-- An occurrence in a chunk is one in the file that the chunk holds whole. -/
theorem occurs_chunk_iff (file target : List UInt8) (pos : Nat) {n i : Nat} (hi : i < n) :
    Occurs ((file.drop pos).take n) target i
      ↔ Occurs file target (pos + i) ∧ i + target.length ≤ n := by
  unfold Occurs
  rw [List.drop_take, List.prefix_take_iff, List.drop_drop]
  refine and_congr_right fun _ => ?_
  omega

/-- The matches in a chunk as occurrences in the file. -/
theorem compare_chunk (h : ChunkAt file pos n) (target : List UInt8) :
    compare ((file.drop pos).take n) target
      = Nat.count (fun i => Occurs file target (pos + i) ∧ i + target.length ≤ n) n := by
  rw [compare_eq_occurrences, occurrences, h.length]
  refine List.countP_congr ?_
  intro i hi
  rw [decide_eq_true_eq, decide_eq_true_eq]
  exact occurs_chunk_iff file target pos (List.mem_range.mp hi)

theorem fgets_eq_none (h : file.length ≤ pos) : fgets file pos = none := by
  rcases fgets_cases file pos with ⟨-, hnone⟩ | ⟨n, hn⟩
  · exact hnone
  · have := hn.pos_n
    have := hn.inside
    omega

/-- A round at the end of the file is the last one. -/
theorem Count.step_done {s : Count} (h : file.length ≤ s.pos) :
    Count.step file target s = .inr s.count := by
  unfold Count.step
  rw [fgets_eq_none h]

/-- A round that passes over a chunk of one character. -/
theorem Count.step_short {s : Count} (h : fgets file s.pos = some chunk)
    (hone : (cString chunk).length = 1) :
    Count.step file target s = .inl { s with pos := s.pos + chunk.length } := by
  unfold Count.step
  rw [h]
  exact if_pos hone

/-- A round that finds no match in a full chunk and moves back. -/
theorem Count.step_back {s : Count} (h : fgets file s.pos = some chunk)
    (hfull : (cString chunk).length = 1000) (hzero : compare (cString chunk) target = 0) :
    Count.step file target s = .inl
      { pos := fseek (s.pos + chunk.length) (-len target), count := cInt s.count } := by
  have hone : (cString chunk).length ≠ 1 := by omega
  unfold Count.step
  rw [h]
  dsimp only
  rw [if_neg hone, if_pos ⟨hzero, hfull⟩, hzero, Int.natCast_zero, Int.add_zero]

/-- Every other round counts the matches in its chunk. -/
theorem Count.step_count {s : Count} (h : fgets file s.pos = some chunk)
    (hone : (cString chunk).length ≠ 1)
    (hnot : ¬ (compare (cString chunk) target = 0 ∧ (cString chunk).length = 1000)) :
    Count.step file target s = .inl
      { pos := s.pos + chunk.length
        count := cInt (s.count + compare (cString chunk) target) } := by
  unfold Count.step
  rw [h]
  dsimp only
  rw [if_neg hone, if_neg (show ¬ (_ ∧ _ = bufLen - 1) from hnot)]

end Lab1

end Cse5462
