import Mathlib.Data.List.Induction
import Mathlib.Order.MinMax
import Mathlib.Tactic.Tauto

/-!
# Splitting a Trace into Retransmissions

The first loop of `get_seq.py`. It goes through the lines of a `tcpdump` trace
and writes the time and the sequence number of every line that has one into
`retransmission.data` or `normal.data`, by comparing the number with the highest
one so far.

A segment repeats data if its own side has already sent that sequence number or
a higher one. The script keeps a single maximum for both sides of the connection,
and a number that equals the maximum does not count as below it, so it is wrong
in two ways: a side that lags behind the other one appears to repeat what it
sends for the first time, and a repetition of the highest number passes as new.
`splits_iff` says that these are the only two.

A line comes here parsed, and a time is whatever `str` can print. What is said of
a line is said of it with the lines `before` it.

## Main definitions

* `Line`: A line of the trace, parsed.
* `Split`: The variables of the loop, with the contents of both files.
* `split`: The loop.
* `Writes`: Into which file a line goes.
* `Earlier`: Which sequence numbers a side has used.
* `Splits`: The files are split as their names say.

## Theorems

* `lt_maxSeq_iff`: The maximum is that of both directions.
* `existsUnique_writes`: A line with a number goes into one file.
* `splits_iff`: When the files are split as their names say.
-/

namespace Cse5462

namespace Proj2

/-- The direction of a segment. -/
inductive Direction where
  | forth
  | back
  deriving DecidableEq, Repr

/-- The other direction. -/
def Direction.other : Direction → Direction
  | .forth => .back
  | .back => .forth

/-- A line of the trace. Not every segment has a sequence number. -/
structure Line (τ : Type*) where
  time : τ
  direction : Direction
  seq : Option Nat
  deriving DecidableEq, Repr

/-- The two files that are written. -/
inductive Output where
  | retransmission
  | normal
  deriving DecidableEq, Repr

/-- The variables of the loop. -/
structure Split where
  maxSeq : Nat
  foutRe : String
  foutNo : String
  deriving DecidableEq, Repr

namespace Split

/-- The contents of a file. -/
def file (s : Split) : Output → String
  | .retransmission => s.foutRe
  | .normal => s.foutNo

/-- The file for a sequence number. -/
def output (s : Split) (newSeq : Nat) : Output :=
  if newSeq < s.maxSeq then .retransmission else .normal

end Split

variable {τ : Type*} (str : τ → String)

/-- What is written for a line. -/
def entry (timeVal : τ) (newSeq : Nat) : String :=
  str timeVal ++ " " ++ toString newSeq ++ "\n"

/-- The loop at one line. -/
def Split.line (s : Split) (l : Line τ) : Split :=
  match l.seq with
  | none => s
  | some newSeq =>
      let s' :=
        if newSeq < s.maxSeq then { s with foutRe := s.foutRe ++ entry str l.time newSeq }
        else { s with foutNo := s.foutNo ++ entry str l.time newSeq }
      { s' with maxSeq := max newSeq s.maxSeq }

/-- The loop over all lines, with both files opened anew. -/
def split (lines : List (Line τ)) : Split :=
  lines.foldl (Split.line str) { maxSeq := 0, foutRe := "", foutNo := "" }

/-- The line `l` after `before` appends `text` to the file `o`, and nothing to
    the other one. -/
def Writes (before : List (Line τ)) (l : Line τ) (text : String) (o : Output) : Prop :=
  (split str (before ++ [l])).file o = (split str before).file o ++ text ∧
    ∀ o', o' ≠ o → (split str (before ++ [l])).file o' = (split str before).file o'

/-- Some line in `before` of the direction `d` has a sequence number with `P`. -/
def Earlier (before : List (Line τ)) (d : Direction) (P : Nat → Prop) : Prop :=
  ∃ e ∈ before, e.direction = d ∧ ∃ m, e.seq = some m ∧ P m

/-- Every line with a sequence number is written, at its turn, to one of the two
    files, and it is `retransmission.data` exactly if the same direction has used
    that number or a higher one before. Other lines are not written. -/
def Splits (lines : List (Line τ)) : Prop :=
  ∀ before l after, lines = before ++ l :: after →
    (l.seq = none → ∀ o, (split str (before ++ [l])).file o = (split str before).file o) ∧
    ∀ n, l.seq = some n → (∃! o, Writes str before l (entry str l.time n) o) ∧
      (Writes str before l (entry str l.time n) .retransmission ↔
        Earlier before l.direction (n ≤ ·))

/-- The number `n` is new in its direction, and below one of the other direction. -/
def Lagging (before : List (Line τ)) (d : Direction) (n : Nat) : Prop :=
  Earlier before d.other (n < ·) ∧ ¬ Earlier before d (n ≤ ·)

/-- The number `n` is not new in its direction, and there is none above it in
    either. -/
def Level (before : List (Line τ)) (d : Direction) (n : Nat) : Prop :=
  Earlier before d (n = ·) ∧ ∀ d', ¬ Earlier before d' (n < ·)

theorem split_concat (before : List (Line τ)) (l : Line τ) :
    split str (before ++ [l]) = (split str before).line str l := by
  rw [split, List.foldl_append, List.foldl_cons, List.foldl_nil, split]

theorem line_none {l : Line τ} (s : Split) (hseq : l.seq = none) : s.line str l = s := by
  unfold Split.line
  rw [hseq]

theorem maxSeq_line {l : Line τ} {n : Nat} (s : Split) (hseq : l.seq = some n) :
    (s.line str l).maxSeq = max n s.maxSeq := by
  unfold Split.line
  rw [hseq]

theorem earlier_concat_none {before : List (Line τ)} {l : Line τ} (hseq : l.seq = none)
    (d : Direction) (P : Nat → Prop) : Earlier (before ++ [l]) d P ↔ Earlier before d P := by
  simp only [Earlier, List.mem_append, List.mem_singleton, or_and_right, exists_or,
    exists_eq_left, hseq, reduceCtorEq, false_and, exists_false, and_false, or_false]

theorem earlier_concat_some {before : List (Line τ)} {l : Line τ} {m : Nat}
    (hseq : l.seq = some m) (d : Direction) (P : Nat → Prop) :
    Earlier (before ++ [l]) d P ↔ Earlier before d P ∨ l.direction = d ∧ P m := by
  simp only [Earlier, List.mem_append, List.mem_singleton, or_and_right, exists_or,
    exists_eq_left, hseq, Option.some.injEq, exists_eq_left']

/-- The one maximum is over both directions. -/
theorem lt_maxSeq_iff (lines : List (Line τ)) (n : Nat) :
    n < (split str lines).maxSeq ↔ ∃ d, Earlier lines d (n < ·) := by
  -- Induction on the trace, from its end.
  induction lines using List.reverseRecOn with
  | nil => simp [split, Earlier]
  | append_singleton before l ih =>
      rw [split_concat]
      cases hseq : l.seq with
      | none =>
          rw [line_none str _ hseq, ih]
          simp only [earlier_concat_none hseq]
      | some m =>
          rw [maxSeq_line str _ hseq, lt_max_iff, ih]
          simp only [earlier_concat_some hseq, exists_or, exists_eq_left']
          exact or_comm

/-- Both directions, seen from one of them. -/
theorem exists_direction_iff (P : Direction → Prop) (d : Direction) :
    (∃ d', P d') ↔ P d ∨ P d.other := by
  constructor
  · rintro ⟨d', h⟩
    cases d <;> cases d' <;> simp only [Direction.other, h, true_or, or_true]
  · rintro (h | h)
    · exact ⟨d, h⟩
    · exact ⟨d.other, h⟩

/-- What is written is never nothing. -/
theorem append_entry_ne (s : String) (t : τ) (n : Nat) : s ++ entry str t n ≠ s := by
  intro h
  have hlen := congrArg String.length h
  simp only [entry, String.length_append] at hlen
  have hspace : " ".length = 1 := rfl
  omega

theorem file_line_output {l : Line τ} {n : Nat} (s : Split) (hseq : l.seq = some n) :
    (s.line str l).file (s.output n) = s.file (s.output n) ++ entry str l.time n := by
  by_cases hlt : n < s.maxSeq
  · simp only [Split.output, Split.line, hseq, hlt, if_true, Split.file]
  · simp only [Split.output, Split.line, hseq, hlt, if_false, Split.file]

theorem file_line_of_ne {l : Line τ} {n : Nat} {o : Output} (s : Split) (hseq : l.seq = some n)
    (ho : o ≠ s.output n) : (s.line str l).file o = s.file o := by
  by_cases hlt : n < s.maxSeq
  · cases o with
    | retransmission => exact absurd (if_pos hlt).symm ho
    | normal => simp only [Split.line, hseq, hlt, if_true, Split.file]
  · cases o with
    | retransmission => simp only [Split.line, hseq, hlt, if_false, Split.file]
    | normal => exact absurd (if_neg hlt).symm ho

/-- The file is chosen by the maximum. -/
theorem writes_iff {l : Line τ} {n : Nat} (before : List (Line τ)) (hseq : l.seq = some n)
    (o : Output) :
    Writes str before l (entry str l.time n) o ↔ o = (split str before).output n := by
  unfold Writes
  rw [split_concat]
  constructor
  · intro h
    by_contra hne
    rw [file_line_of_ne str _ hseq hne] at h
    exact append_entry_ne str _ _ _ h.1.symm
  · rintro rfl
    exact ⟨file_line_output str _ hseq, fun o' => file_line_of_ne str _ hseq⟩

/-- A line with a sequence number is written into one file, whichever it is. -/
theorem existsUnique_writes {l : Line τ} {n : Nat} (before : List (Line τ))
    (hseq : l.seq = some n) : ∃! o, Writes str before l (entry str l.time n) o :=
  ⟨_, (writes_iff str before hseq _).mpr rfl, fun o ho => (writes_iff str before hseq o).mp ho⟩

theorem writes_retransmission_iff {l : Line τ} {n : Nat} (before : List (Line τ))
    (hseq : l.seq = some n) : Writes str before l (entry str l.time n) .retransmission ↔
      ∃ d, Earlier before d (n < ·) := by
  rw [writes_iff str before hseq, ← lt_maxSeq_iff str, Split.output]
  split
  · rename_i hlt
    exact iff_of_true rfl hlt
  · rename_i hge
    exact iff_of_false Output.noConfusion hge

/-- A number that has been reached in a direction has been used or exceeded. -/
theorem earlier_le_iff (before : List (Line τ)) (d : Direction) (n : Nat) :
    Earlier before d (n ≤ ·) ↔ Earlier before d (n = ·) ∨ Earlier before d (n < ·) := by
  simp only [Earlier, Nat.le_iff_lt_or_eq, and_or_left, exists_or, or_comm]

/-- A line is put right exactly if its number neither lags behind the other
    direction nor repeats the highest one. -/
theorem right_iff {l : Line τ} {n : Nat} (before : List (Line τ)) (hseq : l.seq = some n) :
    (Writes str before l (entry str l.time n) .retransmission ↔
      Earlier before l.direction (n ≤ ·)) ↔
    ¬ Lagging before l.direction n ∧ ¬ Level before l.direction n := by
  rw [writes_retransmission_iff str before hseq]
  unfold Lagging Level
  rw [← not_exists, exists_direction_iff _ l.direction, earlier_le_iff]
  tauto

/-- A trace is split into repeated and new segments exactly if no line with a
    sequence number is the first of its direction to come that far while the
    other direction is further, or repeats the highest number of both. -/
theorem splits_iff (lines : List (Line τ)) :
    Splits str lines ↔
      ∀ before l after n, lines = before ++ l :: after → l.seq = some n →
        ¬ Lagging before l.direction n ∧ ¬ Level before l.direction n := by
  constructor
  · intro h before l after n hlines hseq
    exact (right_iff str before hseq).mp ((h before l after hlines).2 n hseq).2
  · intro h before l after hlines
    refine ⟨fun hseq o => ?_, fun n hseq => ⟨existsUnique_writes str before hseq, ?_⟩⟩
    · rw [split_concat, line_none str _ hseq]
    · exact (right_iff str before hseq).mpr (h before l after n hlines hseq)

/-- A segment that is sent again while it is the highest is called normal, and
    the reset of a side that has sent next to nothing a retransmission. -/
theorem not_splits_trace :
    ¬ Splits id [⟨"1.006447", .forth, some 18225⟩, ⟨"1.086623", .forth, some 18225⟩] ∧
    ¬ Splits id [⟨"0.062784", .back, some 0⟩, ⟨"19.967247", .forth, some 665177⟩,
      ⟨"20.031295", .back, some 1⟩] := by
  constructor
  · intro h
    have hline := (h [_] _ [] rfl).2 18225 rfl
    refine ((right_iff id _ rfl).mp hline.2).2 ⟨?_, ?_⟩
    · exact ⟨_, List.mem_singleton_self _, rfl, 18225, rfl, rfl⟩
    · rintro d ⟨e, he, _, m, hm, hlt⟩
      rw [List.mem_singleton.mp he, Option.some.injEq] at hm
      omega
  · intro h
    have hline := (h [_, _] _ [] rfl).2 1 rfl
    refine ((right_iff id _ rfl).mp hline.2).1 ⟨?_, ?_⟩
    · exact ⟨_, List.mem_cons_of_mem _ (List.mem_singleton_self _), rfl, 665177, rfl, by omega⟩
    · rintro ⟨e, he, hd, m, hm, hle⟩
      rcases List.mem_cons.mp he with rfl | he
      · rw [Option.some.injEq] at hm
        omega
      · rw [List.mem_singleton.mp he] at hd
        exact Direction.noConfusion hd

end Proj2

end Cse5462
