import Mathlib.Data.List.DropRight
import Mathlib.Data.List.Induction

/-!
# The Trace of the Congestion Window

The simulation of `myproj2.cc` writes a line for every change of the congestion
window, and the second loop of `get_seq.py` reads the lines back and splits them
into `slowstart.cwnd` and `congection_avoid.cwnd`. A window that has doubled, that
is zero or that is one segment of 536 bytes counts as slow start.

A line has three columns: the time, the old window and the new one. The script
reads the first and the last, and takes the old window from the line before. The
tracer is called with the value that is replaced, so the two agree from the
second line on, and on the first one the script starts from zero as the window
does. `cwnd_round_trip` says that what is written is read back and split by its
own columns, whatever the windows are.

What grows by one segment at a time has doubled only once. Of a slow start of any
length nothing but the first two changes is counted as slow start.

Text is a list of characters, and a time is whatever `print` writes of it.

## Main definitions

* `cwndChange`: The line that the tracer writes.
* `readlines`, `int`: The built-in functions of the script.
* `Phases.line`, `phases`: The loop over the lines.
* `Chained`: Every change starts from where the one before ended.

## Theorems

* `int_toDigits`: A number that was printed is read back.
* `readlines_append`: A line that was written is read back.
* `cwnd_round_trip`: What the script makes of the file of the tracer.
* `slow_start_lost`: What it makes of a window that grows by segments.
-/

namespace Cse5462

namespace Proj2

/-- A call of the tracer: the time, and the window before and after. -/
structure Change (τ : Type*) where
  now : τ
  oldCwnd : Nat
  newCwnd : Nat
  deriving DecidableEq, Repr

/-- The lines of a file, each with its end. -/
def readlines : List Char → List (List Char)
  | [] => []
  | c :: cs =>
      if c = '\n' then [c] :: readlines cs
      else
        match readlines cs with
        | [] => [[c]]
        | l :: ls => (c :: l) :: ls

/-- White space. -/
def isSpace (c : Char) : Bool := c = ' ' || ('\t' ≤ c && c ≤ '\r')

/-- A string without the white space at both of its ends. -/
def strip (s : List Char) : List Char := (s.dropWhile isSpace).rdropWhile isSpace

/-- The number that some digits stand for. -/
def ofDigits (s : List Char) : Option Nat :=
  if s ≠ [] ∧ s.all Char.isDigit then some (Nat.ofDigitChars 10 s 0) else none

/-- The number in a string, which may have a sign and white space around it. -/
def int (s : List Char) : Option Int :=
  match strip s with
  | [] => none
  | c :: cs =>
      -- One sign at most, and nothing between it and the digits.
      if c = '-' then (ofDigits cs).map fun n => -(n : Int)
      else if c = '+' then (ofDigits cs).map fun n => (n : Int)
      else (ofDigits (c :: cs)).map fun n => (n : Int)

/-- A number as it is printed. -/
def str (n : Int) : List Char :=
  if n < 0 then '-' :: Nat.toDigits 10 n.natAbs else Nat.toDigits 10 n.natAbs

/-- The variables of the loop, with the contents of both files. -/
structure Phases where
  oldCwnd : Int
  foutSl : List Char
  foutCa : List Char
  deriving DecidableEq, Repr

namespace Phases

/-- The first line is compared with a window of zero. -/
def init : Phases := { oldCwnd := 0, foutSl := [], foutCa := [] }

/-- The loop at one line, unless it raises an exception. -/
def line (s : Phases) (lineCwnd : List Char) : Option Phases :=
  match lineCwnd.splitOn '\t' with
  | timeCwnd :: _ :: node :: _ =>
      (int node).map fun newCwnd =>
        -- The old window of the line is not looked at, only that of the line before.
        let text := timeCwnd ++ ' ' :: (str newCwnd ++ ['\n'])
        if newCwnd = 2 * s.oldCwnd ∨ newCwnd = 0 ∨ newCwnd = 536 then
          { oldCwnd := newCwnd, foutSl := s.foutSl ++ text, foutCa := s.foutCa }
        else { oldCwnd := newCwnd, foutSl := s.foutSl, foutCa := s.foutCa ++ text }
  | _ => none

end Phases

/-- The loop over the lines of a file. -/
def phases (fin : List Char) : Option Phases := (readlines fin).foldlM Phases.line Phases.init

variable {τ : Type*} (print : τ → List Char)

/-- The line that the tracer writes. -/
def cwndChange (c : Change τ) : List Char :=
  print c.now ++
    '\t' :: (Nat.toDigits 10 c.oldCwnd ++ '\t' :: (Nat.toDigits 10 c.newCwnd ++ ['\n']))

/-- The line that the script writes. -/
def cwndEntry (c : Change τ) : List Char :=
  print c.now ++ ' ' :: (Nat.toDigits 10 c.newCwnd ++ ['\n'])

/-- Each change starts from where the one before ended, and the first one from
    `old`. -/
def Chained : Nat → List (Change τ) → Prop
  | _, [] => True
  | old, c :: cs => c.oldCwnd = old ∧ Chained c.newCwnd cs

/-- A change that is counted as slow start. -/
def Change.SlowStart (c : Change τ) : Prop :=
  c.newCwnd = 2 * c.oldCwnd ∨ c.newCwnd = 0 ∨ c.newCwnd = 536

instance (c : Change τ) : Decidable c.SlowStart := by
  unfold Change.SlowStart
  exact inferInstance

/-- What is printed of a time is a column of a line. -/
def Column (s : List Char) : Prop := '\t' ∉ s ∧ '\n' ∉ s

theorem readlines_append {l : List Char} (hl : '\n' ∉ l) (rest : List Char) :
    readlines (l ++ '\n' :: rest) = (l ++ ['\n']) :: readlines rest := by
  induction l with
  | nil => exact if_pos rfl
  | cons c cs ih =>
      rw [List.mem_cons, not_or] at hl
      rw [List.cons_append, readlines, if_neg (Ne.symm hl.1), ih hl.2]
      rfl

theorem isDigit_toDigits (n : Nat) : ∀ c ∈ Nat.toDigits 10 n, c.isDigit = true :=
  fun _ hc => Nat.isDigit_of_mem_toDigits (by decide) (by decide) hc

theorem not_mem_toDigits (n : Nat) {c : Char} (hc : c.isDigit = false) : c ∉ Nat.toDigits 10 n :=
  fun hmem => Bool.false_ne_true (hc.symm.trans (isDigit_toDigits n c hmem))

theorem isSpace_of_isDigit {c : Char} (hc : c.isDigit = true) : isSpace c = false := by
  unfold Char.isDigit at hc
  rw [Bool.and_eq_true, decide_eq_true_eq, decide_eq_true_eq] at hc
  rw [← Bool.not_eq_true]
  unfold isSpace
  rw [Bool.or_eq_true, Bool.and_eq_true, decide_eq_true_eq, decide_eq_true_eq, decide_eq_true_eq]
  rintro (rfl | ⟨-, hle⟩)
  · exact absurd hc.1 (by decide)
  · exact absurd (UInt32.le_trans hc.1 (Char.le_def.mp hle)) (by decide)

theorem ofDigits_toDigits (n : Nat) : ofDigits (Nat.toDigits 10 n) = some n := by
  unfold ofDigits
  rw [if_pos ⟨Nat.toDigits_ne_nil, List.all_eq_true.mpr (isDigit_toDigits n)⟩,
    Nat.ofDigitChars_ten_toDigits]

/-- White space behind a number is stripped, and nothing else. -/
theorem strip_toDigits (n : Nat) : strip (Nat.toDigits 10 n ++ ['\n']) = Nat.toDigits 10 n := by
  have hspace : ∀ c ∈ Nat.toDigits 10 n, isSpace c = false :=
    fun c hc => isSpace_of_isDigit (isDigit_toDigits n c hc)
  -- The first character is a digit, and so is the last one before the newline.
  have hfront : (Nat.toDigits 10 n ++ ['\n']).dropWhile isSpace = Nat.toDigits 10 n ++ ['\n'] := by
    cases hn : Nat.toDigits 10 n with
    | nil => exact absurd hn Nat.toDigits_ne_nil
    | cons c cs =>
        rw [hn] at hspace
        rw [List.cons_append, List.dropWhile_cons, hspace c List.mem_cons_self]
        rfl
  unfold strip
  rw [hfront, List.rdropWhile_concat_pos _ _ _ (by decide), List.rdropWhile_eq_self_iff]
  intro hne
  rw [hspace _ (List.getLast_mem hne)]
  exact Bool.false_ne_true

theorem int_toDigits (n : Nat) : int (Nat.toDigits 10 n ++ ['\n']) = some (n : Int) := by
  unfold int
  rw [strip_toDigits]
  have hof := ofDigits_toDigits n
  have hdigits := isDigit_toDigits n
  cases hn : Nat.toDigits 10 n with
  | nil => exact absurd hn Nat.toDigits_ne_nil
  | cons c cs =>
      rw [hn] at hof hdigits
      have hc := hdigits c List.mem_cons_self
      dsimp only
      -- A digit is no sign.
      rw [if_neg (by rintro rfl; exact absurd hc (by decide)),
        if_neg (by rintro rfl; exact absurd hc (by decide)), hof]
      rfl

theorem str_natCast (n : Nat) : str (n : Int) = Nat.toDigits 10 n := by
  unfold str
  rw [if_neg (Int.not_lt.mpr (Int.natCast_nonneg n)), Int.natAbs_natCast]

/-- A line that was written, and what the loop makes of it. -/
theorem line_cwndChange {print : τ → List Char} (hprint : ∀ t, Column (print t)) (c : Change τ)
    (s : Phases) (hs : s.oldCwnd = c.oldCwnd) :
    s.line (cwndChange print c) = some
      { oldCwnd := c.newCwnd
        foutSl := s.foutSl ++ if c.SlowStart then cwndEntry print c else []
        foutCa := s.foutCa ++ if c.SlowStart then [] else cwndEntry print c } := by
  have hsplit : (cwndChange print c).splitOn '\t'
      = [print c.now, Nat.toDigits 10 c.oldCwnd, Nat.toDigits 10 c.newCwnd ++ ['\n']] := by
    have hnew : '\t' ∉ Nat.toDigits 10 c.newCwnd ++ ['\n'] := by
      rw [List.mem_append, List.mem_singleton, not_or]
      exact ⟨not_mem_toDigits _ (by decide), by decide⟩
    unfold cwndChange
    rw [List.splitOn_append_cons_self_of_not_mem (hprint c.now).1,
      List.splitOn_append_cons_self_of_not_mem (not_mem_toDigits _ (by decide)),
      List.splitOn_eq_singleton hnew]
  -- The window that the script remembers is the old one of the line.
  have hslow : ((c.newCwnd : Int) = 2 * s.oldCwnd ∨ (c.newCwnd : Int) = 0 ∨ (c.newCwnd : Int) = 536)
      ↔ c.SlowStart := by
    unfold Change.SlowStart
    omega
  unfold Phases.line
  rw [hsplit]
  dsimp only
  rw [int_toDigits, Option.map_some, str_natCast]
  by_cases h : c.SlowStart
  · rw [if_pos (hslow.mpr h), if_pos h, if_pos h, List.append_nil]
    rfl
  · rw [if_neg (mt hslow.mp h), if_neg h, if_neg h, List.append_nil]
    rfl

/-- A file that was written is read line by line. -/
theorem readlines_flatMap {print : τ → List Char} (hprint : ∀ t, Column (print t))
    (cs : List (Change τ)) :
    readlines (cs.flatMap (cwndChange print)) = cs.map (cwndChange print) := by
  induction cs with
  | nil => rfl
  | cons c cs ih =>
      have hline : ∃ l, '\n' ∉ l ∧ cwndChange print c = l ++ ['\n'] := by
        refine ⟨print c.now ++ '\t' :: (Nat.toDigits 10 c.oldCwnd ++ '\t' ::
          Nat.toDigits 10 c.newCwnd), ?_, by simp [cwndChange]⟩
        simp [(hprint c.now).2, not_mem_toDigits]
      rcases hline with ⟨l, hl, heq⟩
      rw [List.flatMap_cons, List.map_cons, heq, List.append_assoc, List.singleton_append,
        readlines_append hl, ih]

/-- The loop over the lines of some changes. -/
theorem foldlM_line {print : τ → List Char} (hprint : ∀ t, Column (print t)) (cs : List (Change τ))
    (old : Nat) (hchain : Chained old cs) (s : Phases) (hs : s.oldCwnd = old) :
    ∃ last, (cs.map (cwndChange print)).foldlM Phases.line s = some
      { oldCwnd := last
        foutSl := s.foutSl ++ (cs.filter fun c => c.SlowStart).flatMap (cwndEntry print)
        foutCa := s.foutCa ++ (cs.filter fun c => ¬ c.SlowStart).flatMap (cwndEntry print) } := by
  -- Induction on the changes; the window that is remembered links one to the next.
  induction cs generalizing old s with
  | nil =>
      refine ⟨s.oldCwnd, ?_⟩
      simp only [List.map_nil, List.foldlM_nil, List.filter_nil, List.flatMap_nil, List.append_nil]
      rfl
  | cons c cs ih =>
      rcases hchain with ⟨hold, hchain⟩
      have hline := line_cwndChange hprint c s (hs.trans (by rw [hold]))
      rcases ih c.newCwnd hchain
        { oldCwnd := c.newCwnd
          foutSl := s.foutSl ++ if c.SlowStart then cwndEntry print c else []
          foutCa := s.foutCa ++ if c.SlowStart then [] else cwndEntry print c } rfl
        with ⟨last, hlast⟩
      refine ⟨last, ?_⟩
      rw [List.map_cons, List.foldlM_cons, hline, Option.bind_eq_bind, Option.bind_some, hlast]
      by_cases h : c.SlowStart
      · simp [h, List.append_assoc]
      · simp [h, List.append_assoc]

/-- Whatever the windows are, as long as each change starts from where the one
    before ended, the script reads the file of the tracer to its end and puts
    every change, in order, into one of its two files, as the columns of its own
    line say. -/
theorem cwnd_round_trip (print : τ → List Char) (hprint : ∀ t, Column (print t))
    (cs : List (Change τ)) (hchain : Chained 0 cs) :
    ∃ last, phases (cs.flatMap (cwndChange print)) = some
      { oldCwnd := last
        foutSl := (cs.filter fun c => c.SlowStart).flatMap (cwndEntry print)
        foutCa := (cs.filter fun c => ¬ c.SlowStart).flatMap (cwndEntry print) } := by
  rcases foldlM_line hprint cs 0 hchain Phases.init rfl with ⟨last, h⟩
  refine ⟨last, ?_⟩
  unfold phases
  rw [readlines_flatMap hprint]
  exact h

/-- A time that is printed as so many strokes. -/
def strokes (t : Nat) : List Char := List.replicate t '|'

theorem column_strokes (t : Nat) : Column (strokes t) := by
  unfold Column strokes
  simp [List.mem_replicate]

/-- The window grows from nothing by two segments, and is then halved. -/
theorem cwnd_round_trip_three :
    ∃ last, phases ([⟨1, 0, 536⟩, ⟨2, 536, 1072⟩, ⟨3, 1072, 536⟩].flatMap (cwndChange strokes))
      = some { oldCwnd := last, foutSl := "| 536\n|| 1072\n||| 536\n".toList, foutCa := [] } :=
  cwnd_round_trip strokes column_strokes [⟨1, 0, 536⟩, ⟨2, 536, 1072⟩, ⟨3, 1072, 536⟩]
    ⟨rfl, rfl, rfl, trivial⟩

/-- The changes of a slow start that has come to `old`, at some times: the window
    grows by one segment at each of them. -/
def slowStart : Nat → List τ → List (Change τ)
  | _, [] => []
  | old, t :: ts => ⟨t, old, old + 536⟩ :: slowStart (old + 536) ts

theorem chained_slowStart : ∀ (old : Nat) (times : List τ), Chained old (slowStart old times)
  | _, [] => trivial
  | old, _ :: ts => ⟨rfl, chained_slowStart (old + 536) ts⟩

/-- Above two segments, one more does not double the window. -/
theorem not_slowStart (old : Nat) (hold : 536 < old) (times : List τ) :
    ∀ c ∈ slowStart old times, ¬ c.SlowStart := by
  induction times generalizing old with
  | nil => exact List.forall_mem_nil _
  | cons t ts ih =>
      refine List.forall_mem_cons.mpr ⟨?_, ih (old + 536) (by omega)⟩
      unfold Change.SlowStart
      dsimp only
      omega

/-- However long a slow start lasts, the script counts its first two changes as
    slow start and all the others as congestion avoidance. -/
theorem slow_start_lost (print : τ → List Char) (hprint : ∀ t, Column (print t))
    (times : List τ) :
    ∃ last, phases ((slowStart 0 times).flatMap (cwndChange print)) = some
      { oldCwnd := last
        foutSl := ((slowStart 0 times).take 2).flatMap (cwndEntry print)
        foutCa := ((slowStart 0 times).drop 2).flatMap (cwndEntry print) } := by
  rcases foldlM_line hprint (slowStart 0 times) 0 (chained_slowStart 0 times) Phases.init rfl
    with ⟨last, h⟩
  refine ⟨last, ?_⟩
  unfold phases
  rw [readlines_flatMap hprint, h]
  -- The first change starts from 0 and the second doubles; from then on none does.
  rcases times with _ | ⟨t, _ | ⟨t', ts⟩⟩
  · rfl
  · rfl
  · have hrest := not_slowStart (0 + 536 + 536) (by decide) ts
    have hfirst : Change.SlowStart ⟨t, 0, 0 + 536⟩ := Or.inr (Or.inr rfl)
    have hsecond : Change.SlowStart ⟨t', 0 + 536, 0 + 536 + 536⟩ := Or.inl rfl
    have hnone : (slowStart (0 + 536 + 536) ts).filter (fun c => c.SlowStart) = [] :=
      List.filter_eq_nil_iff.mpr fun c hc => by simpa using hrest c hc
    have hall : (slowStart (0 + 536 + 536) ts).filter (fun c => ¬ c.SlowStart)
        = slowStart (0 + 536 + 536) ts :=
      List.filter_eq_self.mpr fun c hc => by simpa using hrest c hc
    unfold slowStart slowStart
    rw [List.filter_cons_of_pos (by simpa using hfirst), List.filter_cons_of_pos
      (by simpa using hsecond), List.filter_cons_of_neg (by simpa using hfirst),
      List.filter_cons_of_neg (by simpa using hsecond), hnone, hall]
    rfl

/-- A slow start of three changes. -/
theorem slow_start_lost_three :
    ∃ last, phases ((slowStart 0 [1, 2, 3]).flatMap (cwndChange strokes)) = some
      { oldCwnd := last
        foutSl := "| 536\n|| 1072\n".toList
        foutCa := "||| 1608\n".toList } :=
  slow_start_lost strokes column_strokes [1, 2, 3]

end Proj2

end Cse5462
