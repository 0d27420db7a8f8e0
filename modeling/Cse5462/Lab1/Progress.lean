import Cse5462.Lab1.Count

/-!
# Whether the Counting Loop Ends

A round reads at most 1000 bytes and may move back by the length of the search
string. If that is shorter than 1000, every round gets forward. If it is not,
the chunk in which nothing is found is read again and again, unless there is not
as much file before its end, where the seek fails and changes nothing.

## Main definitions

* `readOn`: The loop without the seek.
* `MovesBack`: A chunk that the loop does not get past.

## Theorems

* `terminates_of_short`: A short search string.
* `terminates_of_reads`: A file with no such chunk.
* `not_terminates_of_movesBack`: A search string of the length of a chunk.
* `not_terminates_replicate`: A file on which a long search string loops.
* `terminates_iff`: When the loop ends.
-/

namespace Cse5462

namespace Lab1

open Bytes

/-- The positions of the chunks, if nothing is read twice. -/
def readOn (file : List UInt8) (pos : Nat) : Nat ⊕ Unit :=
  match fgets file pos with
  | none => .inr ()
  | some chunk => .inl (pos + chunk.length)

/-- The chunk at `pos` is full and has no match, and as much as the search
    string is long is before its end. -/
def MovesBack (file target : List UInt8) (pos : Nat) : Prop :=
  ∃ chunk, fgets file pos = some chunk ∧ (cString chunk).length = 1000
    ∧ compare (cString chunk) target = 0 ∧ len target ≤ pos + 1000

variable {file target : List UInt8} {pos n : Nat} {s : Count}

theorem ChunkAt.readOn (h : ChunkAt file pos n) : readOn file pos = .inl (pos + n) := by
  unfold Lab1.readOn
  rw [h.eq]
  dsimp only
  rw [h.length]

/-- What a round does to the position: it goes on behind the chunk, or it moves
    back from the end of a full one. -/
theorem ChunkAt.step_cases (h : ChunkAt file s.pos n) (target : List UInt8) :
    ∃ pos' c, Count.step file target s = .inl ⟨pos', c⟩
      ∧ (pos' = s.pos + n ∨ n = 1000 ∧ pos' = fseek (s.pos + 1000) (-len target)
        ∧ (cString ((file.drop s.pos).take n)).length = 1000
        ∧ compare (cString ((file.drop s.pos).take n)) target = 0) := by
  -- A round passes over the chunk, moves back, or counts and goes on.
  by_cases hone : (cString ((file.drop s.pos).take n)).length = 1
  · refine ⟨_, _, Count.step_short h.eq hone, Or.inl ?_⟩
    rw [h.length]
  · by_cases hback : compare (cString ((file.drop s.pos).take n)) target = 0
        ∧ (cString ((file.drop s.pos).take n)).length = 1000
    · have hle := length_cString_le ((file.drop s.pos).take n)
      have hn := h.le
      rw [h.length, hback.2] at hle
      have hfull : n = 1000 := by omega
      refine ⟨_, _, Count.step_back h.eq hback.2 hback.1, Or.inr ⟨hfull, ?_, hback.2, hback.1⟩⟩
      rw [h.length, hfull]
    · refine ⟨_, _, Count.step_count h.eq hone hback, Or.inl ?_⟩
      rw [h.length]

/-- A round after which the loop goes on has read a chunk. -/
theorem round_cases {s' : Count} (h : Count.step file target s = .inl s') :
    ∃ n, ChunkAt file s.pos n
      ∧ (s'.pos = s.pos + n ∨ n = 1000 ∧ s'.pos = fseek (s.pos + 1000) (-len target)
        ∧ (cString ((file.drop s.pos).take n)).length = 1000
        ∧ compare (cString ((file.drop s.pos).take n)) target = 0) := by
  rcases fgets_cases file s.pos with ⟨hge, -⟩ | ⟨n, hn⟩
  · cases h.symm.trans (Count.step_done hge)
  · rcases hn.step_cases target with ⟨pos', c, hstep, hpos⟩
    rcases Sum.inl.inj (h.symm.trans hstep) with rfl
    exact ⟨n, hn, hpos⟩

/-- A short search string is never moved back over a whole chunk. -/
theorem terminates_of_short (hlen : len target < 1000) (file : List UInt8) :
    Loop.Terminates (Count.step file target) Count.start := by
  refine Loop.terminates_of_variant (fun s => file.length - s.pos) (I := fun _ => True) ?_ trivial
  intro s s' _ h
  refine ⟨trivial, ?_⟩
  rcases round_cases h with ⟨n, hn, hpos⟩
  have hpos0 := hn.pos_n
  have hin := hn.inside
  -- Moving back over fewer bytes than were read still comes forward.
  rcases hpos with heq | ⟨hfull, heq, -⟩
  · omega
  · rw [heq]
    unfold fseek
    split <;> omega

/-- If no chunk is gone back over, the loop reads on. -/
theorem terminates_of_reads
    (hreads : ∀ pos, Loop.Visits (readOn file) 0 pos → ¬ MovesBack file target pos) :
    Loop.Terminates (Count.step file target) Count.start := by
  refine Loop.terminates_of_variant (fun s => file.length - s.pos)
    (I := fun s => Loop.Visits (readOn file) 0 s.pos) ?_ (.refl 0)
  intro s s' hvisit h
  rcases round_cases h with ⟨n, hn, hpos⟩
  have hnext : s'.pos = s.pos + n := by
    rcases hpos with heq | ⟨hn1000, heq, hfull, hzero⟩
    · exact heq
    · -- The seek would go before the start of the file.
      have hlong : (s.pos : Int) + 1000 < len target := by
        by_contra hle
        exact hreads s.pos hvisit ⟨_, hn.eq, hfull, hzero, Int.not_lt.mp hle⟩
      rw [heq, hn1000]
      unfold fseek
      rw [if_pos (by omega)]
  rw [hnext]
  have hpos0 := hn.pos_n
  have hin := hn.inside
  exact ⟨hvisit.snoc hn.readOn, by omega⟩

/-- A round that moves back by as much as it has read stays where it is. -/
theorem step_of_movesBack (hlen : len target = 1000) (h : MovesBack file target s.pos) :
    ∃ c, Count.step file target s = .inl ⟨s.pos, c⟩ := by
  rcases h with ⟨chunk, hchunk, hfull, hzero, -⟩
  have hstep := Count.step_back hchunk hfull hzero
  rcases fgets_cases file s.pos with ⟨-, hnone⟩ | ⟨n, hn⟩
  · rw [hnone] at hchunk
    cases hchunk
  · have hle := length_cString_le chunk
    have hchunk' := hchunk
    rw [hn.eq, Option.some.injEq] at hchunk'
    have hlength := hn.length
    have hn1000 := hn.le
    rw [hchunk'] at hlength
    -- The seek undoes the read.
    have hseek : fseek (s.pos + chunk.length) (-len target) = s.pos := by
      unfold fseek
      rw [hlen, if_neg (by omega)]
      omega
    rw [hseek] at hstep
    exact ⟨_, hstep⟩

/-- With a search string as long as a full chunk, a chunk without a match is
    read again and again, once the loop has read on to it. -/
theorem not_terminates_of_movesBack (hlen : len target = 1000) {a : Nat}
    (hvisit : Loop.Visits (readOn file) a pos) (h : MovesBack file target pos) (c : Int) :
    ¬ Loop.Terminates (Count.step file target) ⟨a, c⟩ := by
  have hstays : ∀ p c, MovesBack file target p →
      ¬ Loop.Terminates (Count.step file target) ⟨p, c⟩ := by
    intro p c hp
    refine Loop.not_terminates_of_invariant (I := fun s => s.pos = p) ?_ rfl
    intro s hs
    rcases step_of_movesBack (s := s) hlen (hs ▸ hp) with ⟨c', hstep⟩
    exact ⟨_, hstep, hs⟩
  -- Induction along the chunks that are read on the way.
  induction hvisit generalizing c with
  | refl a => exact hstays a c h
  | @next a b p hread _ ih =>
      by_cases hback : MovesBack file target a
      · exact hstays a c hback
      · rcases fgets_cases file a with ⟨-, hnone⟩ | ⟨n, hn⟩
        · unfold readOn at hread
          rw [hnone] at hread
          cases hread
        · have hb := Sum.inl.inj (hread.symm.trans hn.readOn)
          rcases ChunkAt.step_cases (s := ⟨a, c⟩) hn target with ⟨pos', c', hstep, hpos⟩
          rcases hpos with heq | ⟨-, -, hfull, hzero⟩
          · rw [Loop.terminates_more_iff hstep, heq, ← hb]
            exact ih h c'
          · exact absurd ⟨_, hn.eq, hfull, hzero, by rw [hlen]; omega⟩ hback

/-- No string stands in a row of characters that it does not begin with. -/
theorem compare_replicate {x : UInt8} (hx : target.head? ≠ some x) (hne : target ≠ []) (m : Nat) :
    compare (List.replicate m x) target = 0 := by
  rw [compare_eq_occurrences, occurrences, Nat.count_iff_forall_not]
  intro i _ hocc
  rw [Occurs, List.drop_replicate] at hocc
  cases target with
  | nil => exact hne rfl
  | cons b target =>
      have hb := List.eq_of_mem_replicate (hocc.subset List.mem_cons_self)
      exact hx (congrArg some hb)

/-- A file of one character that a long search string does not begin with. -/
theorem not_terminates_replicate {x : UInt8} (hx0 : x ≠ 0) (hx10 : x ≠ 10)
    (hx : target.head? ≠ some x) (hlen : 1000 ≤ len target) :
    ¬ Loop.Terminates
        (Count.step (List.replicate (len target + 1000).toNat x) target) Count.start := by
  refine Loop.not_terminates_of_invariant (I := fun s => (s.pos : Int) < len target) ?_ ?_
  · intro s hs
    have hne : target ≠ [] := by
      rintro rfl
      exact absurd hlen (by decide)
    rcases fgets_cases (List.replicate (len target + 1000).toNat x) s.pos with ⟨hge, -⟩ | ⟨n, hn⟩
    · rw [List.length_replicate] at hge
      omega
    · -- Neither the end of the file nor a newline ends the chunk.
      have hfull : n = 1000 := by
        have hle := hn.le
        rcases hn.stops with h | h | h
        · exact h
        · rw [List.length_replicate] at h
          omega
        · rw [List.getElem?_replicate] at h
          split at h
          · exact absurd (Option.some.inj h) hx10
          · cases h
      have hchunk : cString (((List.replicate (len target + 1000).toNat x).drop s.pos).take n)
          = List.replicate 1000 x := by
        rw [List.drop_replicate, List.take_replicate, cString_eq_self]
        · congr 1
          omega
        · exact fun h0 => hx0 (List.eq_of_mem_replicate h0).symm
      have hzero := compare_replicate hx hne 1000
      rw [← hchunk] at hzero
      have hstep := Count.step_back hn.eq (by rw [hchunk, List.length_replicate]) hzero
      rw [hn.length, hfull] at hstep
      refine ⟨_, hstep, ?_⟩
      dsimp only
      unfold fseek
      split <;> omega
  · exact Int.lt_of_lt_of_le (by decide) hlen

/-- A file of other characters than those of the search string. -/
theorem not_terminates_thousand :
    ¬ Loop.Terminates (Count.step (List.replicate 2000 121) (List.replicate 1000 120))
        Count.start := by
  have hlen : len (List.replicate 1000 120) = 1000 := by
    unfold len
    rw [List.length_replicate]
    decide
  have h := not_terminates_replicate (x := 121) (by decide) (by decide) (by decide) hlen.ge
  rw [hlen] at h
  exact h

/-- Whether the loop ends. On every file it does exactly for the search strings
    of fewer than 1000 characters. On one file it does if no chunk is gone back
    over, and for a search string as long as a full chunk only then. -/
theorem terminates_iff (target : List UInt8) :
    ((∀ file, Loop.Terminates (Count.step file target) Count.start) ↔ len target < 1000)
      ∧ ∀ file, (len target < 1000
            ∨ (∀ pos, Loop.Visits (readOn file) 0 pos → ¬ MovesBack file target pos) →
          Loop.Terminates (Count.step file target) Count.start)
        ∧ (len target ≤ 1000 → Loop.Terminates (Count.step file target) Count.start →
          len target < 1000
            ∨ ∀ pos, Loop.Visits (readOn file) 0 pos → ¬ MovesBack file target pos) := by
  refine ⟨⟨fun hall => ?_, terminates_of_short⟩, fun file => ⟨?_, fun hle hterm => ?_⟩⟩
  · by_contra hlen
    rw [Int.not_lt] at hlen
    -- Of two characters at least one is not the first of the search string.
    by_cases hx : target.head? = some 120
    · refine not_terminates_replicate (x := 121) (by decide) (by decide) ?_ hlen (hall _)
      rw [hx]
      decide
    · exact not_terminates_replicate (by decide) (by decide) hx hlen (hall _)
  · rintro (hlen | hreads)
    · exact terminates_of_short hlen file
    · exact terminates_of_reads hreads
  · rcases Int.lt_or_eq_of_le hle with hlt | heq
    · exact Or.inl hlt
    · refine Or.inr fun pos hvisit hback => ?_
      exact not_terminates_of_movesBack heq hvisit hback 0 hterm

end Lab1

end Cse5462
