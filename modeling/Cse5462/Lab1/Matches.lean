import Cse5462.Lab1.Count

/-!
# The Matches That Are Counted

The number that the loop prints against the number of positions at which the
search string stands in the file. The rounds follow one another through the
file, and each accounts for the positions between its start and the next one.
No position is counted twice, because a chunk in which something is counted is
never gone back into.

Two kinds are missed. A full chunk that has a match is not gone back into
either, so an occurrence that its end cuts is lost. A chunk of one character is
passed over as an empty line, which at the end of a file without a newline may
be an occurrence of a string of one character.

## Main definitions

* `Cuts`, `PassesOver`: The two ways to miss an occurrence.

## Theorems

* `Count.step_accounts`: What one round counts and misses.
* `ends_accounts`: What the loop counts and misses.
* `printed_iff`: When the number that is printed is right.
-/

namespace Cse5462

namespace Lab1

open Bytes

/-- The chunk at `pos` is full and holds an occurrence, and its end cuts
    another one. -/
def Cuts (file target : List UInt8) (pos : Nat) : Prop :=
  (fgets file pos).map List.length = some 1000
    ∧ (∃ i, pos ≤ i ∧ i + target.length ≤ pos + 1000 ∧ Occurs file target i)
    ∧ ∃ i, i < pos + 1000 ∧ pos + 1000 < i + target.length ∧ Occurs file target i

/-- The chunk at `pos` is the search string, and a single character. -/
def PassesOver (file target : List UInt8) (pos : Nat) : Prop :=
  target.length = 1 ∧ fgets file pos = some target

variable {file target : List UInt8} {pos n i : Nat}

theorem length_le_of_occurs (hne : target ≠ []) (h : Occurs file target i) :
    i + target.length ≤ file.length := by
  have hle := h.length_le
  have hpos := List.length_pos_iff.mpr hne
  rw [List.length_drop] at hle
  omega

/-- No occurrence goes over a newline. -/
theorem not_occurs_of_newline (hnl : 10 ∉ target) {q : Nat} (hq : file[q]? = some 10) (hi : i ≤ q)
    (hlt : q < i + target.length) : ¬ Occurs file target i := by
  rintro ⟨rest, hrest⟩
  have hget : file[q]? = target[q - i]? := by
    rw [← Nat.add_sub_cancel' hi, ← List.getElem?_drop, ← hrest,
      List.getElem?_append_left (by omega), Nat.add_sub_cancel_left]
  rw [hq] at hget
  exact hnl (List.mem_of_getElem? hget.symm)

theorem cString_chunk (h0 : 0 ∉ file) : cString ((file.drop pos).take n) = (file.drop pos).take n :=
  cString_eq_self fun hmem => h0 (List.mem_of_mem_drop (List.mem_of_mem_take hmem))

theorem ChunkAt.map_length (h : ChunkAt file pos n) :
    (fgets file pos).map List.length = some n := by
  rw [h.eq, Option.map_some, h.length]

/-- A chunk that is not full has no occurrence that its end cuts. -/
theorem ChunkAt.full_of_cut (h : ChunkAt file pos n) (hne : target ≠ []) (hnl : 10 ∉ target)
    (hi : i < n) (hcut : n < i + target.length) (hocc : Occurs file target (pos + i)) :
    n = 1000 := by
  rcases h.stops with hfull | hend | hstop
  · exact hfull
  · have := length_le_of_occurs hne hocc
    omega
  · have := h.pos_n
    exact absurd hocc (not_occurs_of_newline hnl hstop (by omega) (by omega))

/-- A chunk of one character. -/
theorem ChunkAt.passesOver_iff (h : ChunkAt file pos 1) (hne : target ≠ []) (hnl : 10 ∉ target) :
    PassesOver file target pos ↔ Occurs file target pos := by
  constructor
  · rintro ⟨-, heq⟩
    rw [h.eq, Option.some.injEq] at heq
    rw [Occurs, ← heq]
    exact List.take_prefix 1 _
  · intro hocc
    have hone : target.length = 1 := by
      have hpos := List.length_pos_iff.mpr hne
      by_contra hlen
      have := h.full_of_cut hne hnl Nat.one_pos (by omega) hocc
      omega
    refine ⟨hone, ?_⟩
    have htake := List.prefix_iff_eq_take.mp hocc
    rw [hone] at htake
    rw [h.eq, ← htake]

/-- A round that passes over a chunk of one character. -/
theorem ChunkAt.accounts_short (h : ChunkAt file pos 1) (hne : target ≠ []) (hnl : 10 ∉ target) :
    Nat.count (Occurs file target) pos ≤ Nat.count (Occurs file target) (pos + 1)
      ∧ (Nat.count (Occurs file target) pos = Nat.count (Occurs file target) (pos + 1)
        ↔ ¬ (Cuts file target pos ∨ PassesOver file target pos)) := by
  have hcuts : ¬ Cuts file target pos := by
    rintro ⟨hfull, -⟩
    rw [h.map_length] at hfull
    cases hfull
  rw [or_iff_right hcuts, h.passesOver_iff hne hnl, eq_comm, Nat.count_succ_eq_count_iff]
  exact ⟨Nat.count_monotone _ (Nat.le_succ pos), Iff.rfl⟩

/-- A round that moves back: up to the next start nothing is missed. -/
theorem ChunkAt.accounts_back (h : ChunkAt file pos 1000) (hne : target ≠ [])
    (hlen : target.length < 1000)
    (hzero : compare ((file.drop pos).take 1000) target = 0) :
    Nat.count (Occurs file target) pos
        = Nat.count (Occurs file target) (pos + (1000 - target.length))
      ∧ ¬ (Cuts file target pos ∨ PassesOver file target pos) := by
  rw [compare_chunk h, Nat.count_iff_forall_not] at hzero
  constructor
  · rw [Nat.count_add, eq_comm, Nat.add_eq_left, Nat.count_iff_forall_not]
    intro i hi hocc
    exact hzero i (by omega) ⟨hocc, by omega⟩
  · rintro (⟨-, ⟨i, hge, hle, hocc⟩, -⟩ | ⟨hone, heq⟩)
    · have hpos := List.length_pos_iff.mpr hne
      exact hzero (i - pos) (by omega) ⟨by rwa [Nat.add_sub_cancel' hge], by omega⟩
    · rw [h.eq, Option.some.injEq] at heq
      have hfull := h.length
      rw [heq, hone] at hfull
      cases hfull

/-- A round that counts: it misses what the end of the chunk cuts. -/
theorem ChunkAt.accounts_count (h : ChunkAt file pos n) (hne : target ≠ [])
    (hlen : target.length < 1000) (hnl : 10 ∉ target) (hone : n ≠ 1)
    (hnot : ¬ (compare ((file.drop pos).take n) target = 0 ∧ n = 1000)) :
    Nat.count (Occurs file target) pos + compare ((file.drop pos).take n) target
        ≤ Nat.count (Occurs file target) (pos + n)
      ∧ (Nat.count (Occurs file target) pos + compare ((file.drop pos).take n) target
          = Nat.count (Occurs file target) (pos + n)
        ↔ ¬ (Cuts file target pos ∨ PassesOver file target pos)) := by
  have hpass : ¬ PassesOver file target pos := by
    rintro ⟨hone', heq⟩
    rw [h.eq, Option.some.injEq] at heq
    have hn := h.length
    rw [heq, hone'] at hn
    exact hone hn.symm
  rw [compare_chunk h] at hnot
  rw [compare_chunk h, Nat.count_add, or_iff_left hpass, Nat.add_left_cancel_iff,
    count_eq_count_iff fun _ _ hk => hk.1]
  refine ⟨Nat.add_le_add_left (Nat.count_mono_left fun _ _ hk => hk.1) _, ?_⟩
  constructor
  · rintro hall ⟨hfull, -, i, hi, hcut, hocc⟩
    rw [h.map_length, Option.some.injEq] at hfull
    have hge : pos ≤ i := by omega
    have := (hall (i - pos) (by omega) (by rwa [Nat.add_sub_cancel' hge])).2
    omega
  · intro hnocut i hi hocc
    refine ⟨hocc, Nat.not_lt.mp fun hcut => hnocut ?_⟩
    have hfull := h.full_of_cut hne hnl hi hcut hocc
    subst hfull
    -- The chunk is full, so the round was not one that moves back.
    have hmatch := mt (fun hc => And.intro hc rfl) hnot
    rw [← Ne, Nat.count_ne_iff_exists] at hmatch
    rcases hmatch with ⟨j, hj, hoccj, hinside⟩
    exact ⟨h.map_length, ⟨pos + j, by omega, by omega, hoccj⟩, pos + i, by omega, by omega, hocc⟩

/-- What one round counts and misses. -/
theorem Count.step_accounts (h0 : 0 ∉ file) (hne : target ≠ []) (hlen : target.length < 1000)
    (hnl : 10 ∉ target) {pos : Nat} (hpos : pos < file.length) (m : Int) :
    ∃ (pos' c : Nat), Count.step file target ⟨pos, cInt m⟩ = .inl ⟨pos', cInt (m + c)⟩
      ∧ pos < pos' ∧ pos' ≤ file.length
      ∧ Nat.count (Occurs file target) pos + c ≤ Nat.count (Occurs file target) pos'
      ∧ (Nat.count (Occurs file target) pos + c = Nat.count (Occurs file target) pos'
        ↔ ¬ (Cuts file target pos ∨ PassesOver file target pos)) := by
  rcases fgets_cases file pos with ⟨hge, -⟩ | ⟨n, h⟩
  · omega
  have hstr : cString ((file.drop pos).take n) = (file.drop pos).take n := cString_chunk h0
  have hstrlen : (cString ((file.drop pos).take n)).length = n := by rw [hstr, h.length]
  have hin := h.inside
  have hn := h.pos_n
  by_cases hone : n = 1
  · subst hone
    refine ⟨pos + 1, 0, ?_, Nat.lt_succ_self pos, hin, h.accounts_short hne hnl⟩
    refine (Count.step_short h.eq hstrlen).trans ?_
    rw [h.length, Int.natCast_zero, Int.add_zero]
  · by_cases hback : compare ((file.drop pos).take n) target = 0 ∧ n = 1000
    · -- Nothing was found in a full chunk, and the last part of it is read again.
      rcases hback with ⟨hzero, rfl⟩
      rcases h.accounts_back hne hlen hzero with ⟨heq, hnone⟩
      refine ⟨pos + (1000 - target.length), 0, ?_, by omega, by omega, heq.le, ?_⟩
      · have hlenInt : len target = target.length :=
          (cInt_eq_self_iff _).mpr ⟨by omega, by omega⟩
        have hseek : fseek (pos + 1000) (-len target) = pos + (1000 - target.length) := by
          unfold fseek
          rw [hlenInt, if_neg (by omega)]
          omega
        have hcount : cInt (cInt m) = cInt m := (cInt_eq_self_iff _).mpr (cInt_bounds m)
        refine (Count.step_back h.eq hstrlen (hstr.symm ▸ hzero)).trans ?_
        dsimp only
        rw [h.length, hseek, hcount, Int.natCast_zero, Int.add_zero]
      · exact iff_of_true heq hnone
    · refine ⟨pos + n, compare ((file.drop pos).take n) target, ?_, by omega, hin,
        h.accounts_count hne hlen hnl hone hback⟩
      rw [Count.step_count h.eq (by rwa [hstrlen]) (by rwa [hstrlen, hstr]), h.length, hstr,
        cInt_add_cInt]

/-- What the loop counts and misses. -/
theorem ends_accounts (h0 : 0 ∉ file) (hne : target ≠ []) (hlen : target.length < 1000)
    (hnl : 10 ∉ target) {s : Count} {r : Int} (h : Loop.Ends (Count.step file target) s r)
    (hpos : s.pos ≤ file.length) (m : Int) (hm : s.count = cInt m) :
    ∃ k : Nat, r = cInt (m + k)
      ∧ Nat.count (Occurs file target) s.pos + k ≤ occurrences file target
      ∧ (Nat.count (Occurs file target) s.pos + k = occurrences file target
        ↔ ∀ t, Loop.Visits (Count.step file target) s t →
          ¬ (Cuts file target t.pos ∨ PassesOver file target t.pos)) := by
  induction h generalizing m with
  | @done s r h =>
      rcases Nat.lt_or_ge s.pos file.length with hlt | hge
      · -- There is a chunk, so this was not the last round.
        rcases s with ⟨pos, count⟩
        rcases show count = cInt m from hm with rfl
        dsimp only at hlt
        rcases Count.step_accounts h0 hne hlen hnl hlt m with ⟨pos', c, hstep, -⟩
        cases h.symm.trans hstep
      · have heq : s.pos = file.length := Nat.le_antisymm hpos hge
        rw [Count.step_done hge, Sum.inr.injEq] at h
        refine ⟨0, ?_, ?_, ?_⟩
        · rw [← h, hm, Int.natCast_zero, Int.add_zero]
        · rw [heq]
          exact Nat.le_refl _
        · refine iff_of_true (by rw [heq]; rfl) fun t ht => ?_
          rw [Loop.visits_done_iff (Count.step_done hge)] at ht
          rw [ht, Cuts, PassesOver, fgets_eq_none hge]
          rintro (⟨hfull, -⟩ | ⟨-, heq⟩)
          · cases hfull
          · cases heq
  | @more s s' r h hrest ih =>
      rcases Nat.lt_or_ge s.pos file.length with hlt | hge
      · rcases s with ⟨pos, count⟩
        rcases show count = cInt m from hm with rfl
        dsimp only at hlt
        rcases Count.step_accounts h0 hne hlen hnl hlt m with ⟨pos', c, hstep, -, hle, hcount, hiff⟩
        rcases Sum.inl.inj (h.symm.trans hstep) with rfl
        rcases ih hle (m + c) rfl with ⟨k, hr, hk, hiff'⟩
        dsimp only at hk hiff' ⊢
        refine ⟨c + k, ?_, by omega, ?_⟩
        · rw [hr, Nat.cast_add, Int.add_assoc]
        · -- Nothing is missed in all if nothing is in this round and in the rest.
          have hboth : Nat.count (Occurs file target) pos + (c + k) = occurrences file target
              ↔ Nat.count (Occurs file target) pos + c = Nat.count (Occurs file target) pos'
                ∧ Nat.count (Occurs file target) pos' + k = occurrences file target := by
            omega
          rw [hboth, hiff, hiff']
          constructor
          · rintro ⟨hthis, hothers⟩ t ht
            rcases (Loop.visits_more_iff hstep).mp ht with rfl | ht
            · exact hthis
            · exact hothers t ht
          · intro hall
            exact ⟨hall _ (.refl _), fun t ht => hall t (.next hstep ht)⟩
      · cases h.symm.trans (Count.step_done hge)

/-- The loop ends. -/
theorem count_ends (h0 : 0 ∉ file) (hne : target ≠ []) (hlen : target.length < 1000)
    (hnl : 10 ∉ target) : Loop.Terminates (Count.step file target) Count.start := by
  refine Loop.terminates_of_variant (fun s => file.length - s.pos)
    (I := fun s => s.pos ≤ file.length ∧ ∃ m, s.count = cInt m) ?_ ⟨Nat.zero_le _, 0, rfl⟩
  rintro ⟨pos, count⟩ s' ⟨hpos, m, hm⟩ h
  rcases Nat.lt_or_ge pos file.length with hlt | hge
  · rcases Count.step_accounts h0 hne hlen hnl hlt m with ⟨pos', c, hstep, hgt, hle, -⟩
    rw [show count = cInt m from hm] at h
    rw [Sum.inl.inj (h.symm.trans hstep)]
    exact ⟨⟨hle, m + c, rfl⟩, by dsimp only; omega⟩
  · cases h.symm.trans (Count.step_done hge)

/-- The number that is printed is that of the occurrences exactly if it fits and
    no chunk at which a round starts is one of those that miss an occurrence. -/
theorem printed_iff (h0 : 0 ∉ file) (hne : target ≠ []) (hlen : target.length < 1000)
    (hnl : 10 ∉ target) :
    Loop.Ends (Count.step file target) Count.start (occurrences file target)
      ↔ occurrences file target < 2 ^ 31
        ∧ ∀ t, Loop.Visits (Count.step file target) Count.start t →
          ¬ Cuts file target t.pos ∧ ¬ PassesOver file target t.pos := by
  rcases count_ends h0 hne hlen hnl with ⟨r, hends⟩
  rcases ends_accounts h0 hne hlen hnl hends (Nat.zero_le _) 0 rfl with ⟨k, hr, hle, hiff⟩
  have hzero : Nat.count (Occurs file target) Count.start.pos = 0 := Nat.count_zero _
  rw [hzero, Nat.zero_add] at hle hiff
  rw [Int.zero_add] at hr
  simp only [← not_or]
  rw [← hiff]
  constructor
  · intro h
    have heq := hends.unique h
    have hfits := cInt_bounds k
    rw [hr] at heq
    rw [heq] at hfits
    have hk : cInt k = k := (cInt_eq_self_iff _).mpr ⟨by omega, by omega⟩
    omega
  · rintro ⟨hfits, heq⟩
    rw [hr, heq, (cInt_eq_self_iff _).mpr ⟨by omega, by omega⟩] at hends
    exact hends

/-- A file whose last two bytes are the search string, which the end of the first
    chunk cuts. -/
def cutLine : List UInt8 := List.replicate 999 120 ++ [97, 98]

theorem fgets_cutLine : fgets cutLine 0 = some (cutLine.take 1000) := by decide +kernel

/-- The first chunk has no second byte of the search string. -/
theorem not_occurs_cutLine (i : Nat) : ¬ Occurs (cutLine.take 1000) [97, 98] i := by
  intro h
  have hmem : (98 : UInt8) ∈ cutLine.take 1000 :=
    List.mem_of_mem_drop (h.subset (List.mem_cons_of_mem _ List.mem_cons_self))
  exact absurd hmem (by decide +kernel)

/-- Nothing is found in the first chunk, the file is moved back by two bytes, and the
    second chunk has the search string. -/
theorem printed_cutLine :
    Loop.Ends (Count.step cutLine [97, 98]) Count.start (occurrences cutLine [97, 98]) := by
  have h0 : 0 ∉ cutLine := by decide +kernel
  have hzero : compare (cString (cutLine.take 1000)) [97, 98] = 0 := by
    rw [cString_eq_self fun h => h0 (List.mem_of_mem_take h), compare_eq_occurrences]
    exact Nat.count_iff_forall_not.mpr fun i _ => not_occurs_cutLine i
  have hback : Count.step cutLine [97, 98] Count.start = .inl { pos := 998, count := 0 } := by
    rw [Count.step_back (s := Count.start) fgets_cutLine (by decide +kernel) hzero]
    decide +kernel
  have hsnd : Count.step cutLine [97, 98] { pos := 998, count := 0 }
      = .inl { pos := 1001, count := 1 } := by decide +kernel
  have hdone : Count.step cutLine [97, 98] { pos := 1001, count := 1 } = .inr 1 :=
    Count.step_done (by decide +kernel)
  have hone : ∀ pos, ¬ PassesOver cutLine [97, 98] pos := fun pos h => absurd h.1 (by decide)
  refine (printed_iff h0 (by decide) (by decide) (by decide)).mpr ⟨?_, fun t ht => ⟨?_, hone _⟩⟩
  · have hle : occurrences cutLine [97, 98] ≤ cutLine.length := Nat.count_le _
    have hlen : cutLine.length < 2 ^ 31 := by decide +kernel
    omega
  · rw [Loop.visits_more_iff hback, Loop.visits_more_iff hsnd, Loop.visits_done_iff hdone] at ht
    rcases ht with rfl | rfl | rfl
    · -- The first chunk is full, but no occurrence lies in it.
      rintro ⟨-, ⟨i, -, hi, hocc⟩, -⟩
      have hin : i + 2 ≤ 1000 := by simpa [Count.start] using hi
      have hchunk := (occurs_chunk_iff cutLine [97, 98] 0 (n := 1000) (i := i) (by omega)).mpr
      rw [List.drop_zero, Nat.zero_add] at hchunk
      exact not_occurs_cutLine i (hchunk ⟨hocc, hin⟩)
    · exact fun h => absurd h.1 (by decide +kernel)
    · exact fun h => absurd h.1 (by decide +kernel)

/-- A file of one character, which is the search string. -/
theorem printed_wrong :
    ¬ Loop.Ends (Count.step [97] [97]) Count.start (occurrences [97] [97]) := by
  intro h
  have hends : Loop.Ends (Count.step [97] [97]) Count.start 0 := Loop.ends_of_run 2 (by decide)
  have hocc : occurrences [97] [97] = 1 := by decide
  rw [hocc] at h
  cases hends.unique h

end Lab1

end Cse5462
