import Mathlib.Order.WellFounded

/-!
# Loops That May Not End

A `while` loop is a step function: a round either leaves a state for the next
round or ends the loop with a result. `run` carries out a bounded number of
rounds. A loop that blocks for ever in some state is one whose round leaves that
state as it is.

`Ends` is the big-step reading: it holds if the loop comes to an end with that
result, and proofs about a loop that ends are inductions on it. Since the step
is a function, the result is unique. A measure that falls in every round makes
the loop end, and a set of states that no round leaves and none ends in makes
it run for ever.

## Main definitions

* `run`: The result after at most that many rounds.
* `Ends`: The loop ends with a result.
* `Terminates`: It ends.
* `Visits`: A state at the start of some round.

## Theorems

* `Ends.unique`: There is one result.
* `terminates_of_variant`: A measure that falls.
* `not_terminates_of_invariant`: States that are never left.
-/

namespace Cse5462

namespace Loop

variable {σ ρ : Type*} (step : σ → σ ⊕ ρ)

/-- The result of the loop, if it ends within the given number of rounds. -/
def run : Nat → σ → Option ρ
  | 0, _ => none
  | n + 1, s => match step s with
    | .inl s' => run n s'
    | .inr r => some r

/-- The loop ends with a result. -/
inductive Ends : σ → ρ → Prop
  | done {s : σ} {r : ρ} (h : step s = .inr r) : Ends s r
  | more {s s' : σ} {r : ρ} (h : step s = .inl s') (hrest : Ends s' r) : Ends s r

/-- The loop ends. -/
def Terminates (s : σ) : Prop := ∃ r, Ends step s r

/-- The second state starts a round of the loop that starts in the first. -/
inductive Visits : σ → σ → Prop
  | refl (s : σ) : Visits s s
  | next {s s' t : σ} (h : step s = .inl s') (hrest : Visits s' t) : Visits s t

variable {step} {s s' t : σ} {r r' : ρ}

theorem ends_of_run (n : Nat) (h : run step n s = some r) : Ends step s r := by
  induction n generalizing s with
  | zero => cases h
  | succ n ih =>
      rw [run] at h
      cases hs : step s with
      | inl s' =>
          rw [hs] at h
          exact .more hs (ih h)
      | inr r' =>
          rw [hs, Option.some.injEq] at h
          exact .done (h ▸ hs)

theorem ends_done_iff (h : step s = .inr r) : Ends step s r' ↔ r' = r := by
  refine ⟨fun h' => ?_, fun heq => .done (heq ▸ h)⟩
  cases h' with
  | done h' => exact Sum.inr.inj (h'.symm.trans h)
  | more h' _ => cases h'.symm.trans h

theorem ends_more_iff (h : step s = .inl s') : Ends step s r ↔ Ends step s' r := by
  refine ⟨fun h' => ?_, .more h⟩
  cases h' with
  | done h' => cases h'.symm.trans h
  | more h' hrest => exact Sum.inl.inj (h'.symm.trans h) ▸ hrest

/-- There is one result. -/
theorem Ends.unique (h : Ends step s r) (h' : Ends step s r') : r = r' := by
  induction h with
  | done h => exact ((ends_done_iff h).mp h').symm
  | more h _ ih => exact ih ((ends_more_iff h).mp h')

theorem terminates_more_iff (h : step s = .inl s') : Terminates step s ↔ Terminates step s' :=
  exists_congr fun _ => ends_more_iff h

theorem visits_done_iff (h : step s = .inr r) : Visits step s t ↔ t = s := by
  refine ⟨fun h' => ?_, fun heq => ?_⟩
  · cases h' with
    | refl => rfl
    | next h' _ => cases h'.symm.trans h
  · rw [heq]
    exact .refl s

theorem visits_more_iff (h : step s = .inl s') : Visits step s t ↔ t = s ∨ Visits step s' t := by
  constructor
  · intro h'
    cases h' with
    | refl => exact Or.inl rfl
    | next h' hrest => exact Or.inr (Sum.inl.inj (h'.symm.trans h) ▸ hrest)
  · rintro (rfl | h')
    · exact .refl t
    · exact .next h h'

theorem Visits.snoc {t' : σ} (h : Visits step s t) (ht : step t = .inl t') : Visits step s t' := by
  induction h with
  | refl s => exact .next ht (.refl t')
  | next h _ ih => exact .next h (ih ht)

/-- A measure that falls in every round, from states with an invariant on. -/
theorem terminates_of_variant {I : σ → Prop} (μ : σ → Nat)
    (hstep : ∀ s s', I s → step s = .inl s' → I s' ∧ μ s' < μ s) (hs : I s) :
    Terminates step s := by
  induction hμ : μ s using Nat.strong_induction_on generalizing s with
  | _ n ih =>
      cases h : step s with
      | inl s' =>
          rcases hstep s s' hs h with ⟨hs', hlt⟩
          exact (terminates_more_iff h).mpr (ih (μ s') (hμ ▸ hlt) hs' rfl)
      | inr r => exact ⟨r, .done h⟩

/-- States that no round leaves and none ends in. -/
theorem not_terminates_of_invariant {I : σ → Prop}
    (hstep : ∀ s, I s → ∃ s', step s = .inl s' ∧ I s') (hs : I s) : ¬ Terminates step s := by
  rintro ⟨r, h⟩
  induction h with
  | done h =>
      rcases hstep _ hs with ⟨s', hs', _⟩
      cases h.symm.trans hs'
  | more h _ ih =>
      rcases hstep _ hs with ⟨t, ht, hI⟩
      exact ih (Sum.inl.inj (h.symm.trans ht) ▸ hI)

end Loop

end Cse5462
