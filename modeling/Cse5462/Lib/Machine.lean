import Mathlib.Data.List.Infix
import Mathlib.Data.Option.Basic

/-!
# Runs of a Step Function

A program that reacts to events is a partial function `step : σ → ε → Option σ`.
An event that the state does not allow, and a step that the program does not
survive, are both `none`, so a list of events either drives the machine to one
state or is no run at all.

`run` is the run of a list of events, and `Meets` says that a property of a
state and the event it is about to take holds at every step of a run. Both
halves of a statement about runs are phrased with it: the condition that the
steps obey, and the property they are shown to have. `run_induction` turns a
fact about one step into a fact about every run, and `meets_iff` does the same
for an equivalence that holds wherever an invariant does.

## Main definitions

* `run`: The state a list of events leads to.
* `Meets`: A property of state and event that holds at every step of a run.
* `Throughout`: A property of the states that holds in each of them.
* `Reaches`: A state that some steps lead to.
* `lockstep`: Two copies of a machine.

## Theorems

* `meets_cons`: A run taken one step at a time.
* `run_induction`: What steps under a condition preserve, runs preserve.
* `meets_last`: The last step of a run.
* `meets_of_forall_mem`: A condition on the events alone.
* `decidableMeets`: A condition that can be decided along a run.
* `reaches_trans`: Reachability is transitive.
* `reaches_of_simulates`: A machine that follows another one step by step.
* `run_invariant`: What every step preserves, every run preserves.
* `run_total`: Steps that can be taken make up runs.
* `meets_of_invariant`: A property of the steps out of invariant states.
* `meets_iff`: Two conditions that agree on invariant states.
* `run_append`: A run in two parts.
* `throughout_iff_meets`: What holds in each state of a run is kept by its steps.
* `throughout_of_meets`, `throughout_iff`: A property of all states from a
  condition on the steps.
* `meets_lockstep`: Related copies of a machine look the same.
-/

namespace Cse5462

namespace Machine

variable {σ ε : Type*} (step : σ → ε → Option σ)

/-- The state that a list of events leads to, or `none` if some event is not
    allowed where it comes. -/
def run : σ → List ε → Option σ
  | s, [] => some s
  | s, e :: es => (step s e).bind fun s' => run s' es

/-- Every step that the run takes has the property `C`, of the state before
    the step and the event. -/
def Meets (C : σ → ε → Prop) : σ → List ε → Prop
  | _, [] => True
  | s, e :: es => C s e ∧ ∀ s', step s e = some s' → Meets C s' es

@[simp] theorem run_nil (s : σ) : run step s [] = some s := rfl

@[simp] theorem run_cons (s : σ) (e : ε) (es : List ε) :
    run step s (e :: es) = (step s e).bind fun s' => run step s' es := rfl

/-- A run in two parts. -/
theorem run_append (s : σ) (es es' : List ε) :
    run step s (es ++ es') = (run step s es).bind fun s' => run step s' es' := by
  induction es generalizing s with
  | nil => rfl
  | cons e es ih =>
      rw [List.cons_append, run_cons, run_cons, Option.bind_assoc]
      exact Option.bind_congr fun s' _ => ih s'

/-- A run taken one step at a time. -/
theorem meets_cons {C : σ → ε → Prop} {s s' : σ} {e : ε} {es : List ε} (hC : C s e)
    (hstep : step s e = some s') (h : Meets step C s' es) : Meets step C s (e :: es) := by
  refine ⟨hC, ?_⟩
  intro t ht
  rw [hstep, Option.some.injEq] at ht
  exact ht ▸ h

variable {step}

/-- What every step under the condition `C` preserves holds after every run
    whose steps all meet `C`. -/
theorem run_induction {C : σ → ε → Prop} {P : σ → Prop}
    (hstep : ∀ s e s', P s → C s e → step s e = some s' → P s') :
    ∀ (es : List ε) (s s' : σ), P s → Meets step C s es → run step s es = some s' → P s' := by
  intro es
  -- Induction on the events, one step at a time.
  induction es with
  | nil =>
      intro s s' hP _ hrun
      simp only [run_nil, Option.some.injEq] at hrun
      rwa [← hrun]
  | cons e es ih =>
      intro s t hP hC hrun
      simp only [run_cons, Option.bind_eq_some_iff] at hrun
      rcases hrun with ⟨s', hs', hrest⟩
      exact ih s' t (hstep s e s' hP hC.1 hs') (hC.2 s' hs') hrest

/-- A property that all steps of a run have, the last one has. -/
theorem meets_last {C : σ → ε → Prop} (es : List ε) (s s' : σ) (e : ε)
    (h : Meets step C s (es ++ [e])) (hrun : run step s es = some s') : C s' e := by
  induction es generalizing s with
  | nil =>
      rw [run_nil, Option.some.injEq] at hrun
      exact hrun ▸ h.1
  | cons e' es ih =>
      simp only [run_cons, Option.bind_eq_some_iff] at hrun
      rcases hrun with ⟨t, ht, hrest⟩
      exact ih t (h.2 t ht) hrest

/-- A condition on the events alone holds along every run of such events. -/
theorem meets_of_forall_mem {E : ε → Prop} : ∀ (es : List ε) (s : σ), (∀ e ∈ es, E e) →
    Meets step (fun _ e => E e) s es
  | [], _, _ => trivial
  | _ :: es, _, h => ⟨h _ List.mem_cons_self, fun s' _ =>
      meets_of_forall_mem es s' fun e he => h e (List.mem_cons_of_mem _ he)⟩

/-- Two conditions that hold along a run. -/
theorem meets_and {C D : σ → ε → Prop} : ∀ {es : List ε} {s : σ}, Meets step C s es →
    Meets step D s es → Meets step (fun s e => C s e ∧ D s e) s es
  | [], _, _, _ => trivial
  | _ :: _, _, hC, hD => ⟨⟨hC.1, hD.1⟩, fun s' hs' => meets_and (hC.2 s' hs') (hD.2 s' hs')⟩

/-- A weaker condition holds along the same run. -/
theorem meets_mono {C D : σ → ε → Prop} (h : ∀ s e, C s e → D s e) : ∀ {es : List ε} {s : σ},
    Meets step C s es → Meets step D s es
  | [], _, _ => trivial
  | _ :: _, _, hC => ⟨h _ _ hC.1, fun s' hs' => meets_mono h (hC.2 s' hs')⟩

/-- A condition that can be decided can be decided along a run. -/
instance decidableMeets (step : σ → ε → Option σ) (C : σ → ε → Prop)
    [∀ s e, Decidable (C s e)] : ∀ (s : σ) (es : List ε), Decidable (Meets step C s es)
  | _, [] => .isTrue trivial
  | s, e :: es =>
      match h : step s e with
      | none => decidable_of_iff (C s e) ⟨fun hC => ⟨hC, fun s' hs' => by
          rw [h] at hs'
          cases hs'⟩, fun hm => hm.1⟩
      | some t =>
          have := decidableMeets step C t es
          decidable_of_iff (C s e ∧ Meets step C t es) ⟨fun hm => ⟨hm.1, fun s' hs' => by
            rw [h] at hs'
            cases hs'
            exact hm.2⟩, fun hm => ⟨hm.1, hm.2 t h⟩⟩

/-- The trivial condition holds along every run. -/
theorem meets_true : ∀ (es : List ε) (s : σ), Meets step (fun _ _ => True) s es
  | [], _ => trivial
  | _ :: es, _ => ⟨trivial, fun s' _ => meets_true es s'⟩

theorem run_invariant {P : σ → Prop} (hstep : ∀ s e s', P s → step s e = some s' → P s')
    (es : List ε) (s s' : σ) (hP : P s) (hrun : run step s es = some s') : P s' :=
  run_induction (C := fun _ _ => True) (fun s e s' hs _ => hstep s e s' hs) es s s' hP
    (meets_true es s) hrun

/-- Where every step that meets `C` can be taken and keeps an invariant, a run of
    such steps comes to an end. -/
theorem run_total {C : σ → ε → Prop} {P : σ → Prop}
    (hstep : ∀ s e, P s → C s e → ∃ s', step s e = some s' ∧ P s') :
    ∀ (es : List ε) (s : σ), P s → Meets step C s es → ∃ s', run step s es = some s' ∧ P s'
  | [], s, hP, _ => ⟨s, rfl, hP⟩
  | e :: es, s, hP, hC => by
      rcases hstep s e hP hC.1 with ⟨t, ht, hPt⟩
      rw [run_cons, ht, Option.bind_some]
      exact run_total hstep es t hPt (hC.2 t ht)

/-- A property of the steps out of invariant states holds along every run that
    keeps the invariant. -/
theorem meets_of_invariant {C Q : σ → ε → Prop} {P : σ → Prop}
    (hstep : ∀ s e s', P s → C s e → step s e = some s' → P s')
    (hQ : ∀ s e, P s → C s e → Q s e) :
    ∀ (es : List ε) (s : σ), P s → Meets step C s es → Meets step Q s es
  | [], _, _, _ => trivial
  | e :: es, s, hP, hC => ⟨hQ s e hP hC.1, fun s' hs' =>
      meets_of_invariant hstep hQ es s' (hstep s e s' hP hC.1 hs') (hC.2 s' hs')⟩

/-- Two conditions that agree wherever an invariant holds, an invariant that
    the steps meeting one of them keep, hold along the same runs. -/
theorem meets_iff {C Q : σ → ε → Prop} {P : σ → Prop}
    (hstep : ∀ s e s', P s → C s e → step s e = some s' → P s')
    (hQ : ∀ s e, P s → (Q s e ↔ C s e)) :
    ∀ (es : List ε) (s : σ), P s → (Meets step Q s es ↔ Meets step C s es) := by
  intro es s hP
  refine ⟨fun h => ?_, meets_of_invariant hstep (fun s e hs => (hQ s e hs).2) es s hP⟩
  refine meets_of_invariant (C := Q) (fun s e s' hs hq => hstep s e s' hs ((hQ s e hs).1 hq))
    (fun s e hs => (hQ s e hs).1) es s hP h

/-- The second state can be reached from the first one by steps that all have
    the property `C`. -/
def Reaches (step : σ → ε → Option σ) (C : σ → ε → Prop) (s t : σ) : Prop :=
  ∃ es, Meets step C s es ∧ run step s es = some t

section Reaches

variable {C : σ → ε → Prop} {s t u : σ}

theorem reaches_refl (s : σ) : Reaches step C s s := ⟨[], trivial, rfl⟩

/-- One step, and then what can be reached from there. -/
theorem reaches_cons {e : ε} (hC : C s e) (hstep : step s e = some t) (h : Reaches step C t u) :
    Reaches step C s u := by
  rcases h with ⟨es, hmeets, hrun⟩
  refine ⟨e :: es, meets_cons step hC hstep hmeets, ?_⟩
  rw [run_cons, hstep, Option.bind_some, hrun]

theorem reaches_step {e : ε} (hC : C s e) (hstep : step s e = some t) : Reaches step C s t :=
  reaches_cons hC hstep (reaches_refl t)

theorem reaches_trans (h : Reaches step C s t) (h' : Reaches step C t u) : Reaches step C s u := by
  rcases h with ⟨es, hmeets, hrun⟩
  induction es generalizing s with
  | nil =>
      rw [run_nil, Option.some.injEq] at hrun
      exact hrun ▸ h'
  | cons e es ih =>
      simp only [run_cons, Option.bind_eq_some_iff] at hrun
      rcases hrun with ⟨s', hs', hrest⟩
      exact reaches_cons hmeets.1 hs' (ih (hmeets.2 s' hs') hrest)

/-- A machine whose every step another one can follow, in one step or none or
    several, is followed by it in every run. -/
theorem reaches_of_simulates {δ τ : Type*} {step' : τ → δ → Option τ} {D : τ → δ → Prop}
    {R : σ → τ → Prop}
    (hstep : ∀ s e s' t, R s t → C s e → step s e = some s' → ∃ t', Reaches step' D t t' ∧ R s' t')
    (es : List ε) (s s' : σ) (t : τ) (hR : R s t) (hC : Meets step C s es)
    (hrun : run step s es = some s') : ∃ t', Reaches step' D t t' ∧ R s' t' := by
  refine run_induction (P := fun s => ∃ t', Reaches step' D t t' ∧ R s t') ?_ es s s'
    ⟨t, reaches_refl t, hR⟩ hC hrun
  rintro s e s' ⟨u, hreach, hu⟩ he hs
  rcases hstep s e s' u hu he hs with ⟨u', hreach', hu'⟩
  exact ⟨u', reaches_trans hreach hreach', hu'⟩

end Reaches

/-- The property `R` holds in every state that the run comes to, the first one
    included. -/
def Throughout (step : σ → ε → Option σ) (R : σ → Prop) (s : σ) (es : List ε) : Prop :=
  ∀ es' s', es' <+: es → run step s es' = some s' → R s'

/-- A property holds in every state if it holds in the first one and every step
    ends in a state that has it. -/
theorem throughout_iff_meets {R : σ → Prop} : ∀ (es : List ε) (s : σ), Throughout step R s es ↔
    R s ∧ Meets step (fun s e => ∀ s', step s e = some s' → R s') s es := by
  intro es
  -- Induction on the events, one step at a time.
  induction es with
  | nil =>
      intro s
      refine ⟨fun h => ⟨h [] s List.nil_prefix rfl, trivial⟩, ?_⟩
      intro h es' s' hes hrun
      rw [List.prefix_nil] at hes
      subst hes
      rw [run_nil, Option.some.injEq] at hrun
      exact hrun ▸ h.1
  | cons e es ih =>
      intro s
      constructor
      · intro h
        have hnext : ∀ s', step s e = some s' → Throughout step R s' es :=
          fun s' hs' es' t hes ht => by
            refine h (e :: es') t ?_ ?_
            · rw [List.cons_prefix_cons]
              exact ⟨rfl, hes⟩
            · rw [run_cons, hs', Option.bind_some, ht]
        refine ⟨h [] s List.nil_prefix rfl, fun s' hs' => ?_, fun s' hs' => ?_⟩
        · exact ((ih s').mp (hnext s' hs')).1
        · exact ((ih s').mp (hnext s' hs')).2
      · rintro ⟨hs, hstep, hrest⟩ es' t hes ht
        cases es' with
        | nil =>
            rw [run_nil, Option.some.injEq] at ht
            exact ht ▸ hs
        | cons e' es' =>
            rw [List.cons_prefix_cons] at hes
            rcases hes with ⟨rfl, hes⟩
            simp only [run_cons, Option.bind_eq_some_iff] at ht
            rcases ht with ⟨s', hs', ht⟩
            exact (ih s').mpr ⟨hstep s' hs', hrest s' hs'⟩ es' t hes ht

/-- What an invariant implies holds throughout every run whose steps meet the
    condition under which they keep the invariant. -/
theorem throughout_of_meets {C : σ → ε → Prop} {P R : σ → Prop}
    (hstep : ∀ s e s', P s → C s e → step s e = some s' → P s') (hR : ∀ s, P s → R s)
    (es : List ε) (s : σ) (hP : P s) (hC : Meets step C s es) : Throughout step R s es := by
  rw [throughout_iff_meets]
  refine ⟨hR s hP, meets_of_invariant hstep (fun s e hs hc s' hs' => ?_) es s hP hC⟩
  exact hR s' (hstep s e s' hs hc hs')

/-- A property holds throughout the runs whose steps all meet a condition, and
    no others, if that is what decides whether a step keeps it. -/
theorem throughout_iff {C : σ → ε → Prop} {P R : σ → Prop}
    (hkeep : ∀ s e s', P s → R s → step s e = some s' → P s')
    (hC : ∀ s e, P s → R s → ((∀ s', step s e = some s' → R s') ↔ C s e))
    (es : List ε) (s : σ) (hP : P s) (hs : R s) :
    Throughout step R s es ↔ Meets step C s es := by
  rw [throughout_iff_meets]
  have hiff := meets_iff (Q := fun s e => ∀ s', step s e = some s' → R s') (P := fun s => P s ∧ R s)
    (fun s e s' h hc hs' => ⟨hkeep s e s' h.1 h.2 hs', (hC s e h.1 h.2).mpr hc s' hs'⟩)
    (fun s e h => hC s e h.1 h.2) es s ⟨hP, hs⟩
  exact ⟨fun h => hiff.mp h.2, fun h => ⟨hs, hiff.mpr h⟩⟩

/-- Two copies of a machine, each with its own events. -/
def lockstep (step : σ → ε → Option σ) (y : σ × σ) (x : ε × ε) : Option (σ × σ) :=
  (step y.1 x.1).bind fun s => (step y.2 x.2).map fun t => (s, t)

theorem lockstep_eq_some {y y' : σ × σ} {x : ε × ε} (h : lockstep step y x = some y') :
    step y.1 x.1 = some y'.1 ∧ step y.2 x.2 = some y'.2 := by
  rcases Option.bind_eq_some_iff.mp h with ⟨s, hs, hrest⟩
  rcases Option.map_eq_some_iff.mp hrest with ⟨t, ht, rfl⟩
  exact ⟨hs, ht⟩

theorem map_eq_of_rel {α β γ : Type*} {R : α → β → Prop} {f : α → γ} {g : β → γ}
    {a : Option α} {b : Option β} (h : Option.Rel R a b) (hR : ∀ a b, R a b → f a = g b) :
    a.map f = b.map g := by
  cases h with
  | some h => exact congrArg some (hR _ _ h)
  | none => rfl

/-- Two copies of a machine whose steps keep them related, and under the
    relation look the same, look the same in every step of a run in lockstep. -/
theorem meets_lockstep {ω ν : Type*} {out : σ → ε → Option (σ × ω)} {T : σ → σ → Prop}
    {seen : σ × ω → ν} {C : σ × σ → ε × ε → Prop}
    (hstep : ∀ y x, T y.1 y.2 → C y x →
      Option.Rel (fun r r' => T r.1 r'.1 ∧ seen r = seen r') (out y.1 x.1) (out y.2 x.2))
    (xs : List (ε × ε)) (y : σ × σ) (hy : T y.1 y.2)
    (hC : Meets (lockstep fun s e => (out s e).map Prod.fst) C y xs) :
    Meets (lockstep fun s e => (out s e).map Prod.fst)
      (fun y x => (out y.1 x.1).map seen = (out y.2 x.2).map seen) y xs := by
  refine meets_of_invariant (P := fun y => T y.1 y.2) ?_
    (fun y x hy hx => map_eq_of_rel (hstep y x hy hx) fun _ _ h => h.2) xs y hy hC
  intro y x y' hy hx hnext
  rcases lockstep_eq_some hnext with ⟨hleft, hright⟩
  rcases Option.map_eq_some_iff.mp hleft with ⟨r, hr, hr'⟩
  rcases Option.map_eq_some_iff.mp hright with ⟨q, hq, hq'⟩
  have hrel := hstep y x hy hx
  rw [hr, hq] at hrel
  cases hrel with
  | some h =>
      rw [← hr', ← hq']
      exact h.1

end Machine

end Cse5462
