import Cse5462.Tcpd.TimerOps

/-!
# How Far a Time Reaches

The loop of `update_time_list` walks along the list as that of `add_timenode`
does: the difference of each node is compared with a time and taken off it, until
`timeval_subtract` calls what would be left negative. `Heap.reached` is the part
of the list that it passes, read off the heap as it is before the loop. It does
not depend on the rewriting of the nodes that goes on meanwhile, because the loop
rewrites a node only when it has come to it.

What is reached is said by the comparisons of the code, whether their carries fit
or not. As long as they do, the nodes that are reached are due, and the others are
not due before the time: only where the offset of a node is all of the time, it may
be reached or not.

## Main definitions

* `Heap.leftOver`: What is left of a time behind some nodes.
* `Heap.reached`: The nodes at the head of a list that a time reaches.
* `Expired`: What the loop of `update_time_list` leaves.
* `TimerList.Elapsed`: What the operation leaves.

## Theorems

* `reached_prefix`: The nodes that are reached, and the one that is not.
* `carriesFit_split`: What is left over, as long as the carries fit.
* `expireLoop_reached`: The loop of `update_time_list` takes off what is reached.
* `updateTimeList_reached`: And so does the operation.
* `updateTimeList_value`: What it does to the offsets.
-/

namespace Cse5462

open DeltaList

namespace Heap

/-- What is left of the time `d` behind the nodes. -/
def leftOver (m : Heap) : Timeval → List Nat → Timeval
  | d, [] => d
  | d, a :: l => m.leftOver (timeLeft d (m a).deltaTime) l

/-- The nodes at the head of the list that the time `d` reaches. -/
def reached (m : Heap) : Timeval → List Nat → List Nat
  | _, [] => []
  | d, a :: l =>
      if (timevalSubtract d (m a).deltaTime).negative then []
      else a :: m.reached (timeLeft d (m a).deltaTime) l

variable {m m' : Heap} {d : Timeval} {l us vs : List Nat} {a : Nat}

theorem leftOver_cons (m : Heap) (d : Timeval) (a : Nat) (l : List Nat) :
    m.leftOver d (a :: l) = m.leftOver (timeLeft d (m a).deltaTime) l := rfl

theorem reached_cons (m : Heap) (d : Timeval) (a : Nat) (l : List Nat) :
    m.reached d (a :: l) = if (timevalSubtract d (m a).deltaTime).negative then []
      else a :: m.reached (timeLeft d (m a).deltaTime) l := rfl

/-- What is left over depends on the differences of the nodes only. -/
theorem leftOver_congr (h : ∀ x ∈ l, (m' x).deltaTime = (m x).deltaTime) :
    m'.leftOver d l = m.leftOver d l := by
  induction l generalizing d with
  | nil => rfl
  | cons a l ih =>
      rw [leftOver_cons, leftOver_cons, h a List.mem_cons_self]
      exact ih fun x hx => h x (List.mem_cons_of_mem _ hx)

/-- And so does what is reached. -/
theorem reached_congr (h : ∀ x ∈ l, (m' x).deltaTime = (m x).deltaTime) :
    m'.reached d l = m.reached d l := by
  induction l generalizing d with
  | nil => rfl
  | cons a l ih =>
      rw [reached_cons, reached_cons, h a List.mem_cons_self,
        ih fun x hx => h x (List.mem_cons_of_mem _ hx)]

/-- The nodes that are reached come first, and the one behind them is not
    reached by what is left. -/
theorem reached_prefix (m : Heap) (d : Timeval) (l : List Nat) :
    ∃ vs, l = m.reached d l ++ vs ∧ ∀ a ∈ vs.head?,
      (timevalSubtract (m.leftOver d (m.reached d l)) (m a).deltaTime).negative = true := by
  induction l generalizing d with
  | nil => exact ⟨[], rfl, fun a ha => absurd ha (Option.not_mem_none a)⟩
  | cons a l ih =>
      rw [reached_cons]
      cases hneg : (timevalSubtract d (m a).deltaTime).negative with
      | true =>
          rw [if_pos rfl]
          refine ⟨a :: l, rfl, ?_⟩
          intro x hx
          rw [List.head?_cons, Option.mem_some_iff] at hx
          exact hx ▸ hneg
      | false =>
          rw [if_neg Bool.false_ne_true]
          rcases ih (timeLeft d (m a).deltaTime) with ⟨vs, hl, hstop⟩
          exact ⟨vs, congrArg (a :: ·) hl, hstop⟩

/-- Behind nodes that are reached, what is left of the time goes on. -/
theorem reached_append (h : us <+: m.reached d (us ++ vs)) :
    m.reached d (us ++ vs) = us ++ m.reached (m.leftOver d us) vs := by
  induction us generalizing d with
  | nil => rfl
  | cons u us ih =>
      rw [List.cons_append, reached_cons] at h ⊢
      split at h
      · exact absurd (List.prefix_nil.mp h) (List.cons_ne_nil u us)
      · rename_i hneg
        rw [List.cons_prefix_cons] at h
        rw [if_neg hneg, ih h.2]
        rfl

/-- A node that is reached has been compared with what was left before it. -/
theorem reached_passed (h : us ++ [a] <+: m.reached d (us ++ a :: vs)) :
    (timevalSubtract (m.leftOver d us) (m a).deltaTime).negative = false := by
  rw [reached_append ((List.prefix_append us [a]).trans h), reached_cons] at h
  split at h
  · have hlen := h.length_le
    rw [List.length_append, List.append_nil, List.length_singleton] at hlen
    omega
  · rename_i hneg
    exact Bool.eq_false_iff.mpr hneg

/-- As long as the carries fit, what is left over is what the values say, and they
    fit behind the nodes that are reached. -/
theorem carriesFit_split (hfits : m.CarriesFit d (us ++ vs)) (h : us <+: m.reached d (us ++ vs)) :
    (m.leftOver d us).value = d.value - total (m.entries us) ∧
      m.CarriesFit (m.leftOver d us) vs := by
  -- Induction on the nodes that are passed.
  induction us generalizing d with
  | nil => exact ⟨(sub_zero _).symm, hfits⟩
  | cons u us ih =>
      rw [List.cons_append, reached_cons] at h
      split at h
      · exact absurd (List.prefix_nil.mp h) (List.cons_ne_nil u us)
      · rename_i hneg
        rw [List.cons_prefix_cons] at h
        rcases ih (hfits.2 (Bool.eq_false_iff.mpr hneg)) h.2 with ⟨hvalue, hrest⟩
        refine ⟨?_, hrest⟩
        rw [leftOver_cons, hvalue, timeLeft_value hfits.1, entries_cons, total_cons]
        omega

/-- The microseconds of what is left over follow from those of the time and of
    the nodes. -/
theorem leftOver_usec (hfits : m.CarriesFit d (us ++ vs)) (h : us <+: m.reached d (us ++ vs)) :
    (m.leftOver d us).tvUsec
      = us.foldl (fun u a => microsLeft u (m a).deltaTime.tvUsec) d.tvUsec := by
  induction us generalizing d with
  | nil => rfl
  | cons u us ih =>
      rw [List.cons_append, reached_cons] at h
      split at h
      · exact absurd (List.prefix_nil.mp h) (List.cons_ne_nil u us)
      · rename_i hneg
        rw [List.cons_prefix_cons] at h
        rw [leftOver_cons, ih (hfits.2 (Bool.eq_false_iff.mpr hneg)) h.2, List.foldl_cons,
          ← carry_micros hfits.1, timeLeft_eq hfits.1]
        rfl

/-- The offsets of the nodes that are reached do not exceed the time. -/
theorem reached_offsets (hfits : m.CarriesFit d l) :
    ∀ o ∈ offsets (m.entries (m.reached d l)), o ≤ d.value := by
  induction l generalizing d with
  | nil => exact fun o ho => absurd ho List.not_mem_nil
  | cons a l ih =>
      rcases timevalSubtract_spec hfits.1 with ⟨-, -, -, hge⟩
      rw [reached_cons]
      cases hneg : (timevalSubtract d (m a).deltaTime).negative with
      | true =>
          rw [if_pos rfl]
          exact fun o ho => absurd ho List.not_mem_nil
      | false =>
          rw [if_neg Bool.false_ne_true, entries_cons, offsets]
          intro o ho
          rcases List.mem_cons.mp ho with rfl | ho
          · exact hge hneg
          · rcases List.mem_map.mp ho with ⟨x, hx, rfl⟩
            have := ih (hfits.2 hneg) x hx
            rw [timeLeft_value hfits.1] at this
            omega

end Heap

/-- One turn of the loop of `update_time_list`: the node is compared with the
    time, and if it is due, carried once more and taken off. -/
theorem expireLoop_succ (n : Nat) (m : Heap) (d : Timeval) (a : Nat) :
    expireLoop (n + 1) m d (some a)
      = if (timevalSubtract d (m a).deltaTime).negative then
          some { cell := m.setDelta a (carry d (m a).deltaTime), dtime := d, head := some a,
                 ids := [] }
        else
          (expireLoop n (m.setDelta a (carry d (carry d (m a).deltaTime)))
            (timeLeft d (m a).deltaTime) (m a).next).map
            fun e => { e with ids := (m a).id :: e.ids } := by
  rw [expireLoop]
  unfold Heap.setDelta
  simp only [Function.update_self, Function.update_idem]
  rfl

/-- What the loop of `update_time_list` leaves when it has taken the nodes `us`
    off the list and has stopped at the first of the nodes `vs`. -/
structure Expired (m : Heap) (d : Timeval) (us vs : List Nat) (e : Expiry) : Prop where
  links : SameLinks m e.cell
  head : e.head = vs.head?
  ids : e.ids = m.ids us
  dtime : e.dtime = m.leftOver d us
  first : ∀ a ∈ us.head?, (e.cell a).deltaTime = carry d (carry d (m a).deltaTime)
  stop : ∀ a ∈ vs.head?, (e.cell a).deltaTime = carry (m.leftOver d us) (m a).deltaTime
  frame : ∀ x, x ∉ us → x ∉ vs.head? → (e.cell x).deltaTime = (m x).deltaTime

/-- The loop of `update_time_list` takes the nodes off that are reached. It
    rewrites the nodes that it comes to, and no other. -/
theorem expireLoop_reached {m : Heap} {d : Timeval} {p : Option Nat} {l : List Nat} {n : Nat}
    (hl : m.Links p l) (hn : l.length ≤ n) :
    ∃ e vs, expireLoop n m d p = some e ∧ l = m.reached d l ++ vs ∧
      Expired m d (m.reached d l) vs e := by
  -- Induction on the nodes of the list.
  induction l generalizing n m d p with
  | nil =>
      have hp : p = none := hl.head_eq
      subst hp
      refine ⟨_, [], by unfold expireLoop; rfl, rfl, sameLinks_refl m, rfl, rfl, rfl,
        fun a ha => absurd ha (Option.not_mem_none a),
        fun a ha => absurd ha (Option.not_mem_none a), fun x _ _ => rfl⟩
  | cons a l ih =>
      have hp : p = some a := hl.head_eq
      subst hp
      cases n with
      | zero => exact absurd hn (Nat.not_succ_le_zero _)
      | succ n =>
          have hal := (List.nodup_cons.mp hl.nodup).1
          rw [expireLoop_succ, Heap.reached_cons]
          cases hneg : (timevalSubtract d (m a).deltaTime).negative with
          | true =>
              -- The loop has compared the head only.
              rw [if_pos rfl, if_pos rfl]
              refine ⟨_, a :: l, rfl, rfl, sameLinks_setDelta m a _, rfl, rfl, rfl,
                fun x hx => absurd hx (Option.not_mem_none x), fun x hx => ?_, fun x _ hx => ?_⟩
              · rw [List.head?_cons, Option.mem_some_iff] at hx
                subst hx
                rw [Heap.setDelta_deltaTime, if_pos rfl]
                rfl
              · have hxa : x ≠ a := fun h => hx (h ▸ Option.mem_some_self a)
                rw [Heap.setDelta_deltaTime, if_neg hxa]
          | false =>
              rw [if_neg Bool.false_ne_true, if_neg Bool.false_ne_true]
              -- Behind node `a` the heap is as it was.
              have hkept : ∀ x, x ≠ a →
                  (m.setDelta a (carry d (carry d (m a).deltaTime)) x).deltaTime
                    = (m x).deltaTime := fun x hx => by rw [Heap.setDelta_deltaTime, if_neg hx]
              have hself : (m.setDelta a (carry d (carry d (m a).deltaTime)) a).deltaTime
                  = carry d (carry d (m a).deltaTime) := by
                rw [Heap.setDelta_deltaTime, if_pos rfl]
              have hlinks := sameLinks_setDelta m a (carry d (carry d (m a).deltaTime))
              generalize m.setDelta a (carry d (carry d (m a).deltaTime)) = m1 at hkept hself hlinks
              have hne : ∀ x ∈ l, x ≠ a := fun x hx h => hal (h ▸ hx)
              rcases ih (m := m1) (d := timeLeft d (m a).deltaTime)
                (hlinks.links hl.tail) (Nat.le_of_succ_le_succ hn) with ⟨e, vs, he, hsplit, hexp⟩
              rw [Heap.reached_congr fun x hx => hkept x (hne x hx)] at hsplit hexp
              have hreach : ∀ x ∈ m.reached (timeLeft d (m a).deltaTime) l, x ≠ a := fun x hx =>
                hne x (hsplit ▸ List.mem_append_left _ hx)
              have hstop : ∀ x ∈ vs.head?, x ≠ a := fun x hx =>
                hne x (hsplit ▸ List.mem_append_right _ (List.mem_of_head? hx))
              have hleft := Heap.leftOver_congr (d := timeLeft d (m a).deltaTime)
                fun x hx => hkept x (hreach x hx)
              rw [he, Option.map_some]
              refine ⟨_, vs, rfl, congrArg (a :: ·) hsplit, hlinks.trans hexp.links, hexp.head, ?_,
                ?_, fun x hx => ?_, fun x hx => ?_, fun x hx hx' => ?_⟩
              · dsimp only
                rw [hexp.ids, hlinks.ids_eq]
                rfl
              · rw [Heap.leftOver_cons, ← hleft]
                exact hexp.dtime
              · rw [List.head?_cons, Option.mem_some_iff] at hx
                subst hx
                dsimp only
                rw [hexp.frame a (fun hmem => hreach a hmem rfl) (fun hmem => hstop a hmem rfl),
                  hself]
              · dsimp only
                rw [hexp.stop x hx, hkept x (hstop x hx), hleft]
                rfl
              · rw [List.mem_cons, not_or] at hx
                dsimp only
                rw [hexp.frame x hx.2 hx', hkept x hx.1]

namespace TimerList

variable {t t' : TimerList} {l us vs : List Nat} {ids : List Int}

/-- The first nodes off the list, the others are a list of their own. -/
theorem Linked.suffix_back (h : t.Linked (us ++ vs)) :
    ∀ a ∈ vs.head?, ∀ q ∈ (t.cell a).forward, q < t.brk ∧ q ∉ vs := by
  intro a ha q hq
  rcases List.eq_nil_or_concat us with rfl | ⟨ws, b, rfl⟩
  · exact h.back a ha q hq
  · -- Node `a` points back to the last node of the others.
    rcases List.head?_eq_some_iff.mp ha with ⟨xs, rfl⟩
    have hb : b ∈ ws ++ [b] := List.mem_append_right _ List.mem_cons_self
    rw [List.concat_eq_append] at h
    have hprev : (t.cell a).forward = some b := by
      have hlinks := h.links
      rw [← List.append_cons] at hlinks
      exact hlinks.prev_eq
    rw [hprev, Option.mem_some_iff] at hq
    subst hq
    exact ⟨h.allocated b (List.mem_append_left _ hb),
      fun hmem => (List.nodup_append'.mp h.links.nodup).2.2 hb hmem⟩

/-- What `update_time_list` leaves of a list when the nodes `us` have been
    reached and `vs` have not. -/
structure Elapsed (t : TimerList) (now : Timeval) (us vs : List Nat) (t' : TimerList) : Prop where
  linked : t'.Linked vs
  lasttime : t'.lasttime = now
  id : ∀ x, (t'.cell x).id = (t.cell x).id
  first : ∀ a ∈ us.head?,
    (t'.cell a).deltaTime = carry (t.passed now) (carry (t.passed now) (t.cell a).deltaTime)
  head : ∀ a ∈ vs.head?, (t'.cell a).deltaTime = (timevalSubtract
    (carry (t.cell.leftOver (t.passed now) us) (t.cell a).deltaTime)
    (t.cell.leftOver (t.passed now) us)).result
  frame : ∀ x, x ∉ us → x ∉ vs.head? → (t'.cell x).deltaTime = (t.cell x).deltaTime

/-- `update_time_list` takes the nodes off the list that the time reaches, and
    requests to resend their ids. What is left of the time is taken off the
    difference of the new head, in the representation that the loop has left it
    in. -/
theorem updateTimeList_reached (h : t.Linked l) (now : Timeval) :
    ∃ t' vs, t.updateTimeList now = some (t', t.cell.ids (t.cell.reached (t.passed now) l)) ∧
      l = t.cell.reached (t.passed now) l ++ vs ∧
      t.Elapsed now (t.cell.reached (t.passed now) l) vs t' := by
  rcases expireLoop_reached (d := t.passed now) h.links h.length_le with ⟨e, vs, he, hl, hexp⟩
  generalize t.cell.reached (t.passed now) l = us at *
  subst hl
  -- The nodes that stay make a list, whatever their differences.
  have hlinked : ∀ m : Heap, SameLinks e.cell m →
      Linked { t with cell := m, head := vs.head?, lasttime := now } vs := by
    intro m hm
    have hsame := hexp.links.trans hm
    refine ⟨hsame.links h.links.suffix, fun a ha => h.allocated a (List.mem_append_right _ ha), ?_,
      fun a ha q hq => ?_⟩
    · have hids := h.ids
      rw [ids_append] at hids
      dsimp only
      rw [hsame.ids_eq]
      exact hids.of_append_right
    · dsimp only at hq
      rw [hsame.forward] at hq
      exact h.suffix_back a ha q hq
  unfold updateTimeList
  rw [he, Option.map_some, hexp.head, hexp.ids]
  cases vs with
  | nil =>
      exact ⟨_, [], rfl, rfl, hlinked e.cell (sameLinks_refl e.cell), rfl, hexp.links.id,
        hexp.first, fun a ha => absurd ha (Option.not_mem_none a), hexp.frame⟩
  | cons b vs =>
      have hnodup := (List.nodup_append'.mp h.links.nodup).2.2
      have hsame := sameLinks_setDelta e.cell b
        (timevalSubtractInPlace (e.cell b).deltaTime e.dtime).result
      refine ⟨_, b :: vs, rfl, rfl, hlinked _ hsame, rfl, (hexp.links.trans hsame).id,
        fun a ha => ?_, fun a ha => ?_, fun x hx hx' => ?_⟩
      · have hab : a ≠ b := fun hab => hnodup (List.mem_of_head? ha) (hab ▸ List.mem_cons_self)
        dsimp only
        rw [Heap.setDelta_deltaTime, if_neg hab, hexp.first a ha]
      · -- The new head has been compared, and loses what is left.
        rw [List.head?_cons, Option.mem_some_iff] at ha
        subst ha
        dsimp only
        rw [Heap.setDelta_deltaTime, if_pos rfl, hexp.stop b (Option.mem_some_self b), hexp.dtime]
        rfl
      · have hxb : x ≠ b := fun hxb => hx' (hxb ▸ Option.mem_some_self b)
        dsimp only
        rw [Heap.setDelta_deltaTime, if_neg hxb, hexp.frame x hx hx']

/-- The offsets after an expiry whose carries fit: the difference of the new head
    is lowered by the time that is left over, and not below zero. -/
theorem Elapsed.value (h : t.WellFormed (us ++ vs)) {now : Timeval}
    (hfits : t.cell.CarriesFit (t.passed now) (us ++ vs))
    (hus : t.cell.reached (t.passed now) (us ++ vs) = us) (ht : t.Elapsed now us vs t') :
    t'.WellFormed vs ∧ t'.cell.entries vs
      = advance ((t.passed now).value - total (t.cell.entries us)) (t.cell.entries vs) := by
  have hprefix : us <+: t.cell.reached (t.passed now) (us ++ vs) := by rw [hus]
  rcases Heap.carriesFit_split hfits hprefix with ⟨hvalue, hrest⟩
  rcases List.nodup_append'.mp h.links.nodup with ⟨-, hvs, hdisj⟩
  have hdeltas := h.deltas
  rw [entries_append] at hdeltas
  have hent : t'.cell.entries vs
      = advance ((t.passed now).value - total (t.cell.entries us)) (t.cell.entries vs) := by
    rw [← neg_neg ((t.passed now).value - _)]
    refine entries_give hvs (fun x _ => ht.id x) (fun x hx => ?_) (fun x hx => ?_)
    · -- The new head has been carried for the time, and is carried back.
      rcases List.head?_eq_some_iff.mp hx with ⟨ws, rfl⟩
      rw [ht.head x hx, (timevalSubtract_spec (carryFits_carried hrest.1)).1, carry_value hrest.1,
        hvalue]
      omega
    · have hxus : x ∉ us := fun hmem => hdisj hmem (List.mem_of_mem_tail hx)
      have hxhead : x ∉ vs.head? := by
        intro hmem
        rcases List.head?_eq_some_iff.mp hmem with ⟨ws, rfl⟩
        exact (List.nodup_cons.mp hvs).1 hx
      rw [ht.frame x hxus hxhead]
  refine ⟨⟨ht.linked, ?_⟩, hent⟩
  rw [hent]
  refine advance_nonneg (fun e he => ?_) fun e he => hdeltas e (List.mem_append_right _ he)
  -- The head is not due before what is left of the time.
  rcases t.cell.reached_prefix (t.passed now) (us ++ vs) with ⟨ws, hws, hstop⟩
  rw [hus] at hws hstop
  rw [← List.append_cancel_left hws] at hstop
  cases vs with
  | nil => exact absurd he (Option.not_mem_none e)
  | cons b vs =>
      rw [entries_cons, List.head?_cons, Option.mem_some_iff] at he
      subst he
      have hle := (timevalSubtract_spec hrest.1).2.2.1 (hstop b (Option.mem_some_self b))
      rw [hvalue] at hle
      exact hle

/-- `update_time_list` of a list whose carries fit takes nodes that are due off the
    head, and lowers the difference of the new head by the time that is left
    over. -/
theorem updateTimeList_value (h : t.WellFormed l) (now : Timeval)
    (hfits : t.cell.CarriesFit (t.passed now) l) :
    ∃ t' us vs, t.updateTimeList now = some (t', t.cell.ids us) ∧ l = us ++ vs ∧
      us = t.cell.reached (t.passed now) l ∧ t'.WellFormed vs ∧
      t'.cell.entries vs
        = advance ((t.passed now).value - total (t.cell.entries us)) (t.cell.entries vs) ∧
      (∀ o ∈ offsets (t.cell.entries us), o ≤ (t.passed now).value) := by
  rcases updateTimeList_reached h.toLinked now with ⟨t', vs, ht', hl, helapsed⟩
  have hoff := Heap.reached_offsets hfits
  generalize hus : t.cell.reached (t.passed now) l = us at *
  subst hl
  rcases helapsed.value h hfits hus with ⟨hwf, hent⟩
  exact ⟨t', us, vs, ht', rfl, rfl, hwf, hent, hoff⟩

end TimerList

end Cse5462
