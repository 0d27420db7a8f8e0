import Cse5462.Tcpd.TimerMap

/-!
# How Carries Add Up

A comparison moves whole seconds between the fields of the node that it looks at,
and a cancellation adds a difference, as it has come to be represented, to the next
one. The node behind may never be compared itself: then the seconds that have been
moved in front of it pile up in it, and in the end a comparison with it wraps.

`place` is where a new timer goes and what it makes of the differences on its
way, field by field. A round of starts and cancellations that leaves the head as it
was and moves two seconds of the last timer into its microseconds is `driftCalls`,
and `drift_run` is any number of such rounds.

## Main definitions

* `place`: A timer put into a list, with all that is rewritten on the way.
* `giveNext`: A difference given to the next timer.
* `TimerList.Shows`: The timers of a list, as they are represented.
* `driftCalls`: A round that moves two seconds of the last timer.

## Theorems

* `shows_first`, `shows_added`: What a start leaves.
* `shows_cancelled`: What a cancellation leaves.
* `drift_run`: Any number of rounds.
-/

namespace Cse5462

/-- The ids of a list of nodes, each with its difference as it is represented. -/
def Heap.timed (m : Heap) (l : List Nat) : List (Int × Timeval) :=
  l.map fun a => ((m a).id, (m a).deltaTime)

/-- A timer put into a list: what is left of its time `d` is compared with one
    difference after the other and counted from there, up to the first that it does
    not reach. -/
def place (id : Int) (d : Timeval) : List (Int × Timeval) → List (Int × Timeval)
  | [] => [(id, d)]
  | (k, e) :: es =>
      if (timevalSubtract d e).negative then
        let s := timevalSubtractInPlace (carry d e) d
        (id, s.y) :: (k, s.result) :: es
      else (k, carry d e) :: place id (timeLeft d e) es

/-- A difference given to the next timer. -/
def giveNext (d : Timeval) : List (Int × Timeval) → List (Int × Timeval)
  | [] => []
  | (k, e) :: es => (k, timevalAdd e d) :: es

/-- The carries fit on the way of a timer to its place. -/
def WayFits : Timeval → List (Int × Timeval) → Prop
  | _, [] => True
  | d, (_, e) :: es =>
      CarryFits d e ∧ ((timevalSubtract d e).negative = false → WayFits (timeLeft d e) es)

/-- The timers of a linked list, from the head on. -/
def TimerList.Shows (t : TimerList) (es : List (Int × Timeval)) : Prop :=
  ∃ l, t.Linked l ∧ t.cell.timed l = es

variable {m m' : Heap} {p : Option Nat} {l us vs : List Nat} {a c n : Nat}

theorem timed_append : m.timed (us ++ vs) = m.timed us ++ m.timed vs := List.map_append

theorem timed_cons : m.timed (a :: l) = ((m a).id, (m a).deltaTime) :: m.timed l := rfl

theorem keys_timed (m : Heap) (l : List Nat) : (m.timed l).map Prod.fst = m.ids l := by
  unfold Heap.timed Heap.ids
  rw [List.map_map]
  rfl

theorem timed_congr (hid : ∀ x ∈ l, (m' x).id = (m x).id)
    (hdelta : ∀ x ∈ l, (m' x).deltaTime = (m x).deltaTime) : m'.timed l = m.timed l :=
  List.map_congr_left fun x hx => by rw [hid x hx, hdelta x hx]

theorem wayFits_timed {d : Timeval} : WayFits d (m.timed l) ↔ m.CarriesFit d l := by
  induction l generalizing d with
  | nil => exact Iff.rfl
  | cons a l ih =>
      rw [timed_cons]
      unfold WayFits Heap.CarriesFit
      rw [ih]

theorem place_cons (id k : Int) (d e : Timeval) (es : List (Int × Timeval)) :
    place id d ((k, e) :: es) = if (timevalSubtract d e).negative then
        (id, (timevalSubtractInPlace (carry d e) d).y) ::
          (k, (timevalSubtractInPlace (carry d e) d).result) :: es
      else (k, carry d e) :: place id (timeLeft d e) es := rfl

/-- The timer whose turn it is has been compared before. -/
theorem place_carried {id k : Int} {d e : Timeval} (es : List (Int × Timeval))
    (h : CarryFits d e) : place id d ((k, carry d e) :: es) = place id d ((k, e) :: es) := by
  have hagain : timevalSubtract d (carry d e) = timevalSubtract d e := timevalSubtract_again h
  have hleft : timeLeft d (carry d e) = timeLeft d e := by
    rw [timeLeft_eq h.carry, timeLeft_eq h, hagain]
  rw [place_cons, place_cons, hagain, hleft, carry_again h]

/-- A node that goes before node `a`, which it has been compared with. -/
theorem timed_before (us : List Nat) (hc : c ∉ us ++ a :: vs) (hnodup : (us ++ a :: vs).Nodup)
    (hid : ∀ x, (m' x).id = (m x).id)
    (hdelta : ∀ x, (m' x).deltaTime = (subtractNode (compareNodes m c a).1 a c x).deltaTime)
    (hneg : (compareNodes m c a).2 = true) : m'.timed (us ++ c :: a :: vs)
      = m.timed us ++ place (m c).id (m c).deltaTime (m.timed (a :: vs)) := by
  have hca : c ≠ a := fun h => hc (h ▸ List.mem_append_right _ List.mem_cons_self)
  rcases List.nodup_append'.mp hnodup with ⟨-, hrest, hdisj⟩
  have hsub : (timevalSubtract (m c).deltaTime (m a).deltaTime).negative = true := hneg
  -- The other nodes keep their differences.
  have hkept : ∀ x, x ≠ a → x ≠ c → (m' x).deltaTime = (m x).deltaTime := fun x hxa hxc => by
    rw [hdelta, subtractNode_frame _ a c hxa hxc, compareNodes_frame m c a hxa]
  have hus : m'.timed us = m.timed us := timed_congr (fun x _ => hid x) fun x hx =>
    hkept x (fun h => hdisj hx (h ▸ List.mem_cons_self))
      fun h => hc (h ▸ List.mem_append_left _ hx)
  have hvs : m'.timed vs = m.timed vs := timed_congr (fun x _ => hid x) fun x hx =>
    hkept x (fun h => (List.nodup_cons.mp hrest).1 (h ▸ hx))
      fun h => hc (h ▸ List.mem_append_right _ (List.mem_cons_of_mem _ hx))
  have hcd : (m' c).deltaTime
      = carry (carry (m c).deltaTime (m a).deltaTime) (m c).deltaTime := by
    rw [hdelta, subtractNode_deltaTime _ a c hca.symm, compareNodes_deltaTime,
      compareNodes_frame m c a hca]
  have had : (m' a).deltaTime = (timevalSubtract (carry (m c).deltaTime (m a).deltaTime)
      (m c).deltaTime).result := by
    rw [hdelta, subtractNode_result, compareNodes_deltaTime, compareNodes_frame m c a hca]
  rw [timed_append, timed_cons, timed_cons, timed_cons, hus, hvs, hid, hid, hcd, had, place_cons,
    hsub, if_pos rfl]
  rfl

/-- Behind another node, the node is linked in through `forward`. -/
theorem addBefore_timed (hl : m.Links p (us ++ a :: vs)) (hc : c ∉ us ++ a :: vs) (hus : us ≠ [])
    (hneg : (compareNodes m c a).2 = true) :
    ∃ m', addBefore (compareNodes m c a).1 c a = some m' ∧ m'.Links p (us ++ c :: a :: vs) ∧
      (∀ x, (m' x).id = (m x).id) ∧ m'.timed (us ++ c :: a :: vs)
        = m.timed us ++ place (m c).id (m c).deltaTime (m.timed (a :: vs)) := by
  have hsame := compareNodes_links m c a
  rcases List.eq_nil_or_concat us with rfl | ⟨ws, b, rfl⟩
  · exact absurd rfl hus
  rw [List.concat_eq_append] at *
  have hsplit : ∀ xs : List Nat, ws ++ [b] ++ xs = ws ++ b :: xs :=
    fun xs => (List.append_cons ws b xs).symm
  have hl' := hsame.links hl
  rw [hsplit] at hl'
  rcases addBefore_links hl' (hsplit _ ▸ hc) with ⟨m', hm', hlinks⟩
  rcases addBefore_spec hm' with ⟨hid, hdelta, -⟩
  have hid' : ∀ x, (m' x).id = (m x).id := fun x => (hid x).trans (hsame.id x)
  exact ⟨m', hm', (hsplit _).symm ▸ hlinks, hid', timed_before _ hc hl.nodup hid' hdelta hneg⟩

/-- The loop puts node `c` in its place behind the nodes `us`. -/
theorem addLoop_timed (hl : m.Links p (us ++ a :: vs)) (hc : c ∉ us ++ a :: vs)
    (hcn : (m c).next = none) (hfits : m.CarriesFit (m c).deltaTime (a :: vs))
    (hhead : us = [] → (compareNodes m c a).2 = false) (hn : vs.length < n) :
    ∃ m' xs ys, addLoop c n m (some a) = some m' ∧ us ++ a :: vs = xs ++ ys ∧
      m'.Links p (xs ++ c :: ys) ∧ (∀ x, (m' x).id = (m x).id) ∧ m'.timed (xs ++ c :: ys)
        = m.timed us ++ place (m c).id (m c).deltaTime (m.timed (a :: vs)) := by
  -- Induction on the turns.
  induction n generalizing us a vs m with
  | zero => exact absurd hn (Nat.not_lt_zero _)
  | succ n ih =>
      have hca : c ≠ a := fun h => hc (h ▸ List.mem_append_right _ List.mem_cons_self)
      have hnext : (m a).next = vs.head? := hl.next_eq
      rw [addLoop_succ n hca hfits.1, hnext]
      cases hneg : (compareNodes m c a).2 with
      | true =>
          have hus : us ≠ [] := fun h => Bool.noConfusion (hneg.symm.trans (hhead h))
          rcases addBefore_timed hl hc hus hneg with ⟨m', hm', hspec⟩
          exact ⟨m', us, a :: vs, hm', rfl, hspec⟩
      | false =>
          rw [if_neg Bool.false_ne_true]
          have hsub : (timevalSubtract (m c).deltaTime (m a).deltaTime).negative = false := hneg
          have hsplit : ∀ xs : List Nat, us ++ a :: xs = (us ++ [a]) ++ xs := List.append_cons us a
          -- Node `a` is passed, and its difference is taken off the new one.
          have hplace : place (m c).id (m c).deltaTime (m.timed (a :: vs))
              = ((m a).id, carry (m c).deltaTime (m a).deltaTime) ::
                place (m c).id (timeLeft (m c).deltaTime (m a).deltaTime) (m.timed vs) := by
            rw [timed_cons, place_cons, hsub, if_neg Bool.false_ne_true]
          generalize hm1 : subtractNode (compareNodes m c a).1 c a = m1
          rcases passed_node hl hc hca hfits.1 hm1.symm with ⟨hl1, hid, -, hleft, hframe, hcn1⟩
          have had : (m1 a).deltaTime = carry (m c).deltaTime (m a).deltaTime := by
            rw [← hm1, subtractNode_deltaTime _ c a hca, compareNodes_frame m c a hca,
              compareNodes_deltaTime, carry_again hfits.1]
          rcases List.nodup_append'.mp hl.nodup with ⟨-, hrest, hdisj⟩
          have hus : m1.timed (us ++ [a]) = m.timed us
              ++ [((m a).id, carry (m c).deltaTime (m a).deltaTime)] := by
            rw [timed_append, timed_congr (m := m) (fun x _ => hid x) fun x hx =>
              hframe x (fun h => hc (h ▸ List.mem_append_left _ hx))
                fun h => hdisj hx (h ▸ List.mem_cons_self)]
            rw [timed_cons, hid, had]
            rfl
          have hnot : ∀ x ∈ vs, x ≠ c ∧ x ≠ a := fun x hx =>
            ⟨fun h => hc (h ▸ List.mem_append_right _ (List.mem_cons_of_mem _ hx)),
              fun h => (List.nodup_cons.mp hrest).1 (h ▸ hx)⟩
          have hvs : m1.timed vs = m.timed vs :=
            timed_congr (fun x _ => hid x) fun x hx => hframe x (hnot x hx).1 (hnot x hx).2
          cases vs with
          | nil =>
              -- The new node comes to the end of the list.
              have hend := addAtEnd_links ((compareNodes_links m c a).links hl) hc
                (by rw [(compareNodes_links m c a).next, hcn])
              have hid' : ∀ x, (addAtEnd (compareNodes m c a).1 c a x).id = (m1 x).id := fun x => by
                rw [addAtEnd_id, ← hm1, subtractNode_id]
              refine ⟨_, us ++ [a], [], rfl, (List.append_nil _).symm, hsplit [c] ▸ hend,
                fun x => (hid' x).trans (hid x), ?_⟩
              rw [hplace, timed_congr (m := m1) (fun x _ => hid' x)
                fun x _ => by rw [addAtEnd_deltaTime, hm1], timed_append, hus, timed_cons, hleft,
                hid, List.append_assoc]
              rfl
          | cons b vs =>
              rw [hsplit] at hl1 hc
              have hfits1 : m1.CarriesFit (m1 c).deltaTime (b :: vs) := by
                rw [hleft, carriesFit_congr fun x hx => hframe x (hnot x hx).1 (hnot x hx).2]
                exact hfits.2 hsub
              rcases ih hl1 hc (hcn1.trans hcn) hfits1
                (fun h => absurd h (List.append_ne_nil_of_right_ne_nil _ (List.cons_ne_nil _ _)))
                (Nat.lt_of_succ_lt_succ hn) with ⟨m', xs, ys, hm', hxs, hlinks, hid', htimed⟩
              refine ⟨m', xs, ys, hm', (hsplit _).trans hxs, hlinks,
                fun x => (hid' x).trans (hid x), ?_⟩
              rw [htimed, hplace, hus, hid, hleft, hvs, List.append_assoc]
              rfl

namespace TimerList

variable {t : TimerList} {id k : Int} {d e : Timeval} {es fs : List (Int × Timeval)} {dtime : ℚ≥0}

theorem shows_empty (cell : Heap) (lasttime : Timeval) : (empty cell lasttime).Shows [] :=
  ⟨[], linked_empty cell lasttime, rfl⟩

/-- A timer of the list is not started again. -/
theorem shows_present (h : t.Shows es) (hid : id ∈ es.map Prod.fst) (dtime : ℚ≥0) (now : Timeval) :
    t.addTimenode id dtime now = some t := by
  rcases h with ⟨l, hl, rfl⟩
  rw [keys_timed] at hid
  exact addTimenode_present hl hid dtime now

theorem shows_absent (h : t.Shows es) (hid : id ∉ es.map Prod.fst) :
    t.deleteTimenode id = some t := by
  rcases h with ⟨l, hl, rfl⟩
  rw [keys_timed] at hid
  exact deleteTimenode_absent hl hid

/-- What is read off the heap after `malloc`. -/
theorem timed_malloc (h : t.Linked l) (id : Int) (dtime : ℚ≥0) :
    Heap.timed (t.malloc id dtime) l = t.cell.timed l := by
  rcases malloc_spec h id dtime with ⟨-, hold, hne, -, -⟩
  exact timed_congr (fun x hx => by rw [hold x (hne x hx)]) fun x hx => by rw [hold x (hne x hx)]

/-- A timer that goes to the front, whether its carry fits or not. -/
theorem shows_first (id : Int) (dtime : ℚ≥0) (h : t.Shows ((k, e) :: es))
    (hid : id ∉ ((k, e) :: es).map Prod.fst)
    (hneg : (timevalSubtract (Timeval.ofSeconds dtime) e).negative = true) (now : Timeval) :
    ∃ t', t.addTimenode id dtime now = some t' ∧
      t'.Shows (place id (Timeval.ofSeconds dtime) ((k, e) :: es)) := by
  rcases h with ⟨l, hl, htimed⟩
  rcases List.map_eq_cons_iff.mp htimed with ⟨a, vs, rfl, ha, -⟩
  rw [Prod.mk.injEq] at ha
  rcases malloc_spec hl id dtime with ⟨hnode, hold, hne, hc, hlinks⟩
  have hca := hne a List.mem_cons_self
  rw [← htimed, keys_timed] at hid
  have hhead : t.head = some a := hl.links.head_eq
  have hfirst : (compareNodes (t.malloc id dtime) t.brk a).2 = true := by
    unfold compareNodes
    rw [hnode, hold a hca, ha.2]
    exact hneg
  have ht := addTimenode_eq hl hid dtime now
  rw [hhead] at ht hlinks
  dsimp only at ht
  rw [if_pos hfirst] at ht
  have hput := addAtFirst_links ((compareNodes_links _ t.brk a).links hlinks) hc
  refine ⟨_, ht, _, linked_added hl hid ht hput List.mem_cons_self, ?_⟩
  have hplace := timed_before [] hc hlinks.nodup
    (fun x => by rw [addAtFirst_id, (compareNodes_links _ t.brk a).id]) addAtFirst_deltaTime hfirst
  rw [timed_malloc hl, hnode, htimed] at hplace
  exact hplace

/-- A timer whose carries fit on its way. -/
theorem shows_added (id : Int) (dtime : ℚ≥0) (h : t.Shows es) (hid : id ∉ es.map Prod.fst)
    (hfits : WayFits (Timeval.ofSeconds dtime) es) (now : Timeval) :
    ∃ t', t.addTimenode id dtime now = some t' ∧
      t'.Shows (place id (Timeval.ofSeconds dtime) es) := by
  rcases h with ⟨l, hl, rfl⟩
  cases l with
  | nil =>
      -- The first timer of all.
      rcases malloc_spec hl id dtime with ⟨hnode, -, -, -, -⟩
      have ht : t.addTimenode id dtime now = _ := addTimenode_eq hl List.not_mem_nil dtime now
      rw [show t.head = none from hl.links.head_eq] at ht
      refine ⟨_, ht, [t.brk], linked_added hl List.not_mem_nil ht
        (DoublyLinked.singleton (by dsimp only; rw [hnode]; rfl)) List.mem_cons_self, ?_⟩
      dsimp only
      rw [timed_cons, hnode]
      rfl
  | cons a vs =>
      cases hneg : (timevalSubtract (Timeval.ofSeconds dtime) (t.cell a).deltaTime).negative with
      | true => exact shows_first id dtime ⟨a :: vs, hl, rfl⟩ hid hneg now
      | false =>
          rcases malloc_spec hl id dtime with ⟨hnode, hold, hne, hc, hlinks⟩
          have htimed := timed_malloc hl id dtime
          have hca : t.brk ≠ a := (hne a List.mem_cons_self).symm
          rw [keys_timed] at hid
          rw [← htimed, wayFits_timed] at hfits
          have hfirst : (compareNodes (t.malloc id dtime) t.brk a).2 = false := by
            unfold compareNodes
            rw [hnode, hold a hca.symm]
            exact hneg
          have ht := addTimenode_eq hl hid dtime now
          rw [show t.head = some a from hl.links.head_eq] at ht hlinks
          dsimp only at ht
          rw [hfirst, if_neg Bool.false_ne_true] at ht
          have hdelta : (t.malloc id dtime t.brk).deltaTime = Timeval.ofSeconds dtime := by
            rw [hnode]
            rfl
          have hkey : (t.malloc id dtime t.brk).id = id := by
            rw [hnode]
            rfl
          have hnext : (t.malloc id dtime t.brk).next = none := by
            rw [hnode]
            rfl
          rw [← hdelta] at hfits
          rw [← htimed]
          generalize t.malloc id dtime = m at *
          have hsame := compareNodes_links m t.brk a
          have hframe := compareNodes_frame m t.brk a hca
          have hav := (List.nodup_cons.mp hlinks.nodup).1
          have hlen := hl.length_le
          rw [List.length_cons] at hlen
          have hlinks' : (compareNodes m t.brk a).1.Links (some a) ([] ++ a :: vs) :=
            hsame.links hlinks
          rcases addLoop_timed (n := t.brk + 2 ^ 64) hlinks' hc (by rw [hsame.next, hnext])
            (by rw [hframe]; exact carriesFit_compared hav hfits)
            (fun _ => by rw [compareNodes_again hca hfits.1, hfirst]) (by omega) with
            ⟨m', xs, ys, hm', -, hput, -, hplaced⟩
          rw [hm', Option.map_some] at ht
          refine ⟨_, ht, xs ++ t.brk :: ys, linked_added hl hid ht hput
            (List.mem_append_right _ List.mem_cons_self), ?_⟩
          -- The head has been compared before the loop.
          have hvs : (compareNodes m t.brk a).1.timed vs = m.timed vs :=
            timed_congr (fun x _ => hsame.id x) fun x hx =>
              compareNodes_frame m t.brk a fun heq => hav (heq ▸ hx)
          dsimp only
          rw [hplaced, timed_cons, hsame.id, hsame.id, hframe, compareNodes_deltaTime, hvs,
            place_carried _ hfits.1, hkey, hdelta]
          rfl

/-- A timer that is cancelled gives its difference to the next one, as it is
    represented. The head stays, if there is a timer before. -/
theorem shows_cancelled (es : List (Int × Timeval)) (h : t.Shows (es ++ (id, d) :: fs)) :
    ∃ t', t.deleteTimenode id = some t' ∧ t'.Shows (es ++ giveNext d fs) ∧
      (es ≠ [] → t'.head = t.head) := by
  rcases h with ⟨l, hl, htimed⟩
  rcases List.map_eq_append_iff.mp htimed with ⟨us, ws, rfl, rfl, hws⟩
  rcases List.map_eq_cons_iff.mp hws with ⟨a, vs, rfl, ha, rfl⟩
  rw [Prod.mk.injEq] at ha
  rcases deleteTimenode_at hl ha.1 with ⟨t', ht', hlinked, hgiven⟩
  refine ⟨t', ht', ⟨us ++ vs, hlinked, ?_⟩, fun hes => ?_⟩
  · rcases List.nodup_append'.mp hlinked.links.nodup with ⟨-, hvs, hdisj⟩
    have hus : t'.cell.timed us = t.cell.timed us :=
      timed_congr (fun x _ => hgiven.id x) fun x hx =>
        hgiven.frame x fun hhead => hdisj hx (List.mem_of_head? hhead)
    rw [timed_append, hus]
    congr 1
    cases vs with
    | nil => rfl
    | cons b vs =>
        have hb := (List.nodup_cons.mp hvs).1
        have htail : t'.cell.timed vs = t.cell.timed vs :=
          timed_congr (fun x _ => hgiven.id x) fun x hx => hgiven.frame x fun hhead => by
            rw [List.head?_cons, Option.mem_some_iff] at hhead
            exact hb (hhead ▸ hx)
        rw [timed_cons, htail, hgiven.id, hgiven.head b (Option.mem_some_self b), ← ha.2]
        rfl
  · -- Behind another timer it is not the head that goes.
    cases us with
    | nil => exact absurd rfl hes
    | cons u us => exact hlinked.links.head_eq.trans hl.links.head_eq.symm

end TimerList

/-- Half a round: a timer of half a second, one of a quarter in front of it, and then
    the quarter is cancelled and the older half. -/
def driftTurn (new old : Int) (now : Timeval) : List TimerCall :=
  [.add new (seconds 500000) now, .add 4 (seconds 250000) now, .delete 4, .delete old]

/-- A round, which puts the first id back. -/
def driftCalls (now : Timeval) : List TimerCall := driftTurn 3 2 now ++ driftTurn 2 3 now

open TimerList in
/-- The new timer is first with what the old one was, and a second of the timer behind
    it, whatever that one is, has been moved. -/
theorem drift_turn (new old : Int) {t : TimerList} {d : Timeval}
    (h : t.Shows [(old, ⟨1, -500000⟩), (1, d)]) (hnew : new ∉ [old, 1, 4]) (hold : old ≠ 4)
    (now : Timeval) : ∃ t', Machine.run call t (driftTurn new old now) = some t' ∧
      t'.Shows [(new, ⟨1, -500000⟩), (1, ⟨d.tvSec - 1, d.tvUsec + 1000000⟩)] := by
  have hhalf : Timeval.ofSeconds (seconds 500000) = ⟨0, 500000⟩ := by decide +kernel
  have hquarter : Timeval.ofSeconds (seconds 250000) = ⟨0, 250000⟩ := by decide +kernel
  simp only [List.mem_cons, List.not_mem_nil, or_false, not_or] at hnew
  rcases hnew with ⟨hno, hn1, hn4⟩
  have hkeys : ∀ (k : Int) (e : Timeval), [(k, e), (1, d)].map Prod.fst = [k, 1] := fun _ _ => rfl
  -- Half a second goes before the old half, which is exactly as far.
  rcases shows_added new (seconds 500000) h (by rw [hkeys]; simp [hno, hn1])
    (by rw [hhalf]; exact ⟨by decide, fun h => absurd h (by decide)⟩) now with ⟨t1, ht1, h1⟩
  have hplace : place new ⟨0, 500000⟩ [(old, ⟨1, -500000⟩), (1, d)]
      = [(new, ⟨2, -1500000⟩), (old, ⟨-1, 1000000⟩), (1, d)] := rfl
  rw [hhalf, hplace] at h1
  -- The quarter goes before it.
  rcases shows_added 4 (seconds 250000) h1 (by simp [Ne.symm hn4, hold.symm])
    (by rw [hquarter]; exact ⟨by decide, fun h => absurd h (by decide)⟩) now with ⟨t2, ht2, h2⟩
  have hplace' : place 4 ⟨0, 250000⟩ [(new, ⟨2, -1500000⟩), (old, ⟨-1, 1000000⟩), (1, d)]
      = [(4, ⟨1, -750000⟩), (new, ⟨0, 250000⟩), (old, ⟨-1, 1000000⟩), (1, d)] := rfl
  rw [hquarter, hplace'] at h2
  rcases shows_cancelled [] h2 with ⟨t3, ht3, h3, -⟩
  have hgive : giveNext ⟨1, -750000⟩ [(new, ⟨0, 250000⟩), (old, ⟨-1, 1000000⟩), (1, d)]
      = [(new, ⟨1, -500000⟩), (old, ⟨-1, 1000000⟩), (1, d)] := rfl
  rw [hgive] at h3
  -- The old half gives what it has come to be to the last timer.
  rcases shows_cancelled [(new, ⟨1, -500000⟩)] h3 with ⟨t4, ht4, h4, -⟩
  refine ⟨t4, ?_, h4⟩
  unfold driftTurn
  simp only [Machine.run_cons, Machine.run_nil, call, ht1, ht2, ht3, ht4, Option.bind_some]

open TimerList in
/-- Any number of rounds, two seconds each. -/
theorem drift_run {t : TimerList} {d : Timeval} (h : t.Shows [(2, ⟨1, -500000⟩), (1, d)])
    (now : Timeval) (n : Nat) :
    ∃ t', Machine.run call t (List.replicate n (driftCalls now)).flatten = some t' ∧
      t'.Shows [(2, ⟨1, -500000⟩), (1, ⟨d.tvSec - 2 * n, d.tvUsec + 2000000 * n⟩)] := by
  -- Induction on the rounds.
  induction n generalizing t d with
  | zero => exact ⟨t, rfl, by simpa using h⟩
  | succ n ih =>
      rcases drift_turn 3 2 h (by decide) (by decide) now with ⟨t1, ht1, h1⟩
      rcases drift_turn 2 3 h1 (by decide) (by decide) now with ⟨t2, ht2, h2⟩
      rcases ih h2 with ⟨t3, ht3, h3⟩
      have hround : Machine.run call t (driftCalls now) = some t2 := by
        rw [driftCalls, Machine.run_append, ht1, Option.bind_some, ht2]
      refine ⟨t3, ?_, ?_⟩
      · rw [List.replicate_succ, List.flatten_cons, Machine.run_append, hround, Option.bind_some,
          ht3]
      · have hsec : d.tvSec - 1 - 1 - 2 * (n : Int) = d.tvSec - 2 * ((n + 1 : Nat) : Int) := by
          omega
        have husec : d.tvUsec + 1000000 + 1000000 + 2000000 * (n : Int)
            = d.tvUsec + 2000000 * ((n + 1 : Nat) : Int) := by omega
        rw [← hsec, ← husec]
        exact h3

end Cse5462
