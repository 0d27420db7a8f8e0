import Cse5462.Tcpd.TimerDrift
import Cse5462.Tcpd.Turns

/-!
# A Run That Loses a Frame

A run of the driver and the timer process in which the carries add up until one of
them wraps, and a frame is lost by it. All blocks are zeros, every turn sends one, no
timer expires, and whenever the timer process gets to `select` its timeout is valid.

Frames 1 and 2 have the first and the last timer of the list, and are not acknowledged.
Between their timers are those of two more frames. These are acknowledged in turn, the
one with the shorter timer first, and each time the next frame is sent, first with a
longer timer and then with a shorter one. The difference that the last timer is given
is zero in the end, but it is represented as a million microseconds and a second less
(`drifting_pair`). The timers are of different lengths because the round-trip times are.
The numbers come round after 64 frames: the frames that then have the numbers 1 and 2
find timers running, and their own are dropped (`drifting_dropped`).

After 2169 rounds all timers but the last one are cancelled. It points back to the
head that was cancelled before it. The timer of the next frame is longer. A first
comparison says so, but its product wraps. When the two are compared again, the new
timer seems to be the shorter one, and is put behind the node before, which the list does
not have any more.

## Main definitions

* `CancelLeaves`, `StartLeaves`: What a command makes of the timers.
* `Drifting`: The driver before a turn, with the timers that are running.
* `driftRound`: Turns that move a second of the last timer.
* `runaway`: All the turns.

## Theorems

* `addTimenode_lost`: A start that loses its node.
* `drifting_turn`: A turn, by what it makes of the timers.
* `inRound_run`: Any number of rounds.
* `runaway_run`: The state after the last turn.
-/

namespace Cse5462

section Lost

variable {m : Heap} {a c q : Nat}

/-- At the only node of the list, which points back to another one, the loop
    links the new node in behind that one, if the comparisons come out as they may
    after a carry that has wrapped. -/
theorem addLoop_lost (n : Nat) (hca : c ≠ a) (hnext : (m a).next = none)
    (hback : (m a).forward = some q) (hqa : q ≠ a) (hneg : (compareNodes m c a).2 = true)
    (hagain : (compareNodes (compareNodes m c a).1 c a).2 = true) :
    ∃ m', addLoop c (n + 1) m (some a) = some m' ∧ (∀ x, (m' x).id = (m x).id) ∧
      (m' a).next = none := by
  have hsame := (compareNodes_links m c a).trans (compareNodes_links _ c a)
  unfold addLoop
  rw [if_pos hnext]
  dsimp only
  rw [hneg, if_neg Bool.noConfusion, if_pos hagain]
  cases hbefore : addBefore (compareNodes (compareNodes m c a).1 c a).1 c a with
  | none =>
      unfold addBefore at hbefore
      rw [hsame.forward, hback] at hbefore
      cases hbefore
  | some m' =>
      rcases addBefore_spec hbefore with ⟨hid, -, -⟩
      refine ⟨m', rfl, fun x => (hid x).trans (hsame.id x), ?_⟩
      unfold addBefore at hbefore
      rw [hsame.forward, hback, Option.map_some, Option.some.injEq] at hbefore
      subst hbefore
      simp only [subtractNode_next, Heap.setForward_next, Heap.setNext_next, if_neg hca.symm,
        if_neg hqa.symm]
      rw [hsame.next, hnext]

end Lost

namespace TimerList

variable {t t' : TimerList} {id k : Int} {d e : Timeval} {es fs : List (Int × Timeval)}
  {dtime : ℚ≥0} {b q : Nat}

/-- A timer started when the only other one has a difference that does not fit. -/
theorem addTimenode_lost (id : Int) (h : t.Shows [(k, e)]) (hhead : t.head = some b)
    (hback : (t.cell b).forward = some q) (hqb : q ≠ b) (hid : id ≠ k)
    (hd : Timeval.ofSeconds dtime = d) (hfirst : (timevalSubtract d e).negative = false)
    (hnext : (timevalSubtract d (carry d e)).negative = true)
    (hagain : (timevalSubtract d (carry d (carry d e))).negative = true) (now : Timeval) :
    ∃ t', t.addTimenode id dtime now = some t' ∧ t'.cell.ids t'.nodes = [k] := by
  rcases h with ⟨l, hl, htimed⟩
  rcases List.map_eq_cons_iff.mp htimed with ⟨a, vs, rfl, ha, hvs⟩
  rw [List.map_eq_nil_iff.mp hvs] at hl
  have hab : t.head = some a := hl.links.head_eq
  rw [hhead, Option.some.injEq] at hab
  subst hab
  rw [Prod.mk.injEq] at ha
  have hnew : id ∉ t.cell.ids [b] := by
    rw [ids_cons, ha.1]
    exact fun hmem => hid (List.mem_singleton.mp hmem)
  rcases malloc_spec hl id dtime with ⟨hnode, hold, hne, hc, hlinks⟩
  have hbc := hne b List.mem_cons_self
  have ht := addTimenode_eq hl hnew dtime now
  rw [hhead] at ht
  have hdelta : (t.malloc id dtime t.brk).deltaTime = d := by
    rw [hnode]
    exact hd
  have hlast : ([] : List Nat) ++ b :: [] = [b] := rfl
  rw [← hlast] at hlinks
  have hold : t.malloc id dtime b = t.cell b := hold b hbc
  have hbnext := hlinks.next_eq
  generalize t.malloc id dtime = m at *
  have hsame := compareNodes_links m t.brk b
  -- The differences that the comparisons look at.
  have hcompare : ∀ m' : Heap, (m' t.brk).deltaTime = d →
      (compareNodes m' t.brk b).2 = (timevalSubtract d (m' b).deltaTime).negative ∧
      ((compareNodes m' t.brk b).1 t.brk).deltaTime = d ∧
      ((compareNodes m' t.brk b).1 b).deltaTime = carry d (m' b).deltaTime := fun m' hm' => by
    refine ⟨?_, ?_, ?_⟩
    · unfold compareNodes
      rw [hm']
    · rw [compareNodes_frame _ _ _ hbc.symm, hm']
    · rw [compareNodes_deltaTime, hm']
  rcases hcompare m hdelta with ⟨hneg0, hd1, he1⟩
  rcases hcompare _ hd1 with ⟨hneg1, hd2, he2⟩
  rcases hcompare _ hd2 with ⟨hneg2, -, -⟩
  rw [hold, ha.2] at hneg0 he1
  rw [he1] at hneg1 he2
  rw [he2] at hneg2
  dsimp only at ht
  rw [hneg0, hfirst, if_neg Bool.false_ne_true] at ht
  rcases addLoop_lost (t.brk + (2 ^ 64 - 1)) hbc.symm ((hsame.next b).trans hbnext)
    ((hsame.forward b).trans (hold ▸ hback)) hqb (hneg1.trans hnext) (hneg2.trans hagain) with
    ⟨m', hm', hids, hend⟩
  rw [show t.brk + 2 ^ 64 = t.brk + (2 ^ 64 - 1) + 1 from rfl, hm', Option.map_some] at ht
  refine ⟨_, ht, ?_⟩
  have hnodes : Heap.walk m' (t.brk + 1) (some b) = [b] := by
    unfold Heap.walk
    rw [hend]
    cases t.brk <;> rfl
  unfold nodes
  dsimp only
  rw [hnodes, ids_cons, hids, hsame.id, hold, ha.1]
  rfl

/-- What is behind the head when it has been cancelled points back to it still. -/
theorem deleteTimenode_stale {vs : List Nat} {a : Nat} (h : t.Linked (a :: b :: vs))
    (hid : (t.cell a).id = id) (ht : t.deleteTimenode id = some t') :
    t'.head = some b ∧ (t'.cell b).forward = some a ∧
      (t'.cell a).deltaTime = (t.cell a).deltaTime := by
  have hhead : t.head = some a := h.links.head_eq
  have hfirst : t.cell.Links t.head ([] ++ a :: b :: vs) := h.links
  have hnext : (t.cell a).next = some b := hfirst.next_eq
  have hback : (t.cell b).forward = some a := hfirst.prev_eq
  have hfound : id ∈ t.cell.ids (a :: b :: vs) := hid ▸ List.mem_cons_self
  have hab : a ≠ b := fun heq =>
    (List.nodup_cons.mp h.links.nodup).1 (heq ▸ List.mem_cons_self)
  unfold deleteTimenode at ht
  rw [h.find, decide_eq_true hfound, Option.bind_some, if_neg Bool.noConfusion, hhead] at ht
  dsimp only at ht
  rw [if_pos hid, hnext] at ht
  cases ht
  exact ⟨rfl, (t.cell.setDelta_forward b b _).trans hback,
    by rw [Heap.setDelta_deltaTime, if_neg hab]⟩

/-- A head that is cancelled: the next timer is first, and the old head, which it points
    back to, keeps its difference. -/
theorem shows_head_cancelled {i : Int} (h : t.Shows ((i, e) :: (k, d) :: es)) :
    ∃ t' a b, t.deleteTimenode i = some t' ∧ t'.Shows ((k, timevalAdd d e) :: es) ∧
      t.head = some a ∧ (t'.cell a).deltaTime = e ∧
      t'.head = some b ∧ (t'.cell b).forward = some a ∧ a ≠ b := by
  rcases shows_cancelled [] h with ⟨t', ht', h', -⟩
  rcases h with ⟨l, hl, htimed⟩
  rcases List.map_eq_cons_iff.mp htimed with ⟨a, us, rfl, ha, hus⟩
  rcases List.map_eq_cons_iff.mp hus with ⟨b, vs, rfl, -, -⟩
  rw [Prod.mk.injEq] at ha
  rcases deleteTimenode_stale hl ha.1 ht' with ⟨hhead, hback, hkept⟩
  exact ⟨t', a, b, ht', h', hl.links.head_eq, hkept.trans ha.2, hhead, hback, fun heq =>
    (List.nodup_cons.mp hl.links.nodup).1 (heq ▸ List.mem_cons_self)⟩

end TimerList

/-- The driver before frame `n`, with its estimate at `s` and the timers `es`. -/
def Drifting (t : Tracked) (n s : Nat) (es : List (Int × Timeval)) : Prop :=
  ∃ tp l, Spinning t n tp l ∧ Settled tp s ∧ l.Shows es

/-- `timeout1` points to a valid difference, be it of a node of the list or not. -/
theorem valid_of_points {l : TimerList} {p : Option Nat} {a : Nat} (hp : p = some a)
    (ha : (l.cell a).deltaTime.Valid) :
    TimerProcess.TimeoutValid { list := l, timeout1 := p } := fun x hx => by
  rw [hp, Option.mem_some_iff] at hx
  exact hx ▸ ha

/-- The difference of the head is valid. -/
theorem shows_valid {l : TimerList} {k : Int} {e : Timeval} {es : List (Int × Timeval)}
    (h : l.Shows ((k, e) :: es)) (he : e.Valid) :
    TimerProcess.TimeoutValid { list := l, timeout1 := l.head } := by
  rcases h with ⟨us, hl, htimed⟩
  rcases List.map_eq_cons_iff.mp htimed with ⟨a, vs, rfl, ha, -⟩
  rw [Prod.mk.injEq] at ha
  exact valid_of_points hl.links.head_eq (ha.2.symm ▸ he)

section Drift

variable {t : Tracked} {n s m : Nat} {i k : Int} {e : Timeval} {es es1 es2 : List (Int × Timeval)}

/-- The cancellation of number `k` turns the timers `es` into `es1` and leaves the head
    where it is. -/
def CancelLeaves (k : Int) (es es1 : List (Int × Timeval)) : Prop :=
  ∀ l : TimerList, l.Shows es → ∃ l1, l.deleteTimenode k = some l1 ∧ l1.Shows es1 ∧
    l1.head = l.head

/-- A start of number `k` with an interval of `rto` microseconds turns the timers `es`
    into `es1`. -/
def StartLeaves (k : Int) (rto : Nat) (es es1 : List (Int × Timeval)) : Prop :=
  ∀ l : TimerList, l.Shows es → ∃ l1, l.addTimenode k (seconds rto) ⟨1, 0⟩ = some l1 ∧ l1.Shows es1

theorem cancels_absent (hk : k ∉ es.map Prod.fst) : CancelLeaves k es es := fun l h =>
  ⟨l, TimerList.shows_absent h hk, h, rfl⟩

theorem cancels_behind (k : Int) (d : Timeval) (es fs : List (Int × Timeval)) :
    CancelLeaves k ((i, e) :: es ++ (k, d) :: fs) ((i, e) :: es ++ giveNext d fs) := fun l h => by
  rcases TimerList.shows_cancelled ((i, e) :: es) h with ⟨l1, hl1, h1, hhead⟩
  exact ⟨l1, hl1, h1, hhead (List.cons_ne_nil _ _)⟩

theorem starts_present {rto : Nat} (hk : k ∈ es.map Prod.fst) : StartLeaves k rto es es :=
  fun l h => ⟨l, TimerList.shows_present h hk _ _, h⟩

theorem starts_new {rto : Nat} {d : Timeval} (hd : Timeval.ofSeconds (seconds rto) = d)
    (hk : k ∉ es.map Prod.fst) (hfits : WayFits d es) : StartLeaves k rto es (place k d es) :=
  fun _ h => hd ▸ TimerList.shows_added k (seconds rto) h hk (hd ▸ hfits) ⟨1, 0⟩

/-- A turn, by what it makes of the timers. -/
theorem drifting_turn (s' : Nat) (h : Drifting t n s ((i, e) :: es)) (he : e.Valid) (hn : 2 ≤ n)
    (hk : 0 ≤ k ∧ k < 64) (hm : 0 < m ∧ m ≤ 500) (hs' : s' + s / 8 = s + m)
    (hcancels : CancelLeaves k ((i, e) :: es) ((i, e) :: es1))
    (hstarts : StartLeaves (seqOf n) (2000 + s' / 8) ((i, e) :: es1) es2) :
    ∃ t', Machine.run (Tracked.step 65) t (ackedTurn k m) = some t' ∧
      Drifting t' (n + 1) s' es2 := by
  rcases h with ⟨tp, l, hspin, hset, hshows⟩
  have hset' := hset.sample s' hm.1 hm.2 hs'
  rcases hcancels l hshows with ⟨l1, hl1, hshows1, hhead⟩
  rcases hstarts l1 hshows1 with ⟨l2, hl2, hshows2⟩
  rw [← hset'.rto] at hl2
  have hvalid1 := shows_valid hshows1 he
  rw [hhead] at hvalid1
  rcases acked_turn hspin hn hk (by omega) (shows_valid hshows he) hl1 hvalid1 hl2 with
    ⟨t', ht', hspin', -⟩
  exact ⟨t', ht', _, l2, hspin', hset', hshows2⟩

end Drift

/-- The head, the timers of two numbers `q` and `p`, and the one that drifts. -/
def spunTimers (p q : Int) (k : Nat) : List (Int × Timeval) :=
  [(1, ⟨0, 2001⟩), (q, ⟨1, -999981⟩), (p, ⟨0, 2⟩), (2, ⟨-k, 3 + 1000000 * k⟩)]

/-- Two turns move one more second of the last timer. -/
theorem drifting_pair {t : Tracked} {n k : Nat} {p q : Int}
    (h : Drifting t n 162 (spunTimers p q k)) (hn : 2 ≤ n) (hp : 0 ≤ p ∧ p < 64) (hq : 0 ≤ q ∧ q < 64) (hnew : seqOf n ∉ [1, p, 2])
    (hnew' : seqOf (n + 1) ∉ [1, seqOf n, 2]) :
    ∃ t', Machine.run (Tracked.step 65) t (ackedTurn q 41 ++ ackedTurn p 1) = some t' ∧
      Drifting t' (n + 2) 162 (spunTimers (seqOf n) (seqOf (n + 1)) (k + 1)) := by
  have hlong : Timeval.ofSeconds (seconds 2022) = ⟨0, 2022⟩ := by decide +kernel
  have hshort : Timeval.ofSeconds (seconds 2020) = ⟨0, 2020⟩ := by decide +kernel
  have hvalid : Timeval.Valid ⟨0, 2001⟩ := by decide
  have hmoved : timevalAdd ⟨-k, 3 + 1000000 * k⟩ ⟨-1, 1000000⟩
      = ⟨-(k + 1 : Nat), 3 + 1000000 * (k + 1 : Nat)⟩ := by
    rw [timevalAdd, Timeval.mk.injEq]
    dsimp only
    omega
  -- The shorter timer is cancelled, and a longer one goes before what is left.
  have hcancel : CancelLeaves q (spunTimers p q k)
      [(1, ⟨0, 2001⟩), (p, ⟨1, -999979⟩), (2, ⟨-k, 3 + 1000000 * k⟩)] :=
    cancels_behind q ⟨1, -999981⟩ [] [(p, ⟨0, 2⟩), (2, ⟨-k, 3 + 1000000 * k⟩)]
  have hstart : StartLeaves (seqOf n) 2022
      [(1, ⟨0, 2001⟩), (p, ⟨1, -999979⟩), (2, ⟨-k, 3 + 1000000 * k⟩)]
      [(1, ⟨0, 2001⟩), (seqOf n, ⟨2, -1999979⟩), (p, ⟨-1, 1000000⟩), (2, ⟨-k, 3 + 1000000 * k⟩)] :=
    starts_new hlong hnew ⟨by decide, fun _ => ⟨by decide, fun h => absurd h (by decide)⟩⟩
  rcases drifting_turn (m := 41) 183 h hvalid hn hq ⟨by decide, by decide⟩ rfl hcancel hstart with
    ⟨t1, ht1, h1⟩
  -- The same with the other two, which gives the last timer a second in microseconds.
  have hcancel' : CancelLeaves p
      [(1, ⟨0, 2001⟩), (seqOf n, ⟨2, -1999979⟩), (p, ⟨-1, 1000000⟩), (2, ⟨-k, 3 + 1000000 * k⟩)]
      [(1, ⟨0, 2001⟩), (seqOf n, ⟨2, -1999979⟩),
        (2, timevalAdd ⟨-k, 3 + 1000000 * k⟩ ⟨-1, 1000000⟩)] :=
    cancels_behind p ⟨-1, 1000000⟩ [(seqOf n, ⟨2, -1999979⟩)] [(2, ⟨-k, 3 + 1000000 * k⟩)]
  rw [hmoved] at hcancel'
  have hstart' : StartLeaves (seqOf (n + 1)) 2020
      [(1, ⟨0, 2001⟩), (seqOf n, ⟨2, -1999979⟩), (2, ⟨-(k + 1 : Nat), 3 + 1000000 * (k + 1 : Nat)⟩)]
      (spunTimers (seqOf n) (seqOf (n + 1)) (k + 1)) :=
    starts_new hshort hnew' ⟨by decide, fun _ => ⟨by decide, fun h => absurd h (by decide)⟩⟩
  rcases drifting_turn (m := 1) 162 h1 hvalid (Nat.le_succ_of_le hn) hp ⟨by decide, by decide⟩ rfl
    hcancel' hstart' with ⟨t2, ht2, h2⟩
  refine ⟨t2, ?_, h2⟩
  rw [Machine.run_append, ht1, Option.bind_some, ht2]

/-- Two turns in which the frames have the numbers of the first and the last timer. Their
    starts are dropped. -/
theorem drifting_dropped {t : Tracked} {n k : Nat} {p q : Int}
    (h : Drifting t n 162 (spunTimers p q k)) (hn : n % 64 = 1) (hpos : 2 ≤ n)
    (habsent : 61 ∉ [1, q, p, 2]) :
    ∃ t', Machine.run (Tracked.step 65) t (ackedTurn 61 41 ++ ackedTurn 61 1) = some t' ∧
      Drifting t' (n + 2) 162 (spunTimers p q k) := by
  have hvalid : Timeval.Valid ⟨0, 2001⟩ := by decide
  have hfirst : seqOf n = 1 := by
    unfold seqOf
    omega
  have hlast : seqOf (n + 1) = 2 := by
    unfold seqOf
    omega
  have hcancel : CancelLeaves 61 (spunTimers p q k) (spunTimers p q k) := cancels_absent habsent
  have hstart : ∀ rto, StartLeaves (seqOf n) rto (spunTimers p q k) (spunTimers p q k) := fun rto =>
    starts_present (hfirst ▸ List.mem_cons_self)
  have hstart' : ∀ rto, StartLeaves (seqOf (n + 1)) rto (spunTimers p q k) (spunTimers p q k) :=
    fun rto => starts_present (by rw [hlast]; simp [spunTimers])
  rcases drifting_turn (m := 41) 183 h hvalid hpos ⟨by decide, by decide⟩ ⟨by decide, by decide⟩ rfl
    hcancel (hstart _) with ⟨t1, ht1, h1⟩
  rcases drifting_turn (m := 1) 162 h1 hvalid (Nat.le_succ_of_le hpos) ⟨by decide, by decide⟩
    ⟨by decide, by decide⟩ rfl hcancel (hstart' _) with ⟨t2, ht2, h2⟩
  refine ⟨t2, ?_, h2⟩
  rw [Machine.run_append, ht1, Option.bind_some, ht2]

/-- The frames whose timers are in the list before round `i` are `2 * pairAt i + 1` and the
    next one. Every 32nd pair of frames is dropped. -/
def pairAt (i : Nat) : Nat := i + i / 31 + 1

/-- Round `i`: the timers of a pair of frames are cancelled, and those of the next pair
    started. -/
def driftRound (i : Nat) : List ClientEvent :=
  (if pairAt i % 32 = 31 then ackedTurn 61 41 ++ ackedTurn 61 1 else []) ++
    (ackedTurn (seqOf (2 * pairAt i + 2)) 41 ++ ackedTurn (seqOf (2 * pairAt i + 1)) 1)

/-- Before round `i`. -/
def InRound (t : Tracked) (i : Nat) : Prop :=
  Drifting t (2 * pairAt i + 3) 162
    (spunTimers (seqOf (2 * pairAt i + 1)) (seqOf (2 * pairAt i + 2)) i)

/-- A round moves one second. -/
theorem inRound_next {t : Tracked} {i : Nat} (h : InRound t i) :
    ∃ t', Machine.run (Tracked.step 65) t (driftRound i) = some t' ∧ InRound t' (i + 1) := by
  have hp := seqOf_mem (2 * pairAt i + 1)
  have hq := seqOf_mem (2 * pairAt i + 2)
  unfold InRound at h ⊢
  unfold driftRound
  by_cases hdropped : pairAt i % 32 = 31
  · have hnext : pairAt (i + 1) = pairAt i + 2 := by
      unfold pairAt at *
      omega
    rw [hnext, if_pos hdropped, Machine.run_append]
    generalize pairAt i = j at *
    rcases drifting_dropped h (by omega) (by omega)
      (by simp only [List.mem_cons, List.not_mem_nil, or_false, seqOf]; omega) with ⟨t1, ht1, h1⟩
    rw [ht1, Option.bind_some]
    exact drifting_pair h1 (by omega) hp hq
      (by simp only [List.mem_cons, List.not_mem_nil, or_false, seqOf]; omega)
      (by simp only [List.mem_cons, List.not_mem_nil, or_false, seqOf]; omega)
  · have hnext : pairAt (i + 1) = pairAt i + 1 ∧ pairAt i % 32 ≠ 0 := by
      unfold pairAt at *
      omega
    rcases hnext with ⟨hnext, hne⟩
    rw [hnext, if_neg hdropped, List.nil_append]
    generalize pairAt i = j at *
    exact drifting_pair h (by omega) hp hq
      (by simp only [List.mem_cons, List.not_mem_nil, or_false, seqOf]; omega)
      (by simp only [List.mem_cons, List.not_mem_nil, or_false, seqOf]; omega)

/-- Any number of rounds. -/
def driftRounds (n : Nat) : List ClientEvent := (List.range n).flatMap driftRound

theorem inRound_run {t : Tracked} (h : InRound t 0) (n : Nat) :
    ∃ t', Machine.run (Tracked.step 65) t (driftRounds n) = some t' ∧ InRound t' n := by
  -- Induction on the rounds.
  induction n with
  | zero => exact ⟨t, rfl, h⟩
  | succ n ih =>
      rcases ih with ⟨t1, ht1, h1⟩
      rcases inRound_next h1 with ⟨t2, ht2, h2⟩
      refine ⟨t2, ?_, h2⟩
      rw [driftRounds, List.range_succ, List.flatMap_append, Machine.run_append, ← driftRounds, ht1,
        Option.bind_some, List.flatMap_singleton, ht2]

/-- The driver before its first turn. -/
theorem spinning_init (cell : Heap) (start : Timeval) :
    Spinning (Tracked.init emptyBuffer cell start) 0 TcpSock.init (TimerList.empty cell start) where
  cursors := (by decide : Cursors.init = Cursors.spun 0)
  sendbuf := rfl
  tp := rfl
  phase := rfl
  timer := rfl
  commands := rfl
  requests := rfl

/-- Five turns: a timer that comes out first and is cancelled, the first and the last
    timer, and two between them. -/
def firstTurns : List ClientEvent :=
  quietTurn ++ (quietTurn ++ (ackedTurn 0 200 ++ (ackedTurn 0 1 ++ ackedTurn 0 1)))

theorem inRound_first (cell : Heap) (start : Timeval) :
    ∃ t, Machine.run (Tracked.step 65) (Tracked.init emptyBuffer cell start) firstTurns = some t ∧
      InRound t 0 := by
  have hfirst : Timeval.ofSeconds (seconds 2001) = ⟨0, 2001⟩ := by decide +kernel
  have hlast : Timeval.ofSeconds (seconds 2025) = ⟨0, 2025⟩ := by decide +kernel
  have hlong : Timeval.ofSeconds (seconds 2022) = ⟨0, 2022⟩ := by decide +kernel
  have hshort : Timeval.ofSeconds (seconds 2020) = ⟨0, 2020⟩ := by decide +kernel
  have hvalid : Timeval.Valid ⟨0, 2001⟩ := by decide
  -- Frames 0 and 1 with the same interval.
  have hstart0 : StartLeaves (seqOf 0) 2001 [] [(0, ⟨0, 2001⟩)] :=
    starts_new hfirst List.not_mem_nil trivial
  rcases hstart0 _ (TimerList.shows_empty cell start) with ⟨l0, hl0, h0⟩
  have hrto0 : tcpSetRto (tcpRttEstimator TcpSock.init 0) = 2001 := by decide
  rw [← hrto0] at hl0
  rcases quiet_turn (spinning_init cell start) rfl (by decide)
    (fun _ hx => absurd hx (Option.not_mem_none _)) hl0 with ⟨t0, ht0, hspin0, hrtt0⟩
  have hstart1 : StartLeaves (seqOf 1) 2001 [(0, ⟨0, 2001⟩)] [(0, ⟨0, 2001⟩), (1, ⟨0, 0⟩)] :=
    starts_new hfirst (by decide) ⟨by decide, fun _ => trivial⟩
  rcases hstart1 _ h0 with ⟨l1, hl1, h1⟩
  have hrto1 : tcpSetRto (tcpRttEstimator (tcpRttEstimator TcpSock.init 0) 0) = 2001 := by decide
  rw [← hrto1] at hl1
  rcases quiet_turn hspin0 hrtt0 (by decide) (shows_valid h0 hvalid) hl1 with
    ⟨t1, ht1, hspin1, -⟩
  -- Frame 0 is acknowledged, and frame 2 has the longest interval.
  rcases TimerList.shows_head_cancelled h1 with ⟨l, a, b, hl, h, ha, hkept, -⟩
  have hstart2 : StartLeaves (seqOf 2) 2025 [(1, ⟨0, 2001⟩)] [(1, ⟨0, 2001⟩), (2, ⟨0, 24⟩)] :=
    starts_new hlast (by decide) ⟨by decide, fun _ => trivial⟩
  rcases hstart2 _ h with ⟨l2, hl2, h2⟩
  have hdead : TimerProcess.TimeoutValid { list := l, timeout1 := l1.head } :=
    valid_of_points ha (hkept.symm ▸ hvalid)
  have hrto2 := settled_first.rto
  rw [show 2025 = 2000 + 207 / 8 from rfl, ← hrto2] at hl2
  rcases acked_turn hspin1 (by decide) ⟨by decide, by decide⟩ (by decide) (shows_valid h1 hvalid) hl
    hdead hl2 with ⟨t2, ht2, hspin2, -⟩
  -- Frames 3 and 4 come between.
  have hdrift : Drifting t2 3 207 [(1, ⟨0, 2001⟩), (2, ⟨0, 24⟩)] :=
    ⟨_, l2, hspin2, settled_first, h2⟩
  have hstart3 : StartLeaves (seqOf 3) 2022 [(1, ⟨0, 2001⟩), (2, ⟨0, 24⟩)]
      [(1, ⟨0, 2001⟩), (3, ⟨1, -999979⟩), (2, ⟨0, 3⟩)] :=
    starts_new hlong (by decide) ⟨by decide, fun _ => ⟨by decide, fun h => absurd h (by decide)⟩⟩
  rcases drifting_turn (k := 0) (m := 1) 183 hdrift hvalid (by decide) ⟨by decide, by decide⟩
    ⟨by decide, by decide⟩ rfl (cancels_absent (by decide)) hstart3 with ⟨t3, ht3, h3⟩
  have hstart4 : StartLeaves (seqOf 4) 2020 [(1, ⟨0, 2001⟩), (3, ⟨1, -999979⟩), (2, ⟨0, 3⟩)]
      (spunTimers (seqOf 3) (seqOf 4) 0) :=
    starts_new hshort (by decide) ⟨by decide, fun _ => ⟨by decide, fun h => absurd h (by decide)⟩⟩
  rcases drifting_turn (k := 0) (m := 1) 162 h3 hvalid (by decide) ⟨by decide, by decide⟩
    ⟨by decide, by decide⟩ rfl (cancels_absent (by decide)) hstart4 with ⟨t4, ht4, h4⟩
  refine ⟨t4, ?_, h4⟩
  rw [firstTurns]
  simp only [Machine.run_append, ht0, ht1, ht2, ht3, ht4, Option.bind_some]

/-- Three turns. The two timers in between are cancelled and then the head. -/
def lastTurns : List ClientEvent := ackedTurn 0 41 ++ (ackedTurn 63 1 ++ ackedTurn 1 500)

/-- After 2169 rounds, the timer of the last turn is lost. -/
theorem lost_last {t : Tracked} (h : InRound t 2169) :
    ∃ t', Machine.run (Tracked.step 65) t lastTurns = some t' ∧ t'.live 3 = some Block.zero ∧
      t'.client.commands = [] ∧ t'.client.requests = [] ∧ t'.client.driver.phase = .select ∧
      t'.client.timer.pending = [2] := by
  have hvalid : Timeval.Valid ⟨0, 2001⟩ := by decide
  have hstart : Drifting t 4481 162 (spunTimers 63 0 2169) := h
  -- Frames 4481 and 4482 are dropped.
  have hcancel1 : CancelLeaves 0 (spunTimers 63 0 2169)
      [(1, ⟨0, 2001⟩), (63, ⟨1, -999979⟩), (2, ⟨-2169, 2169000003⟩)] :=
    cancels_behind 0 ⟨1, -999981⟩ [] [(63, ⟨0, 2⟩), (2, ⟨-2169, 2169000003⟩)]
  rcases drifting_turn (m := 41) 183 hstart hvalid (by decide) ⟨by decide, by decide⟩
    ⟨by decide, by decide⟩ rfl hcancel1 (starts_present (by decide)) with ⟨t1, ht1, h1⟩
  have hcancel2 : CancelLeaves 63 [(1, ⟨0, 2001⟩), (63, ⟨1, -999979⟩), (2, ⟨-2169, 2169000003⟩)]
      [(1, ⟨0, 2001⟩), (2, ⟨-2168, 2168000024⟩)] :=
    cancels_behind 63 ⟨1, -999979⟩ [] [(2, ⟨-2169, 2169000003⟩)]
  rcases drifting_turn (m := 1) 162 h1 hvalid (by decide) ⟨by decide, by decide⟩
    ⟨by decide, by decide⟩ rfl hcancel2 (starts_present (by decide)) with
    ⟨t2, ht2, tp, l, hspin, hset, hshows⟩
  -- The head is cancelled, and what is left of it is what the last timer points back to.
  rcases TimerList.shows_head_cancelled hshows with
    ⟨l1, a, b, hl1, hshows1, ha, hkept, hb, hback, hab⟩
  have hdead : TimerProcess.TimeoutValid { list := l1, timeout1 := l.head } :=
    valid_of_points ha (hkept.symm ▸ hvalid)
  have hset' := hset.sample (m := 500) 642 (by decide) (by decide) rfl
  have hlonger : Timeval.ofSeconds (seconds 2080) = ⟨0, 2080⟩ := by decide +kernel
  rcases TimerList.addTimenode_lost 3 hshows1 hb hback hab (by decide) hlonger (by decide)
    (by decide) (by decide) ⟨1, 0⟩ with ⟨l2, hl2, hids⟩
  rw [show 2080 = 2000 + 642 / 8 from rfl, ← hset'.rto] at hl2
  rcases acked_turn hspin (by decide) ⟨by decide, by decide⟩ (by decide) (shows_valid hshows hvalid)
    hl1 hdead hl2 with ⟨t3, ht3, hspin3, hlive⟩
  refine ⟨t3, ?_, hlive, hspin3.commands, hspin3.requests, hspin3.phase, ?_⟩
  · rw [lastTurns]
    simp only [Machine.run_append, ht1, ht2, ht3, Option.bind_some]
  · unfold TimerProcess.pending
    rw [hspin3.timer]
    exact hids

/-- All the turns. -/
def runaway : List ClientEvent := firstTurns ++ (driftRounds 2169 ++ lastTurns)

/-- Frame 3 has been sent, and there is nothing about it in the pipes or in the list. -/
theorem runaway_run (cell : Heap) (start : Timeval) :
    ∃ t, Machine.run (Tracked.step 65) (Tracked.init emptyBuffer cell start) runaway = some t ∧
      t.live 3 = some Block.zero ∧ t.client.commands = [] ∧ t.client.requests = [] ∧
      t.client.driver.phase = .select ∧ t.client.timer.pending = [2] := by
  rcases inRound_first cell start with ⟨t1, ht1, h1⟩
  rcases inRound_run h1 2169 with ⟨t2, ht2, h2⟩
  rcases lost_last h2 with ⟨t3, ht3, h3⟩
  refine ⟨t3, ?_, h3⟩
  rw [runaway, Machine.run_append, ht1, Option.bind_some, Machine.run_append, ht2, Option.bind_some,
    ht3]

/-- The acknowledgement of a turn carries the number of the turn. -/
theorem ack_of_mem_turn {k n : Int} {m : Nat} {stamp now : Timeval}
    (h : ClientEvent.ack n stamp now ∈ ackedTurn k m) : n = k := by
  simp only [ackedTurn, List.mem_cons, reduceCtorEq, ClientEvent.ack.injEq, List.not_mem_nil,
    or_false, false_or] at h
  exact h.1

theorem not_mem_quietTurn {n : Int} {stamp now : Timeval} :
    ClientEvent.ack n stamp now ∉ quietTurn := by
  simp [quietTurn]

/-- Every acknowledgement carries the number of a slot. -/
theorem runaway_slots {n : Int} {stamp now : Timeval} (h : ClientEvent.ack n stamp now ∈ runaway) :
    0 ≤ n ∧ n < 64 := by
  have hslot : ∀ {k : Int} {m : Nat}, 0 ≤ k ∧ k < 64 → ClientEvent.ack n stamp now ∈ ackedTurn k m →
      0 ≤ n ∧ n < 64 := fun hk hmem => ack_of_mem_turn hmem ▸ hk
  simp only [runaway, firstTurns, lastTurns, driftRounds, List.mem_append, List.mem_flatMap,
    not_mem_quietTurn, false_or] at h
  rcases h with (h | h | h) | ⟨i, -, h⟩ | h | h | h
  · exact hslot (by decide) h
  · exact hslot (by decide) h
  · exact hslot (by decide) h
  · -- The turns of a round.
    unfold driftRound at h
    simp only [List.mem_append] at h
    rcases h with h | h | h
    · split at h
      · exact (List.mem_append.mp h).elim (hslot (by decide)) (hslot (by decide))
      · exact absurd h List.not_mem_nil
    · exact hslot (seqOf_mem _) h
    · exact hslot (seqOf_mem _) h
  · exact hslot (by decide) h
  · exact hslot (by decide) h
  · exact hslot (by decide) h

end Cse5462
