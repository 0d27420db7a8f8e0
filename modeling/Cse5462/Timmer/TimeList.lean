import Cse5462.Tcpd.TimerMap

/-!
# The Stand-Alone Timer

The timer list of `proj1/timmer.c`, from which the one of `tcpd.c` was made. The
functions that are the same in both are not repeated: `find_timenode`, the loop
of `add_timenode`, and `timeval_subtract` and `timeval_add`. What is different
here:

* `add_timenode` and `delete_timenode` end with `print_time_list`, which carries
  a second into negative microseconds of every node it prints;
* `delete_timenode` does not look for the id first. It reads the id of the head,
  also if the list is empty, and goes along the list when the head has another;
* `delete_timenode` does not set the `forward` of the node behind the one it
  takes out;
* `update_time_list` writes no requests.

## Main definitions

* `Timmer.printTimeList`: The list printed, with its microseconds put right.
* `Timmer.addTimenode`, `Timmer.deleteTimenode`, `Timmer.updateTimeList`: The
  three operations.
* `Timmer.call`: A call of one of them.

## Theorems

* `printLoop_spec`: Printing keeps what the list stands for.
-/

namespace Cse5462

namespace Timmer

/-- What `print_time_list` makes of a difference before it prints it. -/
def normalise (d : Timeval) : Timeval :=
  if d.tvUsec < 0 then { tvSec := d.tvSec - 1, tvUsec := d.tvUsec + 1000000 } else d

/-- The loop of `print_time_list`. -/
def printLoop : Nat → Heap → Option Nat → Option Heap
  | _, m, none => some m
  | 0, _, some _ => none
  | n + 1, m, some a => printLoop n (m.setDelta a (normalise (m a).deltaTime)) (m a).next

/-- `print_time_list(head)`. -/
def printTimeList (t : TimerList) : Option TimerList :=
  (printLoop t.brk t.cell t.head).map fun m => { t with cell := m }

/-- `add_timenode` for an interval of `dtime` seconds, when the clock stands at
    `now`. -/
def addTimenode (t : TimerList) (id : Int) (dtime : ℚ≥0) (now : Timeval) : Option TimerList :=
  (findTimenode t.cell id t.brk t.head).bind fun found =>
    if found then some t
    else
      let c := t.brk
      let m := Function.update t.cell c
        { id := id, deltaTime := Timeval.ofSeconds dtime, forward := none, next := none }
      match t.head with
      | none => some { cell := m, brk := t.brk + 1, head := some c, lasttime := now }
      | some a =>
          let r := compareNodes m c a
          if r.2 then
            printTimeList { t with cell := addAtFirst r.1 c a, brk := t.brk + 1, head := some c }
          else
            (addLoop c (t.brk + 2 ^ 64) r.1 (some a)).bind fun m =>
              printTimeList { t with cell := m, brk := t.brk + 1 }

/-- Node `a`, which is not the head, is taken out of the list: the node that it
    points back to is linked to the next one, which gets its difference. -/
def unlink (m : Heap) (a : Nat) : Option Heap :=
  (m a).forward.map fun p =>
    let m := m.setNext p (m a).next
    match (m a).next with
    | none => m
    -- The next node goes on pointing back to node `a`.
    | some b => m.setDelta b (timevalAdd (m b).deltaTime (m a).deltaTime)

/-- The loop of `delete_timenode`. -/
def deleteLoop (id : Int) : Nat → Heap → Option Nat → Option Heap
  | _, m, none => some m
  | 0, _, some _ => none
  | n + 1, m, some a =>
      if (m a).id = id then unlink m a else deleteLoop id n m (m a).next

/-- `delete_timenode`. -/
def deleteTimenode (t : TimerList) (id : Int) : Option TimerList :=
  match t.head with
  -- The id of the head is read through a null pointer.
  | none => none
  | some a =>
      if (t.cell a).id = id then
        let dtime := (t.cell a).deltaTime
        match (t.cell a).next with
        | none => printTimeList { t with head := none }
        | some b =>
            let m := t.cell.setDelta b (timevalAdd (t.cell b).deltaTime dtime)
            printTimeList { t with cell := m, head := some b }
      else
        (deleteLoop id t.brk t.cell (some a)).bind fun m => printTimeList { t with cell := m }

/-- `update_time_list`: as in `tcpd.c`, but no request is written. -/
def updateTimeList (t : TimerList) (now : Timeval) : Option TimerList :=
  (t.updateTimeList now).map Prod.fst

/-- What a call makes of the list. -/
def call (t : TimerList) : TimerCall → Option TimerList
  | .add id dtime now => addTimenode t id dtime now
  | .delete id => deleteTimenode t id
  | .update now => updateTimeList t now

theorem normalise_value (d : Timeval) : (normalise d).value = d.value := by
  unfold normalise
  split
  · simp only [Timeval.value]
    ring
  · rfl

/-- Printing a list comes to its end and rewrites differences without changing
    their values. -/
theorem printLoop_spec (l : List Nat) (n : Nat) (m : Heap) (p : Option Nat) (hl : m.Links p l)
    (hn : l.length ≤ n) : ∃ m', printLoop n m p = some m' ∧ SameList m m' := by
  -- Induction on the nodes.
  induction l generalizing n m p with
  | nil =>
      have hp : p = none := hl.head_eq
      subst hp
      exact ⟨m, by unfold printLoop; rfl, sameLinks_refl m, fun _ => rfl⟩
  | cons a l ih =>
      have hp : p = some a := hl.head_eq
      subst hp
      cases n with
      | zero => exact absurd hn (Nat.not_succ_le_zero _)
      | succ n =>
          have hsame := sameList_setDelta m a _ (normalise_value (m a).deltaTime)
          rcases ih n _ _ (hsame.links hl.tail) (Nat.le_of_succ_le_succ hn) with ⟨m', hm', hsame'⟩
          exact ⟨m', hm', hsame.toSameLinks.trans hsame'.toSameLinks,
            fun x => (hsame'.value x).trans (hsame.value x)⟩

end Timmer

end Cse5462
