import Cse5462.Tcpd.Interval
import Mathlib.Logic.Function.Basic

/-!
# The Timer List

The list of pending timers that the timer process keeps: `find_timenode`,
`add_timenode`, `delete_timenode` and `update_time_list`, on a heap of nodes.

A node is an address, and the heap maps addresses to nodes. No node is ever
freed, so `malloc` hands out the next address (`brk`) and every address below
it is a node. New nodes have null pointers, as `add_timenode` relies on.

`delta_time` is the time from the expiry of the node before. All comparisons
are made with `timeval_subtract`, which rewrites the representation of its
second operand: `compareNodes` is such a comparison with the heap it leaves.

The loops follow pointers. They are given as much fuel as there are addresses,
and they are `none` if it runs out, that is if they would go round in a circle,
and where the source would follow a null pointer. Only the loop of `add_timenode`
may come to a node twice, because its tests compare the node anew: it is given more
turns than a run has time for.

## Main definitions

* `TimeNode`, `Heap`: The nodes in memory.
* `TimerList`: The list with the clock reading it was last brought up to.
* `findTimenode`: The search for an id.
* `addTimenode`: A new timer.
* `deleteTimenode`: A timer cancelled.
* `updateTimeList`: The passing of time, and the ids that have expired.

## Theorems

* `compareNodes_links`: What every comparison leaves alone.
* `compareNodes_spec`: What a comparison says, if the carry fits.
* `compareNodes_again`: A repeated comparison gives the same answer.
* `subtractNode_value`: The differences after a subtraction.
-/

namespace Cse5462

/-- The fields of `TimeNode` that the timer list uses. -/
structure TimeNode where
  id : Int
  deltaTime : Timeval
  forward : Option Nat
  next : Option Nat

/-- The nodes by address. -/
abbrev Heap := Nat → TimeNode

/-- The heap, the next free address, the head of the list, and `lasttime`. -/
structure TimerList where
  cell : Heap
  brk : Nat
  head : Option Nat
  lasttime : Timeval

namespace Heap

def setDelta (m : Heap) (a : Nat) (d : Timeval) : Heap :=
  Function.update m a { m a with deltaTime := d }

def setNext (m : Heap) (a : Nat) (p : Option Nat) : Heap :=
  Function.update m a { m a with next := p }

def setForward (m : Heap) (a : Nat) (p : Option Nat) : Heap :=
  Function.update m a { m a with forward := p }

end Heap

/-- `timeval_subtract(&r, &x->delta_time, &y->delta_time)`: the heap it leaves,
    and whether it returns 1. -/
def compareNodes (m : Heap) (x y : Nat) : Heap × Bool :=
  let s := timevalSubtract (m x).deltaTime (m y).deltaTime
  (m.setDelta y s.y, s.negative)

/-- `timeval_subtract(&x->delta_time, &x->delta_time, &y->delta_time)`. -/
def subtractNode (m : Heap) (x y : Nat) : Heap :=
  let s := timevalSubtractInPlace (m x).deltaTime (m y).deltaTime
  (m.setDelta y s.y).setDelta x s.result

/-- `find_timenode`, looking at no more than `n` nodes. -/
def findTimenode (m : Heap) (id : Int) : Nat → Option Nat → Option Bool
  | _, none => some false
  | 0, some _ => none
  | n + 1, some a => if (m a).id = id then some true else findTimenode m id n (m a).next

/-- The end of the list: node `c` goes behind node `a`. -/
def addAtEnd (m : Heap) (c a : Nat) : Heap :=
  ((subtractNode m c a).setNext a (some c)).setForward c (some a)

/-- Node `c` goes before node `a`, which is found through its `forward`. -/
def addBefore (m : Heap) (c a : Nat) : Option Heap :=
  (m a).forward.map fun p =>
    -- The predecessor and node `a` are linked to the new node, and the new one to them.
    let m := m.setNext p (some c)
    let m := m.setForward c (m a).forward
    let m := m.setNext c (some a)
    let m := m.setForward a (some c)
    -- Node `a` expires that much after the new node.
    subtractNode m a c

/-- Node `c` goes before node `a`, the head of the list. -/
def addAtFirst (m : Heap) (c a : Nat) : Heap :=
  subtractNode ((m.setNext c (some a)).setForward a (some c)) a c

/-- The loop of `add_timenode` that looks for the place of node `c`, at the
    node it has come to. Each of the three tests of the source makes its own
    comparison, the first only at the last node and the third only before. -/
def addLoop (c : Nat) : Nat → Heap → Option Nat → Option Heap
  | _, m, none => some m
  | 0, _, some _ => none
  | n + 1, m, some a =>
      -- At the last node: does the new timer expire after it?
      let r := if (m a).next = none then compareNodes m c a else (m, true)
      if r.2 = false then some (addAtEnd r.1 c a)
      else
        -- Does it expire before this node?
        let r := compareNodes r.1 c a
        if r.2 then addBefore r.1 c a
        else
          -- If not, its interval is now counted from this node.
          let r := if (r.1 a).next ≠ none then compareNodes r.1 c a else (r.1, true)
          if r.2 = false then
            let m := subtractNode r.1 c a
            addLoop c n m (m a).next
          else addLoop c n r.1 (some a)

/-- Node `a`, which is not the head, is taken out of the list: the nodes around
    it are linked to each other, and the next one gets its difference. -/
def unlink (m : Heap) (a : Nat) : Option Heap :=
  (m a).forward.map fun p =>
    let m := m.setNext p (m a).next
    match (m a).next with
    -- The last node has nobody to give its difference to.
    | none => m
    | some b =>
        let m := m.setForward b (m a).forward
        m.setDelta b (timevalAdd (m b).deltaTime (m a).deltaTime)

/-- The loop of `delete_timenode` that looks for node `id` and unlinks it. -/
def deleteLoop (id : Int) : Nat → Heap → Option Nat → Option Heap
  | _, m, none => some m
  | 0, _, some _ => none
  | n + 1, m, some a =>
      if (m a).id = id then unlink m a else deleteLoop id n m (m a).next

/-- What the loop of `update_time_list` leaves: the heap, the time that is left
    over, the new head, and the ids it has written to the driver. -/
structure Expiry where
  cell : Heap
  dtime : Timeval
  head : Option Nat
  ids : List Int

/-- The loop of `update_time_list`: as long as the head is due, its id is
    written to the driver and its time taken off what has passed. -/
def expireLoop : Nat → Heap → Timeval → Option Nat → Option Expiry
  | _, m, dtime, none => some { cell := m, dtime := dtime, head := none, ids := [] }
  | 0, _, _, some _ => none
  | n + 1, m, dtime, some a =>
      let s := timevalSubtract dtime (m a).deltaTime
      let m := m.setDelta a s.y
      -- The head is not due yet.
      if s.negative then some { cell := m, dtime := dtime, head := some a, ids := [] }
      else
        let s := timevalSubtractInPlace dtime (m a).deltaTime
        let m := m.setDelta a s.y
        -- The request is written, and the rest of the time goes to the next node.
        (expireLoop n m s.result (m a).next).map fun e => { e with ids := (m a).id :: e.ids }

namespace TimerList

/-- The list with which the timer process starts: the global `head` is null. -/
def empty (cell : Heap) (lasttime : Timeval) : TimerList :=
  { cell := cell, brk := 0, head := none, lasttime := lasttime }

/-- `add_timenode` for an interval of `dtime` seconds, when the clock stands at
    `now`. -/
def addTimenode (t : TimerList) (id : Int) (dtime : ℚ≥0) (now : Timeval) : Option TimerList :=
  (findTimenode t.cell id t.brk t.head).bind fun found =>
    -- A timer for this id is running already.
    if found then some t
    else
      let c := t.brk
      let m := Function.update t.cell c
        { id := id, deltaTime := Timeval.ofSeconds dtime, forward := none, next := none }
      -- The list was empty, or has a head to compare the new node with.
      match t.head with
      | none => some { cell := m, brk := t.brk + 1, head := some c, lasttime := now }
      | some a =>
          let r := compareNodes m c a
          if r.2 then
            some { t with cell := addAtFirst r.1 c a, brk := t.brk + 1, head := some c }
          else
            (addLoop c (t.brk + 2 ^ 64) r.1 (some a)).map fun m =>
              { t with cell := m, brk := t.brk + 1 }

/-- `delete_timenode`. -/
def deleteTimenode (t : TimerList) (id : Int) : Option TimerList :=
  (findTimenode t.cell id t.brk t.head).bind fun found =>
    if found = false then some t
    else
      match t.head with
      | none => none
      | some a =>
          -- The head gives its difference to the next node, which becomes the head.
          if (t.cell a).id = id then
            let dtime := (t.cell a).deltaTime
            match (t.cell a).next with
            | none => some { t with head := none }
            | some b =>
                let m := t.cell.setDelta b (timevalAdd (t.cell b).deltaTime dtime)
                some { t with cell := m, head := some b }
          else (deleteLoop id t.brk t.cell (some a)).map fun m => { t with cell := m }

/-- The time that `update_time_list` takes to have passed. -/
def passed (t : TimerList) (now : Timeval) : Timeval :=
  if t.lasttime.tvSec = 0 ∧ t.lasttime.tvUsec = 0 then t.lasttime
  else (timevalSubtract now t.lasttime).result

/-- `update_time_list`, when the clock stands at `now`: the list and the ids of
    the resend requests it writes to the driver. -/
def updateTimeList (t : TimerList) (now : Timeval) : Option (TimerList × List Int) :=
  (expireLoop t.brk t.cell (t.passed now) t.head).map fun e =>
    -- The time that is left over is taken off the new head.
    match e.head with
    | none => ({ t with cell := e.cell, head := none, lasttime := now }, e.ids)
    | some a =>
        let d := (timevalSubtractInPlace (e.cell a).deltaTime e.dtime).result
        ({ t with cell := e.cell.setDelta a d, head := some a, lasttime := now }, e.ids)

end TimerList

namespace Heap

variable (m : Heap) (a b : Nat) (d : Timeval) (p : Option Nat)

/-- Writing a node does not change a field that the new node has from the old
    one, at any address. -/
theorem update_kept {β : Type} (field : TimeNode → β) (node : TimeNode)
    (h : field node = field (m a)) : field (Function.update m a node b) = field (m b) := by
  by_cases hb : b = a
  · rw [hb, Function.update_self, h]
  · rw [Function.update_of_ne hb]

/-- Writing a node changes a field at its own address only. -/
theorem update_written {β : Type} (field : TimeNode → β) (node : TimeNode) :
    field (Function.update m a node b) = if b = a then field node else field (m b) := by
  by_cases hb : b = a
  · rw [if_pos hb, hb, Function.update_self]
  · rw [if_neg hb, Function.update_of_ne hb]

@[simp] theorem setDelta_id : (m.setDelta a d b).id = (m b).id :=
  update_kept m a b TimeNode.id _ rfl

@[simp] theorem setDelta_next : (m.setDelta a d b).next = (m b).next :=
  update_kept m a b TimeNode.next _ rfl

@[simp] theorem setDelta_forward : (m.setDelta a d b).forward = (m b).forward :=
  update_kept m a b TimeNode.forward _ rfl

@[simp] theorem setDelta_deltaTime :
    (m.setDelta a d b).deltaTime = if b = a then d else (m b).deltaTime :=
  update_written m a b TimeNode.deltaTime _

@[simp] theorem setNext_id : (m.setNext a p b).id = (m b).id :=
  update_kept m a b TimeNode.id _ rfl

@[simp] theorem setNext_deltaTime : (m.setNext a p b).deltaTime = (m b).deltaTime :=
  update_kept m a b TimeNode.deltaTime _ rfl

@[simp] theorem setNext_forward : (m.setNext a p b).forward = (m b).forward :=
  update_kept m a b TimeNode.forward _ rfl

@[simp] theorem setNext_next : (m.setNext a p b).next = if b = a then p else (m b).next :=
  update_written m a b TimeNode.next _

@[simp] theorem setForward_id : (m.setForward a p b).id = (m b).id :=
  update_kept m a b TimeNode.id _ rfl

@[simp] theorem setForward_deltaTime : (m.setForward a p b).deltaTime = (m b).deltaTime :=
  update_kept m a b TimeNode.deltaTime _ rfl

@[simp] theorem setForward_next : (m.setForward a p b).next = (m b).next :=
  update_kept m a b TimeNode.next _ rfl

@[simp] theorem setForward_forward :
    (m.setForward a p b).forward = if b = a then p else (m b).forward :=
  update_written m a b TimeNode.forward _

end Heap

/-- `m'` differs from `m` at most in the differences. -/
structure SameLinks (m m' : Heap) : Prop where
  id : ∀ a, (m' a).id = (m a).id
  next : ∀ a, (m' a).next = (m a).next
  forward : ∀ a, (m' a).forward = (m a).forward

/-- `m'` differs from `m` at most in how the differences are represented. -/
structure SameList (m m' : Heap) : Prop extends SameLinks m m' where
  value : ∀ a, (m' a).deltaTime.value = (m a).deltaTime.value

section Same

variable {m m' m'' : Heap}

theorem sameLinks_refl (m : Heap) : SameLinks m m := ⟨fun _ => rfl, fun _ => rfl, fun _ => rfl⟩

theorem SameLinks.trans (h : SameLinks m m') (h' : SameLinks m' m'') : SameLinks m m'' where
  id a := (h'.id a).trans (h.id a)
  next a := (h'.next a).trans (h.next a)
  forward a := (h'.forward a).trans (h.forward a)

/-- Writing a difference leaves the links alone. -/
theorem sameLinks_setDelta (m : Heap) (a : Nat) (d : Timeval) : SameLinks m (m.setDelta a d) where
  id b := m.setDelta_id a b d
  next b := m.setDelta_next a b d
  forward b := m.setDelta_forward a b d

/-- Rewriting a difference without changing its value. -/
theorem sameList_setDelta (m : Heap) (a : Nat) (d : Timeval)
    (hd : d.value = (m a).deltaTime.value) : SameList m (m.setDelta a d) where
  toSameLinks := sameLinks_setDelta m a d
  value b := by
    rw [Heap.setDelta_deltaTime]
    split
    · rename_i hb
      rw [hb, hd]
    · rfl

end Same

section Compare

variable (m : Heap) (x y : Nat)

/-- A comparison leaves the links alone. -/
theorem compareNodes_links : SameLinks m (compareNodes m x y).1 := sameLinks_setDelta m y _

theorem subtractNode_links : SameLinks m (subtractNode m x y) :=
  (sameLinks_setDelta m y _).trans (sameLinks_setDelta _ x _)

@[simp] theorem subtractNode_id (z : Nat) : (subtractNode m x y z).id = (m z).id :=
  (subtractNode_links m x y).id z

@[simp] theorem subtractNode_next (z : Nat) : (subtractNode m x y z).next = (m z).next :=
  (subtractNode_links m x y).next z

@[simp] theorem subtractNode_forward (z : Nat) : (subtractNode m x y z).forward = (m z).forward :=
  (subtractNode_links m x y).forward z

theorem compareNodes_deltaTime : ((compareNodes m x y).1 y).deltaTime
    = carry (m x).deltaTime (m y).deltaTime := by
  unfold compareNodes
  rw [Heap.setDelta_deltaTime, if_pos rfl]
  rfl

/-- A subtraction carries its second operand. -/
theorem subtractNode_deltaTime (hxy : x ≠ y) : (subtractNode m x y y).deltaTime
    = carry (m x).deltaTime (m y).deltaTime := by
  unfold subtractNode
  rw [Heap.setDelta_deltaTime, if_neg hxy.symm, Heap.setDelta_deltaTime, if_pos rfl]
  rfl

/-- The difference is that of the carried operand. -/
theorem subtractNode_result : (subtractNode m x y x).deltaTime
    = (timevalSubtract (m x).deltaTime (m y).deltaTime).result := by
  unfold subtractNode
  rw [Heap.setDelta_deltaTime, if_pos rfl]
  rfl

variable {z : Nat}

theorem compareNodes_frame (hz : z ≠ y) :
    ((compareNodes m x y).1 z).deltaTime = (m z).deltaTime := by
  unfold compareNodes
  rw [Heap.setDelta_deltaTime, if_neg hz]

theorem subtractNode_frame (hx : z ≠ x) (hy : z ≠ y) :
    (subtractNode m x y z).deltaTime = (m z).deltaTime := by
  unfold subtractNode
  rw [Heap.setDelta_deltaTime, if_neg hx, Heap.setDelta_deltaTime, if_neg hy]

variable {m x y}

/-- A comparison whose carry fits tells which of two differences is not the
    greater one, and keeps their values. -/
theorem compareNodes_spec (h : CarryFits (m x).deltaTime (m y).deltaTime) :
    SameList m (compareNodes m x y).1 ∧
      ((compareNodes m x y).2 = true → (m x).deltaTime.value ≤ (m y).deltaTime.value) ∧
      ((compareNodes m x y).2 = false → (m y).deltaTime.value ≤ (m x).deltaTime.value) := by
  rcases timevalSubtract_spec h with ⟨_, hy, hneg, hpos⟩
  exact ⟨sameList_setDelta m y _ hy, hneg, hpos⟩

/-- Comparing the same nodes again changes nothing and says the same. -/
theorem compareNodes_again (hxy : x ≠ y) (h : CarryFits (m x).deltaTime (m y).deltaTime) :
    compareNodes (compareNodes m x y).1 x y = compareNodes m x y := by
  -- The second comparison finds nothing left to carry.
  unfold compareNodes Heap.setDelta
  simp only [Function.update_of_ne hxy, Function.update_self, timevalSubtract_again h,
    Function.update_idem]

/-- A subtraction takes one difference off another. -/
theorem subtractNode_value (h : CarryFits (m x).deltaTime (m y).deltaTime) :
    (subtractNode m x y z).deltaTime.value
      = if z = x then (m x).deltaTime.value - (m y).deltaTime.value
        else (m z).deltaTime.value := by
  rcases timevalSubtractInPlace_value h with ⟨hres, hy⟩
  unfold subtractNode
  simp only [Heap.setDelta_deltaTime]
  by_cases hzx : z = x
  · rw [if_pos hzx, if_pos hzx, hres]
  · rw [if_neg hzx, if_neg hzx]
    split
    · rename_i hzy
      rw [hzy, hy]
    · rfl

end Compare

end Cse5462
