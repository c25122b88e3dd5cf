import Mathlib.Algebra.GroupWithZero.Nat
import Mathlib.Data.Int.Notation
import Mathlib.Order.Basic
import Mathlib.Logic.Function.Basic
import Mathlib.Tactic.Common

/-!
# The priority heaps of a thread

`intrusive_safe_complex_pqueue` is a binary heap of pointers to objects.  Every object carries its
priority, its position in the heap and the number of the queue it is in, so that it can be removed
or moved from where it is.  A thread has two of these heaps, for moving nodes and for static nodes.

Positions are `int`s in the source; `toInt` is the conversion of a `size_t`.  Access outside the
array is `none`.
-/

namespace Meld

/-- `queue_id_t`: the queue an object is in, or what else its state is. -/
inductive QueueId where
  | idle
  | working
  | stealing
  | prioChange
  | staticChange
  | affinityChange
  | normalMoving
  | normalStatic
  | priorityMoving
  | priorityStatic
  deriving DecidableEq

/-- `heap_type`. -/
inductive HeapType where
  | asc
  | desc
  deriving DecidableEq

/-- The fields of `DECLARE_DOUBLE_QUEUE_NODE` that a heap uses. -/
structure Intrusive (π : Type) where
  priority : π
  pos : ℕ
  queue : QueueId

/-- The conversion of a `size_t` to `int`. -/
def toInt (n : ℕ) : ℤ := (BitVec.ofNat 32 n).toInt

/-- `intrusive_safe_complex_pqueue`, with the fields of the objects. -/
structure Pqueue (ι π : Type) where
  queueNumber : QueueId
  typ : HeapType
  heap : List ι
  obj : ι → Intrusive π

namespace Pqueue

variable {ι π : Type} [DecidableEq ι]

/-- `HEAP_SET_INDEX`. -/
def setIndex (s : Pqueue ι π) (i : ℕ) (x : ι) : Option (Pqueue ι π) :=
  if i < s.heap.length then
    some { s with
      heap := s.heap.set i x
      obj := Function.update s.obj x { s.obj x with pos := i } }
  else none

/-- `left`. -/
def left (s : Pqueue ι π) (parent : ℕ) : ℤ :=
  let i := toInt (2 * parent + 1)
  if i < toInt s.heap.length then i else -1

/-- `right`. -/
def right (s : Pqueue ι π) (parent : ℕ) : ℤ :=
  let i := toInt (2 * parent + 2)
  if i < toInt s.heap.length then i else -1

/-- `parent`. -/
def parent (child : ℕ) : ℤ := if child ≠ 0 then ((child - 1) / 2 : ℕ) else -1

/-- The element at an `int` position. -/
def at? (s : Pqueue ι π) (i : ℤ) : Option ι := if 0 ≤ i then s.heap[i.toNat]? else none

/-- Write the queue of an object. -/
def setQueue (s : Pqueue ι π) (x : ι) (q : QueueId) : Pqueue ι π :=
  { s with obj := Function.update s.obj x { s.obj x with queue := q } }

/-- Write the priority of an object. -/
def setPriority (s : Pqueue ι π) (x : ι) (p : π) : Pqueue ι π :=
  { s with obj := Function.update s.obj x { s.obj x with priority := p } }

/-- Append an object to the array and write its position. -/
def pushBack (s : Pqueue ι π) (x : ι) : Pqueue ι π :=
  { s with
    heap := s.heap ++ [x]
    obj := Function.update s.obj x { s.obj x with pos := s.heap.length } }

/-- Drop the last element of the array. -/
def popBack (s : Pqueue ι π) : Pqueue ι π := { s with heap := s.heap.dropLast }

variable [LE π] [DecidableLE π]

/-- `HEAP_COMPARE`. -/
def compare (typ : HeapType) (v1 v2 : π) : Bool :=
  match typ with
  | .asc => v1 ≤ v2
  | .desc => v2 ≤ v1

/-- Compare the priorities of two objects. -/
def compareObj (s : Pqueue ι π) (x y : ι) : Bool :=
  compare s.typ (s.obj x).priority (s.obj y).priority

/-- The loop of `heapifyup`, with what it has to return. -/
def heapifyup : ℕ → Pqueue ι π → ℕ → Bool → Option (Pqueue ι π × Bool)
  | 0, _, _, _ => none
  | fuel + 1, s, index, moved =>
    if index > 0 ∧ parent index ≥ 0 then do
      let x ← s.at? index
      let obj ← s.at? (parent index)
      if ¬ s.compareObj obj x then do
        let s ← s.setIndex (parent index).toNat x
        let s ← s.setIndex index obj
        heapifyup fuel s (parent index).toNat true
      else some (s, moved)
    else some (s, moved)

/-- `heapifydown`. -/
def heapifydown : ℕ → Pqueue ι π → ℕ → Option (Pqueue ι π)
  | 0, _, _ => none
  | fuel + 1, s, index =>
    let l := s.left index
    let r := s.right index
    if l < 0 ∧ r < 0 then some s
    else do
      let obj ← s.at? index
      let y ← s.at? l
      if s.compareObj obj y && (s.at? r).all (s.compareObj obj) then some s
      else do
        let smaller := if (s.at? r).any (fun z => s.compareObj z y) then r else l
        let w ← s.at? smaller
        let s ← s.setIndex index w
        let s ← s.setIndex smaller.toNat obj
        heapifydown fuel s smaller.toNat

/-- `do_insert`. -/
def doInsert (s : Pqueue ι π) (node : ι) (prio : π) : Option (Pqueue ι π) := do
  let s := ((s.setPriority node prio).setQueue node s.queueNumber).pushBack node
  let r ← heapifyup s.heap.length s (toInt (s.heap.length - 1)).toNat false
  some r.1

/-- `do_pop`. -/
def doPop (s : Pqueue ι π) (newState : QueueId) : Option (Pqueue ι π × Option ι) :=
  match s.heap with
  | [] => some (s, none)
  | min :: _ => do
    let s ←
      if s.heap.length > 1 then do
        let last ← s.heap.getLast?
        let s ← s.setIndex 0 last
        let s := s.popBack
        heapifydown s.heap.length s 0
      else some s.popBack
    some (s.setQueue min newState, some min)

/-- `do_remove`. -/
def doRemove (s : Pqueue ι π) (obj : ι) (newState : QueueId) : Option (Pqueue ι π) := do
  let index := (s.obj obj).pos
  let tmp ← s.heap.getLast?
  let s := s.popBack.setQueue obj newState
  if ¬ s.heap.isEmpty ∧ index ≠ s.heap.length then do
    let s ← s.setIndex index tmp
    let p := parent (toInt index).toNat
    if p ≠ -1 then do
      let y ← s.at? p
      if s.compareObj tmp y then do
        let r ← heapifyup s.heap.length s (toInt index).toNat false
        some r.1
      else heapifydown s.heap.length s (toInt index).toNat
    else heapifydown s.heap.length s (toInt index).toNat
  else some s

/-- `insert`. -/
def insert (s : Pqueue ι π) (node : ι) (prio : π) : Option (Pqueue ι π) := s.doInsert node prio

/-- `pop`. -/
def pop (s : Pqueue ι π) (newState : QueueId) : Option (Pqueue ι π × Option ι) := s.doPop newState

/-- `remove`. -/
def remove (s : Pqueue ι π) (obj : ι) (newState : QueueId) : Option (Pqueue ι π × Bool) :=
  if s.heap.isEmpty then some (s, false)
  else if (s.obj obj).queue ≠ s.queueNumber then some (s, false)
  else do
    let s ← s.doRemove obj newState
    some (s, true)

/-- `do_move_node`. -/
def doMoveNode (s : Pqueue ι π) (node : ι) (newPrio : π) : Option (Pqueue ι π) :=
  if s.heap.isEmpty then some s
  else if (s.obj node).queue ≠ s.queueNumber then some s
  else do
    let pos := (s.obj node).pos
    let oldPrio := (s.obj node).priority
    let s := s.setPriority node newPrio
    if compare s.typ newPrio oldPrio then do
      let r ← heapifyup s.heap.length s (toInt pos).toNat false
      some r.1
    else heapifydown s.heap.length s (toInt pos).toNat

/-- `move_node`. -/
def moveNode (s : Pqueue ι π) (node : ι) (newPrio : π) : Option (Pqueue ι π) :=
  s.doMoveNode node newPrio

/-- The inner loop of `do_pop_half`: at most `k` further removals, the next one at position `i + j`
or at the end of the array. -/
def popLevel (newState : QueueId) (half i : ℕ) :
    ℕ → ℕ → Pqueue ι π → List ι → Option (Pqueue ι π × List ι)
  | 0, _, s, buffer => some (s, buffer)
  | k + 1, j, s, buffer => do
    let idx := min (s.heap.length - 1) (i + j)
    let obj ← s.heap[idx]?
    let s ← s.doRemove obj newState
    if (buffer ++ [obj]).length = half then some (s, buffer ++ [obj])
    else popLevel newState half i k (j + 1) s (buffer ++ [obj])

/-- The outer loop of `do_pop_half`. -/
def popLevels (newState : QueueId) (half : ℕ) :
    ℕ → ℕ → ℕ → Pqueue ι π → List ι → Option (Pqueue ι π × List ι)
  | 0, _, _, _, _ => none
  | fuel + 1, i, level, s, buffer =>
    if i < s.heap.length then do
      let r ← popLevel newState half i (level / 2) 0 s buffer
      if r.2.length = half then some r
      else popLevels newState half fuel (i + level) (level <<< 1) r.1 r.2
    else some (s, buffer)

/-- `do_pop_half`.  The number returned is the length of the buffer. -/
def doPopHalf (s : Pqueue ι π) (max : ℕ) (newState : QueueId) : Option (Pqueue ι π × List ι) :=
  let half := min max (s.heap.length / 2)
  if 0 = half then some (s, [])
  else popLevels newState half (s.heap.length + 1) 1 2 s []

/-- `pop_half`. -/
def popHalf (s : Pqueue ι π) (max : ℕ) (newState : QueueId) : Option (Pqueue ι π × List ι) :=
  s.doPopHalf max newState

end Pqueue

/-! ## The two heaps of a thread -/

/-- `thread::Priorities`: two heaps over the same objects. -/
structure Priorities (ι π : Type) where
  typ : HeapType
  moving : List ι
  stati : List ι
  obj : ι → Intrusive π

/-- Which of the two. -/
inductive Which where
  | moving
  | stati
  deriving DecidableEq

namespace Priorities

variable {ι π : Type}

/-- The number of a heap. -/
def queueNumber : Which → QueueId
  | .moving => .priorityMoving
  | .stati => .priorityStatic

/-- The members of a heap. -/
def heap (P : Priorities ι π) : Which → List ι
  | .moving => P.moving
  | .stati => P.stati

/-- One of the heaps. -/
def get (P : Priorities ι π) (w : Which) : Pqueue ι π := ⟨queueNumber w, P.typ, P.heap w, P.obj⟩

/-- Write back a heap after an operation on it. -/
def put (P : Priorities ι π) (w : Which) (s : Pqueue ι π) : Priorities ι π :=
  match w with
  | .moving => { P with moving := s.heap, obj := s.obj }
  | .stati => { P with stati := s.heap, obj := s.obj }

/-- The other heap. -/
def other : Which → Which
  | .moving => .stati
  | .stati => .moving

variable [DecidableEq ι] [LE π] [DecidableLE π]

/-- `pop_best`, called on the heap `w` with the other one as argument. -/
def popBest (P : Priorities ι π) (w : Which) (newState : QueueId) :
    Option (Priorities ι π × Option ι) :=
  match P.heap w, P.heap (other w) with
  | [], [] => some (P, none)
  | [], _ :: _ => do
    let r ← (P.get (other w)).doPop newState
    some (P.put (other w) r.1, r.2)
  | _ :: _, [] => do
    let r ← (P.get w).doPop newState
    some (P.put w r.1, r.2)
  | x :: _, y :: _ =>
    if Pqueue.compare P.typ (P.obj x).priority (P.obj y).priority then do
      let r ← (P.get w).doPop newState
      some (P.put w r.1, r.2)
    else do
      let r ← (P.get (other w)).doPop newState
      some (P.put (other w) r.1, r.2)

end Priorities

end Meld
