import Mathlib.Order.Defs.LinearOrder
import Meld.Db.Node
import Meld.Queue.DoubleQueue

/-!
# Nodes, threads and their queues

A node belongs to a thread, its owner.  A node with work waits in one of the queues of its owner:
two lists, for moving and for static nodes, and two heaps for those among them that have a priority.
The owner takes it out, runs it, and lets it go when nothing is left.  A thread without work steals
moving nodes of other threads.  Rules of a program may set the priority of any node, make it static
or moving, or send it to another thread, while the node is with any thread and in any state.

The fields through which a node is linked are shared by lists and heaps: the word `next` holds the
position in a heap, the word `prev` the priority.  All threads number their queues alike, and the
number that a node carries is its state.

A step is a call of a function that holds the lock of its node, a pop, or the taking of stolen
nodes.  `check_if_current_useless` looks at the node first and locks it afterwards, which are two
steps.

* `Program`: what the scheduler reads of the program.
* `Node`, `Thread`, `State`: the nodes, the threads and the links.
* `State.remove`, `State.add`, `State.shift`: a node leaves a queue, comes to one, or both.
* `setNodePriority` and the other functions of `coord.cpp`.
* `newWork`, `takeFacts`, `check`, `handOver`, `finish`, `stealNodes`, `adopt`: the life of a node.
* `Event`, `step`, `Reach`: runs.
-/

namespace Meld
namespace Coord

/-- What the scheduler reads of the program.  Two priorities can be added, and a priority is kept in
a word. -/
structure Program (π : Type) where
  work : WorkProgram
  /-- `scheduling_mechanism` -/
  schedulingMechanism : Bool
  /-- `is_priority_desc` -/
  isPriorityDesc : Bool
  noPriority : π
  maxPriority : π
  initialPriority : π
  add : π → π → π
  bits : π → ℕ
  ofBits : ℕ → π
  ofBits_bits : ∀ p, ofBits (bits p) = p
  /-- the predicate of the special fact `JUST_MOVED`, with a new tuple of it -/
  justMoved : Option (WorkPredicate × Tuple)
  /-- `get_init_predicate`, with a new tuple of it -/
  init : WorkPredicate × Tuple

variable {π : Type} [LinearOrder π]

namespace Program

/-- The type of the heaps. -/
def typ (P : Program π) : HeapType := if P.isPriorityDesc then .desc else .asc

/-- `higher_priority`. -/
def higherPriority (P : Program π) (p₁ p₂ : π) : Bool :=
  if P.isPriorityDesc then p₂ < p₁ else p₁ < p₂

end Program

/-- `db::node`, as far as the scheduler reads it. -/
structure Node (π : Type) where
  owner : ℕ
  /-- `static_node` -/
  static : Option ℕ
  defaultPriorityLevel : π
  priorityLevel : π
  db : DbNode

namespace Node

/-- `get_priority`. -/
def getPriority (P : Program π) (n : Node π) : π :=
  if n.priorityLevel = P.noPriority then n.defaultPriorityLevel else n.priorityLevel

/-- `has_priority`. -/
def hasPriority (P : Program π) (n : Node π) : Bool := n.getPriority P ≠ P.noPriority

/-- `set_temporary_priority_if`. -/
def setTemporaryPriorityIf (P : Program π) (n : Node π) (level : π) : Node π × Bool :=
  if P.higherPriority level (n.getPriority P) then ({ n with priorityLevel := level }, true)
  else (n, false)

/-- `remove_temporary_priority`. -/
def removeTemporaryPriority (n : Node π) : Node π :=
  { n with priorityLevel := n.defaultPriorityLevel }

/-- `has_new_owner`. -/
def hasNewOwner (n : Node π) : Bool :=
  match n.static with
  | some t => n.owner ≠ t
  | none => false

/-- Which of the queues of a kind is for the node. -/
def which (n : Node π) : Which := if n.static.isSome then .stati else .moving

end Node

/-- Where a thread is in `check_if_current_useless`: not inside it, on the way to the lock that it
takes for a node with a new owner, or on the way to that for a node without facts. -/
inductive Phase where
  | running
  | handing
  | finishing
  deriving DecidableEq

/-- A list of nodes: `intrusive_safe_double_queue` without the fields of the nodes. -/
structure NormalQueue where
  head : ℕ
  tail : ℕ
  total : BitVec 64

/-- `sched::thread`.  `buffer` has the nodes that `go_steal_nodes` took from `target` and has not
put into a queue yet. -/
structure Thread where
  queues : Which → NormalQueue
  prios : Which → List ℕ
  currentNode : Option ℕ
  phase : Phase
  stealFlag : Bool
  target : ℕ
  buffer : List ℕ
  staticNodes : BitVec 64

/-- All nodes and threads.  `started` is set once all threads have come through
`threads_synchronize` in `thread::init`. -/
structure State (π : Type) where
  node : ℕ → Node π
  link : ℕ → QueueLink
  thread : ℕ → Thread
  started : Bool

/-- How a step can fail: at an `abort()` or `assert(false)` of a switch, in a loop that does not
end, or with an access through a null pointer or outside an array.  Or the thread is not where the
step begins. -/
inductive Fault where
  | abort
  | hang
  | wild
  | disabled
  deriving DecidableEq

/-- The result of a step. -/
abbrev Result (α : Type) := Except Fault α

/-- The result of an access that may be wild. -/
def Result.ofOption {α : Type} : Option α → Result α
  | some a => .ok a
  | none => .error .wild

/-- The queues of a thread. -/
inductive Kind where
  | normal (w : Which)
  | priority (w : Which)
  deriving DecidableEq

/-- The number of a queue. -/
def Kind.number : Kind → QueueId
  | normal .moving => .normalMoving
  | normal .stati => .normalStatic
  | priority w => Priorities.queueNumber w

namespace State

/-! ## Access -/

/-- `node_state`. -/
def nodeState (s : State π) (n : ℕ) : QueueId := (s.link n).queue

/-- Write a node. -/
def setNode (s : State π) (n : ℕ) (r : Node π) : State π :=
  { s with node := Function.update s.node n r }

/-- Write a thread. -/
def setThread (s : State π) (t : ℕ) (r : Thread) : State π :=
  { s with thread := Function.update s.thread t r }

/-- `set_owner`. -/
def setOwner (s : State π) (n t : ℕ) : State π := s.setNode n { s.node n with owner := t }

/-- `current_node = n`, outside `check_if_current_useless`. -/
def setCurrent (s : State π) (t : ℕ) (n : Option ℕ) : State π :=
  s.setThread t { s.thread t with currentNode := n, phase := .running }

/-- One of the lists of a thread. -/
def normal (s : State π) (t : ℕ) (w : Which) : DoubleQueue :=
  let q := (s.thread t).queues w
  ⟨(Kind.normal w).number, q.head, q.tail, q.total, s.link⟩

/-- Write back a list after an operation on it. -/
def putNormal (s : State π) (t : ℕ) (w : Which) (q : DoubleQueue) : State π :=
  let queues := Function.update (s.thread t).queues w ⟨q.head, q.tail, q.total⟩
  { s.setThread t { s.thread t with queues := queues } with link := q.link }

/-- The fields of a node as a heap reads them. -/
def obj (P : Program π) (s : State π) (n : ℕ) : Intrusive π :=
  ⟨P.ofBits (s.link n).prev, (s.link n).next, (s.link n).queue⟩

/-- The heaps of a thread. -/
def heaps (P : Program π) (s : State π) (t : ℕ) : Priorities ℕ π :=
  ⟨P.typ, (s.thread t).prios .moving, (s.thread t).prios .stati, s.obj P⟩

/-- The fields of a node after a heap has written them: the word of a priority that is still the
same is not written. -/
def writeObj (P : Program π) (l : QueueLink) (o : Intrusive π) : QueueLink :=
  ⟨if o.priority = P.ofBits l.prev then l.prev else P.bits o.priority, o.pos, o.queue⟩

/-- Write back the heaps after an operation on them. -/
def putHeaps (P : Program π) (s : State π) (t : ℕ) (H : Priorities ℕ π) : State π :=
  { s.setThread t { s.thread t with prios := H.heap } with
    link := fun n => writeObj P (s.link n) (H.obj n) }

/-- Write back one heap. -/
def putHeap (P : Program π) (s : State π) (t : ℕ) (w : Which) (q : Pqueue ℕ π) : State π :=
  s.putHeaps P t ((s.heaps P t).put w q)

/-! ## Queues -/

/-- `remove`: the node leaves the queue, if it has its number. -/
def remove (P : Program π) (s : State π) (t : ℕ) (k : Kind) (n : ℕ) (newState : QueueId) :
    Result (State π × Bool) :=
  match k with
  | .normal w =>
    let r := (s.normal t w).remove n newState
    .ok (s.putNormal t w r.1, r.2)
  | .priority w => do
    let r ← Result.ofOption (((s.heaps P t).get w).remove n newState)
    .ok (s.putHeap P t w r.1, r.2)

/-- `push_tail`, or `insert` with the priority of the node. -/
def add (P : Program π) (s : State π) (t : ℕ) (k : Kind) (n : ℕ) : Result (State π) :=
  match k with
  | .normal w => .ok (s.putNormal t w ((s.normal t w).pushTail n))
  | .priority w => do
    let q ← Result.ofOption (((s.heaps P t).get w).insert n ((s.node n).getPriority P))
    .ok (s.putHeap P t w q)

/-- `move_node`. -/
def moveNode (P : Program π) (s : State π) (t : ℕ) (w : Which) (n : ℕ) (priority : π) :
    Result (State π) := do
  let q ← Result.ofOption (((s.heaps P t).get w).moveNode n priority)
  .ok (s.putHeap P t w q)

/-- If the node can be removed from one queue of the thread, it comes to another one. -/
def shift (P : Program π) (s : State π) (t : ℕ) (k k' : Kind) (n : ℕ) (change : QueueId) :
    Result (State π) := do
  let r ← s.remove P t k n change
  if r.2 then r.1.add P t k' n else .ok r.1

/-- `add_to_queue`. -/
def addToQueue (P : Program π) (s : State π) (t n : ℕ) : Result (State π) :=
  let r := s.node n
  s.add P t (if r.hasPriority P then .priority r.which else .normal r.which) n

/-! ## Fields of a node -/

/-- `set_temporary_priority_if`. -/
def setTemporaryPriorityIf (P : Program π) (s : State π) (n : ℕ) (priority : π) :
    State π × Bool :=
  let r := (s.node n).setTemporaryPriorityIf P priority
  (s.setNode n r.1, r.2)

/-- `remove_temporary_priority`. -/
def removeTemporaryPriority (s : State π) (n : ℕ) : State π :=
  s.setNode n (s.node n).removeTemporaryPriority

/-- One static node more, or less, for a thread. -/
def countStatic (s : State π) (t : ℕ) (d : BitVec 64) : State π :=
  s.setThread t { s.thread t with staticNodes := (s.thread t).staticNodes + d }

/-- The thread that a static node is counted for counts it no longer. -/
def uncountStatic (s : State π) (n : ℕ) : State π :=
  match (s.node n).static with
  | some old => s.countStatic old (-1)
  | none => s

/-- `make_node_static`. -/
def makeNodeStatic (s : State π) (n target : ℕ) : State π :=
  let s := (s.uncountStatic n).countStatic target 1
  s.setNode n { s.node n with static := some target }

/-- `make_node_moving`. -/
def makeNodeMoving (s : State π) (n : ℕ) : State π :=
  let s := s.uncountStatic n
  s.setNode n { s.node n with static := none }

/-- `just_moved_buffer`. -/
def justMovedBuffer (P : Program π) (s : State π) (n : ℕ) : State π :=
  match P.justMoved with
  | some (pred, tpl) =>
    s.setNode n { s.node n with db := (s.node n).db.innerAddWorkOthers tpl pred .positive 0 }
  | none => s

/-- `just_moved`. -/
def justMoved (P : Program π) (s : State π) (n : ℕ) : Result (State π) :=
  match P.justMoved with
  | some (pred, tpl) => do
    let db ← Result.ofOption ((s.node n).db.addLinearFact P.work tpl pred)
    .ok (s.setNode n { s.node n with db := db })
  | none => .ok s

/-- `move_node_to_new_owner`. -/
def moveNodeToNewOwner (P : Program π) (s : State π) (n newOwner : ℕ) : Result (State π) :=
  (s.justMovedBuffer P n).addToQueue P newOwner n

end State

open State

/-! ## Coordination -/

section Coordination

variable (P : Program π)

/-- `do_set_node_priority`. -/
def doSetNodePriority (s : State π) (t n : ℕ) (priority : π) (forceQueue : Bool) :
    Result (State π) :=
  if (s.thread t).currentNode = some n then
    .ok (s.setNode n { s.node n with priorityLevel := priority })
  else
    let r := s.setTemporaryPriorityIf P n priority
    match s.nodeState n with
    | .stealing => .ok r.1
    | .priorityMoving => if r.2 then r.1.moveNode P t .moving n priority else .ok r.1
    | .priorityStatic => if r.2 then r.1.moveNode P t .stati n priority else .ok r.1
    | .normalMoving => r.1.shift P t (.normal .moving) (.priority .moving) n .prioChange
    | .normalStatic => r.1.shift P t (.normal .stati) (.priority .stati) n .prioChange
    | .working | .prioChange => .ok r.1
    | .idle => if forceQueue then r.1.addToQueue P t n else .ok r.1
    | .staticChange | .affinityChange => .error .abort

/-- `do_set_node_priority_other`. -/
def doSetNodePriorityOther (s : State π) (n : ℕ) (priority : π) : Result (State π) :=
  let owner := (s.node n).owner
  let r := s.setTemporaryPriorityIf P n priority
  match s.nodeState n with
  | .stealing => .ok r.1
  | .normalMoving => r.1.shift P owner (.normal .moving) (.priority .moving) n .prioChange
  | .normalStatic => r.1.shift P owner (.normal .stati) (.priority .stati) n .prioChange
  | .priorityMoving => if r.2 then r.1.moveNode P owner .moving n priority else .ok r.1
  | .priorityStatic => if r.2 then r.1.moveNode P owner .stati n priority else .ok r.1
  | .prioChange | .idle => .ok r.1
  | .working => .ok s
  | .staticChange | .affinityChange => .error .abort

/-- `set_node_priority`. -/
def setNodePriority (s : State π) (t n : ℕ) (priority : π) : Result (State π) :=
  if (s.thread t).currentNode = some n then .ok s
  else if ¬ P.higherPriority priority ((s.node n).getPriority P) then .ok s
  else if (s.node n).owner = t then doSetNodePriority P s t n priority false
  else doSetNodePriorityOther P s n priority

/-- `add_node_priority`. -/
def addNodePriority (s : State π) (t n : ℕ) (priority : π) : Result (State π) :=
  if ¬ P.schedulingMechanism then .ok s
  else if (s.thread t).currentNode = some n then .ok s
  else
    let sum := P.add ((s.node n).getPriority P) priority
    if (s.node n).owner = t then doSetNodePriority P s t n sum false
    else doSetNodePriorityOther P s n sum

/-- `schedule_next`. -/
def scheduleNext (s : State π) (t n : ℕ) : Result (State π) :=
  if (s.node n).owner = t then doSetNodePriority P s t n P.maxPriority true else .ok s

/-- `set_default_node_priority`. -/
def setDefaultNodePriority (s : State π) (n : ℕ) (priority : π) : Result (State π) :=
  if ¬ P.schedulingMechanism then .ok s
  else .ok (s.setNode n { s.node n with defaultPriorityLevel := priority })

/-- `do_remove_node_priority`. -/
def doRemoveNodePriority (s : State π) (t n : ℕ) : Result (State π) :=
  let r := s.removeTemporaryPriority n
  match s.nodeState n with
  | .stealing => .ok r
  | .priorityMoving => r.shift P t (.priority .moving) (.normal .moving) n .prioChange
  | .priorityStatic => r.shift P t (.priority .stati) (.normal .stati) n .prioChange
  | .normalMoving | .normalStatic => .ok r
  | .working => .ok r
  | .idle => .ok r
  | .prioChange | .staticChange | .affinityChange => .error .abort

/-- `do_remove_node_priority_other`.  There is no case for an idle node. -/
def doRemoveNodePriorityOther (s : State π) (n : ℕ) : Result (State π) :=
  let owner := (s.node n).owner
  let r := s.removeTemporaryPriority n
  match s.nodeState n with
  | .stealing => .ok r
  | .normalMoving | .normalStatic => .ok r
  | .priorityMoving => r.shift P owner (.priority .moving) (.normal .moving) n .prioChange
  | .priorityStatic => r.shift P owner (.priority .stati) (.normal .stati) n .prioChange
  | .working => .ok s
  | .idle | .prioChange | .staticChange | .affinityChange => .error .abort

/-- `remove_node_priority`. -/
def removeNodePriority (s : State π) (t n : ℕ) : Result (State π) :=
  if ¬ P.schedulingMechanism then .ok s
  else if (s.thread t).currentNode = some n then .ok (s.removeTemporaryPriority n)
  else if (s.node n).owner = t then doRemoveNodePriority P s t n
  else doRemoveNodePriorityOther P s n

/-- `set_node_static`.  The queues are those of the calling thread. -/
def setNodeStatic (s : State π) (t n : ℕ) : Result (State π) :=
  if ¬ P.schedulingMechanism then .ok s
  else if (s.thread t).currentNode = some n then .ok (s.makeNodeStatic n t)
  else if (s.node n).static.isSome then .ok s
  else
    let r := s.makeNodeStatic n t
    match s.nodeState n with
    | .stealing => .ok r
    | .normalMoving => r.shift P t (.normal .moving) (.normal .stati) n .staticChange
    | .priorityMoving => r.shift P t (.priority .moving) (.priority .stati) n .staticChange
    | .normalStatic | .priorityStatic | .idle | .working => .ok r
    | .prioChange | .staticChange | .affinityChange => .error .abort

/-- `set_node_moving`.  The queues are those of the calling thread. -/
def setNodeMoving (s : State π) (t n : ℕ) : Result (State π) :=
  if ¬ P.schedulingMechanism then .ok s
  else if (s.thread t).currentNode = some n then .ok (s.makeNodeMoving n)
  else if (s.node n).static.isNone then .ok s
  else
    let r := s.makeNodeMoving n
    match s.nodeState n with
    | .stealing => .ok r
    | .normalStatic => r.shift P t (.normal .stati) (.normal .moving) n .staticChange
    | .priorityStatic => r.shift P t (.priority .stati) (.priority .moving) n .staticChange
    | .normalMoving | .priorityMoving | .working | .idle => .ok r
    | .prioChange | .staticChange | .affinityChange => .error .abort

/-- The case of `set_node_owner` for a queued node.  If the queue of the calling thread does not
give the node away, the loop comes back to the same state. -/
def changeOwner (s : State π) (t : ℕ) (k : Kind) (n newOwner : ℕ) : Result (State π) := do
  let r ← s.remove P t k n .affinityChange
  if r.2 then (r.1.setOwner n newOwner).moveNodeToNewOwner P n newOwner else .error .hang

/-- `set_node_owner`. -/
def setNodeOwner (s : State π) (t n newOwner : ℕ) : Result (State π) :=
  if (s.thread t).currentNode = some n then do
    let s ← (if newOwner = t then s.justMoved P n else .ok s)
    .ok (s.makeNodeStatic n newOwner)
  else
    let r := s.makeNodeStatic n newOwner
    if (s.node n).owner = newOwner then .ok (r.justMovedBuffer P n)
    else
      match s.nodeState n with
      | .stealing => .ok (r.setOwner n newOwner)
      | .normalStatic => changeOwner P r t (.normal .stati) n newOwner
      | .normalMoving => changeOwner P r t (.normal .moving) n newOwner
      | .priorityMoving => changeOwner P r t (.priority .moving) n newOwner
      | .priorityStatic => changeOwner P r t (.priority .stati) n newOwner
      | .working => .ok r
      | .idle => .ok ((r.setOwner n newOwner).justMovedBuffer P n)
      | .prioChange | .staticChange | .affinityChange => .error .abort

/-- `set_node_cpu`. -/
def setNodeCpu (s : State π) (t n newOwner : ℕ) : Result (State π) :=
  if ¬ P.schedulingMechanism then .ok s else setNodeOwner P s t n newOwner

/-- `set_node_affinity`. -/
def setNodeAffinity (s : State π) (t n affinity : ℕ) : Result (State π) :=
  if ¬ P.schedulingMechanism then .ok s else setNodeOwner P s t n (s.node affinity).owner

end Coordination

/-! ## The life of a node -/

section Life

variable (P : Program π)

/-- `initial_fast_insert`, at the end of the array. -/
def initialFastInsert (q : Pqueue ℕ π) (n : ℕ) (priority : π) : Pqueue ℕ π :=
  ((q.setPriority n priority).setQueue n q.queueNumber).pushBack n

/-- One round of the loop of `thread::init`: `init_node` for a node that has not been set up, and
its first queue. -/
def initNode (s : State π) (t n : ℕ) : Result (State π) :=
  if s.nodeState n ≠ .idle then .error .disabled
  else do
    let db ← Result.ofOption ((s.node n).db.addLinearFact P.work P.init.2 P.init.1)
    let s := s.setNode n
      { s.node n with owner := t, db := { db with unprocessedFacts := true } }
    if P.initialPriority = P.noPriority then s.add P t (.normal .moving) n
    else .ok (s.putHeap P t .moving
      (initialFastInsert ((s.heaps P t).get .moving) n P.initialPriority))

/-- `new_work` and `new_work_list`.  `locked` tells if a thread that is not the owner gets the lock
of the database. -/
def newWork (s : State π) (t n : ℕ) (w : Work) (locked : Bool) : Result (State π) := do
  let owner := (s.node n).owner
  let db ← Result.ofOption
    (Delivery.run P.work (s.node n).db (if owner = t ∨ locked then .myself w else .others w))
  let r := s.setNode n { s.node n with db := db }
  if s.nodeState n = .idle then r.addToQueue P owner n else .ok r

/-- `pop_best` in `set_next_node`. -/
def popBest (s : State π) (t : ℕ) : Result (State π) :=
  if (s.thread t).currentNode.isSome ∨ (s.thread t).buffer ≠ [] then .error .disabled
  else do
    let r ← Result.ofOption ((s.heaps P t).popBest .moving .working)
    .ok ((s.putHeaps P t r.1).setCurrent t r.2)

/-- `pop_head` in `pop_node_from_queues`. -/
def popNormal (s : State π) (t : ℕ) (w : Which) : Result (State π) :=
  if (s.thread t).currentNode.isSome ∨ (s.thread t).buffer ≠ [] then .error .disabled
  else
    let r := (s.normal t w).popHead .working
    .ok ((s.putNormal t w r.1).setCurrent t (if r.2 = 0 then none else some r.2))

/-- The node that a thread works on. -/
def working (s : State π) (t : ℕ) (phase : Phase) : Result ℕ :=
  if (s.thread t).phase = phase then
    match (s.thread t).currentNode with
    | some n => .ok n
    | none => .error .disabled
  else .error .disabled

/-- The part of `run_node` that holds the lock of the node: it takes the facts that have come in. -/
def takeFacts (s : State π) (t : ℕ) : Result (State π) := do
  let n ← working s t .running
  let db ← Result.ofOption ((s.node n).db.processIncomingTuples P.work)
  let store := { db.store with incomingPersistentTuples := [], incomingActionTuples := [] }
  .ok (s.setNode n
    { s.node n with db := { db with store := store, unprocessedFacts := false } })

/-- What the rules do to the database of the node that runs. -/
def runRules (s : State π) (t : ℕ) (linear : LinearStore) (matcher : RuleMatcher) :
    Result (State π) := do
  let n ← working s t .running
  .ok (s.setNode n
    { s.node n with db := { (s.node n).db with linear := linear, matcher := matcher } })

/-- The test of `run_node` after a rule: a node with a new owner stops and has facts left. -/
def seeNewOwner (s : State π) (t : ℕ) : Result (State π) := do
  let n ← working s t .running
  if (s.node n).hasNewOwner then
    .ok (s.setNode n { s.node n with db := { (s.node n).db with unprocessedFacts := true } })
  else .ok s

/-- `check_if_current_useless` up to the lock. -/
def check (s : State π) (t : ℕ) : Result (State π) := do
  let n ← working s t .running
  let phase :=
    if (s.node n).hasNewOwner then .handing
    else if ¬ (s.node n).db.unprocessedFacts then .finishing
    else .running
  .ok (s.setThread t { s.thread t with phase := phase })

/-- `check_if_current_useless` with the lock, for a node with a new owner. -/
def handOver (s : State π) (t : ℕ) : Result (State π) := do
  let n ← working s t .handing
  match (s.node n).static with
  | none => .error .wild
  | some newOwner =>
    let s := (s.setOwner n newOwner).removeTemporaryPriority n
    let s ← s.moveNodeToNewOwner P n newOwner
    .ok (s.setCurrent t none)

/-- `make_inactive`. -/
def makeInactive (s : State π) (n : ℕ) : State π :=
  { s with link := Function.update s.link n { s.link n with queue := .idle } }

/-- `check_if_current_useless` with the lock, for a node without facts. -/
def finish (s : State π) (t : ℕ) : Result (State π) := do
  let n ← working s t .finishing
  if ¬ (s.node n).db.unprocessedFacts then
    .ok (((makeInactive s n).removeTemporaryPriority n).setCurrent t none)
  else .ok (s.setThread t { s.thread t with phase := .running })

/-- `pop_tail_half` of the moving nodes. -/
def stealNormal (s : State π) (u max : ℕ) : Result (State π × List ℕ) := do
  let r ← Result.ofOption ((s.normal u .moving).popTailHalf max .stealing)
  .ok (s.putNormal u .moving r.1, r.2)

/-- `pop_half` of the moving nodes with a priority. -/
def stealPriority (s : State π) (u max : ℕ) : Result (State π × List ℕ) := do
  let r ← Result.ofOption (((s.heaps P u).get .moving).popHalf max .stealing)
  .ok (s.putHeap P u .moving r.1, r.2)

/-- `steal_nodes`, for the thread `u`. -/
def stealNodes (s : State π) (u max : ℕ) : Result (State π × List ℕ) :=
  let flag := !(s.thread u).stealFlag
  let s := s.setThread u { s.thread u with stealFlag := flag }
  let hasNormal := (s.normal u .moving).head ≠ 0
  let hasPriority := (s.thread u).prios .moving ≠ []
  if flag then
    if hasNormal then stealNormal s u max
    else if hasPriority then stealPriority P s u max
    else .ok (s, [])
  else
    if hasPriority then stealPriority P s u max
    else if hasNormal then stealNormal s u max
    else .ok (s, [])

/-- `NODE_BUFFER_SIZE`. -/
def nodeBufferSize : ℕ := 16

/-- The first half of `go_steal_nodes`: `steal_nodes` of another thread. -/
def steal (s : State π) (t u : ℕ) : Result (State π) :=
  if t = u ∨ (s.thread t).currentNode.isSome ∨ (s.thread t).buffer ≠ [] then .error .disabled
  else do
    let r ← stealNodes P s u nodeBufferSize
    .ok (r.1.setThread t { r.1.thread t with target := u, buffer := r.2 })

/-- The second half of `go_steal_nodes`, for the first of the stolen nodes. -/
def adopt (s : State π) (t : ℕ) : Result (State π) :=
  match (s.thread t).buffer with
  | [] => .error .disabled
  | n :: rest =>
    let target := (s.thread t).target
    let s := s.setThread t { s.thread t with buffer := rest }
    if s.nodeState n ≠ .stealing then .ok s
    else if (s.node n).static.isSome ∧ (s.node n).owner ≠ target then
      s.moveNodeToNewOwner P n (s.node n).owner
    else
      let s := if (s.node n).static.isSome then s.makeNodeStatic n t else s
      (s.setOwner n t).addToQueue P t n

end Life

/-! ## Runs -/

/-- The steps of the threads.  The first argument is the thread. -/
inductive Event (π : Type) where
  | initNode (t n : ℕ)
  | synchronize
  | newWork (t n : ℕ) (w : Work) (locked : Bool)
  | popBest (t : ℕ)
  | popNormal (t : ℕ) (w : Which)
  | takeFacts (t : ℕ)
  | runRules (t : ℕ) (linear : LinearStore) (matcher : RuleMatcher)
  | seeNewOwner (t : ℕ)
  | check (t : ℕ)
  | handOver (t : ℕ)
  | finish (t : ℕ)
  | steal (t u : ℕ)
  | adopt (t : ℕ)
  | setNodePriority (t n : ℕ) (priority : π)
  | addNodePriority (t n : ℕ) (priority : π)
  | removeNodePriority (t n : ℕ)
  | setDefaultNodePriority (t n : ℕ) (priority : π)
  | scheduleNext (t n : ℕ)
  | setNodeStatic (t n : ℕ)
  | setNodeMoving (t n : ℕ)
  | setNodeCpu (t n newOwner : ℕ)
  | setNodeAffinity (t n affinity : ℕ)

/-- The node that a coordination operation is called for. -/
def Event.coordinated : Event π → Option ℕ
  | setNodePriority _ n _ | addNodePriority _ n _ | removeNodePriority _ n
  | setDefaultNodePriority _ n _ | scheduleNext _ n | setNodeStatic _ n | setNodeMoving _ n
  | setNodeCpu _ n _ | setNodeAffinity _ n _ => some n
  | _ => none

/-- The node that an event names. -/
def Event.node : Event π → Option ℕ
  | initNode _ n | newWork _ n _ _ => some n
  | e => e.coordinated

/-- A step of the threads once they have started. -/
def act (P : Program π) (s : State π) : Event π → Result (State π)
  | .initNode _ _ | .synchronize => .error .disabled
  | .newWork t n w locked => newWork P s t n w locked
  | .popBest t => popBest P s t
  | .popNormal t w => popNormal s t w
  | .takeFacts t => takeFacts P s t
  | .runRules t linear matcher => runRules s t linear matcher
  | .seeNewOwner t => seeNewOwner s t
  | .check t => check s t
  | .handOver t => handOver P s t
  | .finish t => finish s t
  | .steal t u => steal P s t u
  | .adopt t => adopt P s t
  | .setNodePriority t n priority => setNodePriority P s t n priority
  | .addNodePriority t n priority => addNodePriority P s t n priority
  | .removeNodePriority t n => removeNodePriority P s t n
  | .setDefaultNodePriority _ n priority => setDefaultNodePriority P s n priority
  | .scheduleNext t n => scheduleNext P s t n
  | .setNodeStatic t n => setNodeStatic P s t n
  | .setNodeMoving t n => setNodeMoving P s t n
  | .setNodeCpu t n newOwner => setNodeCpu P s t n newOwner
  | .setNodeAffinity t n affinity => setNodeAffinity P s t n affinity

/-- **One step.** -/
def step (P : Program π) (s : State π) : Event π → Result (State π)
  | .initNode t n => if s.started then .error .disabled else initNode P s t n
  | .synchronize => if s.started then .error .disabled else .ok { s with started := true }
  | e => if s.started then act P s e else .error .disabled

/-- Nothing waits in the temporary store of a node. -/
def NoneWaiting (db : DbNode) : Prop :=
  (∀ i, db.store.incoming i = []) ∧ db.store.incomingPersistentTuples = [] ∧
    db.store.incomingActionTuples = []

/-- The state in which the threads begin: no node is anywhere. -/
structure Initial (s : State π) : Prop where
  started : s.started = false
  nodeState : ∀ n, s.nodeState n = .idle
  static : ∀ n, (s.node n).static = none
  waiting : ∀ n, NoneWaiting (s.node n).db
  queues : ∀ t w, (s.thread t).queues w = ⟨0, 0, 0⟩
  prios : ∀ t w, (s.thread t).prios w = []
  currentNode : ∀ t, (s.thread t).currentNode = none
  phase : ∀ t, (s.thread t).phase = .running
  buffer : ∀ t, (s.thread t).buffer = []

/-- The states that steps lead to which meet a condition, where the nodes are numbered from `1` to
`N`. -/
inductive Reach (P : Program π) (N : ℕ) (allowed : State π → Event π → Prop) :
    State π → Prop where
  | init {s : State π} (h : Initial s) : Reach P N allowed s
  | step {s s' : State π} {e : Event π} (h : Reach P N allowed s)
      (hnode : ∀ n ∈ e.node, 0 < n ∧ n ≤ N) (hok : allowed s e) (hstep : step P s e = .ok s') :
      Reach P N allowed s'

end Coord
end Meld
