import Mathlib.Algebra.GroupWithZero.Nat
import Mathlib.Data.List.Basic
import Mathlib.Logic.Function.Basic

/-!
# Creating and deleting nodes

Every thread has an `ids` object that creates nodes.  The identifiers of new nodes come from a block
that the database reserves for the thread; a node that was deleted keeps its identifiers and may be
created again from the list of freed nodes.  A node is deleted by its creator, which unlinks it at
once, or by another thread, which clears `creator` and leaves the unlinking to
`free_destroyed_nodes` of the creator.

A step of the system is what one thread does between two accesses to memory that it shares with
others: the field `creator` of a node, the counter `deleted_by_others`, and the counters of the
database under its lock.  The lists themselves are only touched by the thread that owns them.

* `NodeDatabase.read`: the constructor of `database`.
* `IdsEvent`, `step`: the steps of the threads, where `τ` is the type of the threads.
* `live`: the nodes that `create_node` returned and on which `delete_node` was not yet called.
* `NoWrap`: what the steps need for no identifier counter to wrap around.
-/

namespace Meld

/-- The identifiers of the initial nodes, and the counters of `database`. -/
structure NodeDatabase where
  nodes : BitVec 64 → Option (BitVec 64)
  maxNodeId : BitVec 64
  maxTranslatedId : BitVec 64

/-- The update of a maximum where `-1` stands for no value. -/
def raiseMax (max id : BitVec 64) : BitVec 64 := if id > max ∨ max = -1 then id else max

/-- One round of the loop in the constructor of `database`. -/
def NodeDatabase.readNode (db : NodeDatabase) (fakeId userId : BitVec 64) : NodeDatabase where
  nodes := Function.update db.nodes fakeId (some userId)
  maxNodeId := raiseMax db.maxNodeId fakeId
  maxTranslatedId := raiseMax db.maxTranslatedId userId

/-- The constructor of `database`, on the pairs of identifiers it reads. -/
def NodeDatabase.read (pairs : List (BitVec 64 × BitVec 64)) : NodeDatabase :=
  pairs.foldl (fun db p => db.readNode p.1 p.2) ⟨fun _ => none, -1, -1⟩

/-- `database::allocate_ids`: the first identifiers of the block. -/
def NodeDatabase.allocateIds (db : NodeDatabase) (size : BitVec 64) :
    (BitVec 64 × BitVec 64) × NodeDatabase :=
  ((db.maxNodeId + 1, db.maxTranslatedId + 1),
    { db with maxNodeId := db.maxNodeId + size, maxTranslatedId := db.maxTranslatedId + size })

/-- The fields of a node that `ids` reads. -/
structure DynNode (τ : Type*) where
  id : BitVec 64
  translation : BitVec 64
  dynNext : ℕ
  dynPrev : ℕ
  creator : Option τ

/-- The nodes in memory; `0` is the null pointer. -/
abbrev NodeMem (τ : Type*) := ℕ → Option (DynNode τ)

namespace NodeMem

variable {τ : Type*}

/-- Write `dyn_next`, unless the pointer is null. -/
def setNext (mem : NodeMem τ) (p n : ℕ) : NodeMem τ :=
  if p = 0 then mem else Function.update mem p ((mem p).map fun c => { c with dynNext := n })

/-- Write `dyn_prev`, unless the pointer is null. -/
def setPrev (mem : NodeMem τ) (p n : ℕ) : NodeMem τ :=
  if p = 0 then mem else Function.update mem p ((mem p).map fun c => { c with dynPrev := n })

/-- The pointers are null or those of nodes in memory: only then can one write through them. -/
def Valid (mem : NodeMem τ) (ps : List ℕ) : Prop := ∀ p ∈ ps, p = 0 ∨ (mem p).isSome = true

instance (mem : NodeMem τ) (ps : List ℕ) : Decidable (mem.Valid ps) :=
  inferInstanceAs (Decidable (∀ p ∈ ps, p = 0 ∨ (mem p).isSome = true))

/-- Write `creator`. -/
def setCreator (mem : NodeMem τ) (p : ℕ) (t : Option τ) : NodeMem τ :=
  Function.update mem p ((mem p).map fun c => { c with creator := t })

end NodeMem

/-- The fields of `ids`. -/
structure Ids where
  nextAvailableId : BitVec 64
  endAvailableId : BitVec 64
  nextTranslatedId : BitVec 64
  allocatedNodes : ℕ := 0
  freedNodes : ℕ := 0
  totalAllocated : ℕ := 0
  totalFreed : ℕ := 0
  deletedByOthers : ℕ := 0
  nextAllocation : BitVec 64

namespace Ids

variable {τ : Type*}

/-- `allocate_more_ids`. -/
def allocateMoreIds (i : Ids) (db : NodeDatabase) : Ids × NodeDatabase :=
  let r := db.allocateIds i.nextAllocation
  ({ i with
      nextAvailableId := r.1.1
      nextTranslatedId := r.1.2
      endAvailableId := r.1.1 + i.nextAllocation }, r.2)

/-- The constructor: `ALLOCATED_IDS` is `16*1024`. -/
def create (db : NodeDatabase) : Ids × NodeDatabase :=
  allocateMoreIds ⟨0, 0, 0, 0, 0, 0, 0, 0, 16 * 1024⟩ db

/-- `remove_node_from_allocated`, for the node `n` with the fields `c`: the node that follows comes
last. -/
def removeNodeFromAllocated (i : Ids) (mem : NodeMem τ) (n : ℕ) (c : DynNode τ) :
    Ids × NodeMem τ × ℕ :=
  let mem := (mem.setNext c.dynPrev c.dynNext).setPrev c.dynNext c.dynPrev
  let allocated := if n = i.allocatedNodes then c.dynNext else i.allocatedNodes
  if i.totalFreed = 32 then
    ({ i with allocatedNodes := allocated, totalAllocated := i.totalAllocated - 1 },
      Function.update mem n none, c.dynNext)
  else
    ({ i with
        allocatedNodes := allocated
        freedNodes := n
        totalFreed := i.totalFreed + 1
        totalAllocated := i.totalAllocated - 1 },
      ((mem.setPrev n 0).setNext n i.freedNodes).setPrev i.freedNodes n, c.dynNext)

/-- The pointers that `remove_node_from_allocated` writes through. -/
def neighbours (i : Ids) (c : DynNode τ) : List ℕ := [c.dynPrev, c.dynNext, i.freedNodes]

/-- `add_allocated_node`, for the thread `t`. -/
def addAllocatedNode (i : Ids) (mem : NodeMem τ) (t : τ) (n : ℕ) : Ids × NodeMem τ :=
  ({ i with allocatedNodes := n, totalAllocated := i.totalAllocated + 1 },
    ((mem.setCreator n (some t)).setPrev i.allocatedNodes n).setNext n i.allocatedNodes)

/-- The test at the start of `create_node`. -/
def manyDeleted (i : Ids) : Bool :=
  0 < i.totalAllocated && 0 < i.deletedByOthers && i.totalAllocated / 2 < i.deletedByOthers

/-- `create_node` with a freed node: it is taken from the list and constructed again with the
identifiers it had. -/
def recycle (i : Ids) (mem : NodeMem τ) (t : τ) (n : ℕ) (c : DynNode τ) : Ids × NodeMem τ :=
  addAllocatedNode { i with freedNodes := c.dynNext, totalFreed := i.totalFreed - 1 }
    (Function.update mem n (some ⟨c.id, c.translation, 0, 0, none⟩)) t n

/-- The end of `create_node`: a new node with the next identifiers of the block. -/
def createFresh (i : Ids) (mem : NodeMem τ) (t : τ) (n : ℕ) : Ids × NodeMem τ :=
  let mem := Function.update mem n (some ⟨i.nextAvailableId, i.nextTranslatedId, 0, 0, none⟩)
  let r := i.addAllocatedNode mem t n
  ({ r.1 with
      nextAvailableId := i.nextAvailableId + 1
      nextTranslatedId := i.nextTranslatedId + 1 }, r.2)

end Ids

/-- Where a thread is between two steps. -/
inductive IdsPc (τ : Type*) where
  /-- outside of `ids` -/
  | idle
  /-- `free_destroyed_nodes` is at the node -/
  | freeing (p : ℕ)
  /-- `create_node` is about to look at the freed nodes -/
  | creating
  /-- `create_node` has identifiers for a new node -/
  | fresh
  /-- `delete_node` has cleared `creator` and is about to count the node at its creator -/
  | deleting (creator : τ)

/-- The steps of a thread. -/
inductive IdsEvent (τ : Type*) where
  /-- the constructor of `ids` -/
  | start (t : τ)
  /-- `create_node` is called -/
  | create (t : τ)
  /-- the next step of `create_node` -/
  | next (t : τ)
  /-- the allocator returns the address `n` for a new node -/
  | fresh (t : τ) (n : ℕ)
  /-- `delete_node(n)` is called -/
  | delete (t : τ) (n : ℕ)
  /-- `creator->deleted_by_others++` -/
  | count (t : τ)

/-- All threads, the memory of the nodes, and the nodes in use. -/
structure IdsState (τ : Type*) where
  db : NodeDatabase
  mem : NodeMem τ
  ids : τ → Option Ids
  pc : τ → IdsPc τ
  live : List ℕ

namespace IdsState

variable {τ : Type*} [DecidableEq τ]

/-- No thread has started. -/
def init (pairs : List (BitVec 64 × BitVec 64)) : IdsState τ :=
  ⟨NodeDatabase.read pairs, fun _ => none, fun _ => none, fun _ => .idle, []⟩

/-- Thread `t` has changed its object and the memory, and goes on at `pc`. -/
def put (s : IdsState τ) (t : τ) (i : Ids) (mem : NodeMem τ) (pc : IdsPc τ) : IdsState τ :=
  { s with
    mem := mem
    ids := Function.update s.ids t (some i)
    pc := Function.update s.pc t pc }

/-- One round of the loop of `free_destroyed_nodes`. -/
def freeRound (s : IdsState τ) (t : τ) (i : Ids) (p : ℕ) : Option (IdsState τ) :=
  if p = 0 then some (s.put t i s.mem .creating)
  else (s.mem p).bind fun c =>
    if c.creator.isNone then
      let r := i.removeNodeFromAllocated s.mem p c
      if s.mem.Valid (i.neighbours c) then some (s.put t r.1 r.2.1 (.freeing r.2.2)) else none
    else some (s.put t i s.mem (.freeing c.dynNext))

/-- `create_node` after the check for deleted nodes. -/
def createRound (s : IdsState τ) (t : τ) (i : Ids) : Option (IdsState τ) :=
  if i.freedNodes ≠ 0 then
    (s.mem i.freedNodes).bind fun c =>
      let r := i.recycle s.mem t i.freedNodes c
      if s.mem.Valid [i.allocatedNodes] then
        some { s.put t r.1 r.2 .idle with live := i.freedNodes :: s.live }
      else none
  else if i.nextAvailableId = i.endAvailableId then
    let r := { i with nextAllocation := i.nextAllocation * 4 }.allocateMoreIds s.db
    some { s.put t r.1 s.mem .fresh with db := r.2 }
  else some (s.put t i s.mem .fresh)

/-- `delete_node`, up to the write of `creator`. -/
def deleteNode (s : IdsState τ) (t : τ) (i : Ids) (n : ℕ) : Option (IdsState τ) :=
  (s.mem n).bind fun c =>
    c.creator.bind fun u =>
      if u = t then
        let r := i.removeNodeFromAllocated s.mem n c
        if s.mem.Valid (i.neighbours c) then
          some { s.put t r.1 r.2.1 .idle with live := s.live.erase n }
        else none
      else
        some { s.put t i (s.mem.setCreator n none) (.deleting u) with live := s.live.erase n }

/-- **The steps of the system**: `none` if the thread cannot make this step.  A node is deleted only
while it is in use. -/
def step (s : IdsState τ) : IdsEvent τ → Option (IdsState τ)
  | .start t =>
    match s.ids t with
    | none =>
      let r := Ids.create s.db
      some { s.put t r.1 s.mem .idle with db := r.2 }
    | some _ => none
  | .create t =>
    match s.ids t, s.pc t with
    | some i, .idle =>
      some (s.put t i s.mem (if i.manyDeleted then .freeing i.allocatedNodes else .creating))
    | _, _ => none
  | .next t =>
    match s.ids t, s.pc t with
    | some i, .freeing p => s.freeRound t i p
    | some i, .creating => s.createRound t i
    | _, _ => none
  | .fresh t n =>
    match s.ids t, s.pc t, s.mem n with
    | some i, .fresh, none =>
      if n = 0 then none
      else if s.mem.Valid [i.allocatedNodes] then
        let r := i.createFresh s.mem t n
        some { s.put t r.1 r.2 .idle with live := n :: s.live }
      else none
    | _, _, _ => none
  | .delete t n =>
    match s.ids t, s.pc t with
    | some i, .idle => if n ∈ s.live then s.deleteNode t i n else none
    | _, _ => none
  | .count t =>
    match s.pc t with
    | .deleting u => (s.ids u).map fun i =>
        { s with
          ids := Function.update s.ids u (some { i with deletedByOthers := i.deletedByOthers + 1 })
          pc := Function.update s.pc t .idle }
    | _ => none

/-- A block of this size can be reserved without a counter wrapping around. -/
def Room (db : NodeDatabase) (size : ℕ) : Prop :=
  (db.maxNodeId + 1).toNat + size < 2 ^ 64 ∧ (db.maxTranslatedId + 1).toNat + size < 2 ^ 64

/-- No counter wraps around in the step. -/
def NoWrap (s : IdsState τ) : IdsEvent τ → Prop
  | .start _ => Room s.db (16 * 1024)
  | .next t => ∀ i, s.ids t = some i → i.freedNodes = 0 →
      i.nextAvailableId = i.endAvailableId → Room s.db (i.nextAllocation.toNat * 4)
  | _ => True

/-- A run of the system in which no counter wraps around. -/
inductive Reach (pairs : List (BitVec 64 × BitVec 64)) : IdsState τ → Prop
  | init : Reach pairs (init pairs)
  | step {s s' : IdsState τ} (e : IdsEvent τ) (hs : Reach pairs s) (hwrap : s.NoWrap e)
      (hstep : s.step e = some s') : Reach pairs s'

/-- Reading the database does not reach the last number, which has no successor. -/
def ReadNoWrap (pairs : List (BitVec 64 × BitVec 64)) : Prop :=
  ∀ p ∈ pairs, p.1 ≠ -1 ∧ p.2 ≠ -1

/-- **The nodes in use have identifiers of their own**, different from those of the initial
nodes. -/
structure Distinct (s : IdsState τ) : Prop where
  allocated : ∀ n ∈ s.live, ∃ c, s.mem n = some c
  ids : (s.live.map fun n => (s.mem n).map DynNode.id).Nodup
  translations : (s.live.map fun n => (s.mem n).map DynNode.translation).Nodup
  initial : ∀ n ∈ s.live, ∀ c, s.mem n = some c → ∀ fakeId userId,
    s.db.nodes fakeId = some userId → c.id ≠ fakeId ∧ c.translation ≠ userId

end IdsState

end Meld
