import Meld.Db.Trie
import Meld.Lib.Linked

/-!
# One level of the trie, with its pointers

The children of a trie node are a list, or a table of buckets once `convert_hash` has made one; in
both a child has a `prev` and a `next` pointer, and in a table also a pointer to the head of its
bucket, through which `delete_path` unlinks the first child of a bucket.  In `Trie` a level is a
list of symbols; here it is the memory that `trie_node` and `trie_hash` work on.

A pointer to a child is a number, with `0` for null; a `trie_node **` is an array of heads and an
index into it.  An access to something that is not allocated, and a failed assertion, is `none`.
The level is over an integer, float, node or list field: the data of a child is its symbol, of a
list only whether it is empty.

* `insertItem`, of which `insert_int`, `insert_uint`, `insert_float` and `insert_node` are instances.
* `convertHash`, `expand`, `insert`, `deletePath`: the operations.
* `matchChild`: the lookup.
-/

namespace Meld

/-- `trie_node`, as one of the children of a level. -/
structure TrieCell where
  next : ℕ
  prev : ℕ
  data : TrieData
  bucket : Option (ℕ × ℕ)

/-- `trie_hash`: its array of heads, with the number of these and of the children. -/
structure TrieHash where
  buckets : ℕ
  numBuckets : ℕ
  total : ℕ

/-- The children and the arrays of heads; addresses from `fresh` and `freshArray` on are not in
use. -/
structure LevelHeap where
  cells : ℕ → Option TrieCell
  arrays : ℕ → Option (List ℕ)
  fresh : ℕ
  freshArray : ℕ

/-- `child` and `hashed` of the node above the level.  When that node is not the root, it is deleted
with the last child. -/
inductive LevelChild where
  | list (first : ℕ)
  | hash (t : TrieHash)
  | deleted

/-- A level. -/
structure TrieLevel where
  heap : LevelHeap
  child : LevelChild

namespace LevelHeap

/-- A write to fields of a child. -/
def updateCell (m : LevelHeap) (a : ℕ) (f : TrieCell → TrieCell) : Option LevelHeap :=
  (m.cells a).map fun c => { m with cells := Function.update m.cells a (some (f c)) }

/-- A write to a field of a child if the pointer to it is not null. -/
def updateNonNull (m : LevelHeap) (a : ℕ) (f : TrieCell → TrieCell) : Option LevelHeap :=
  if a = 0 then some m else m.updateCell a f

/-- `*p = v` for a pointer to the head of a bucket. -/
def setHead (m : LevelHeap) (p : ℕ × ℕ) (v : ℕ) : Option LevelHeap :=
  match m.arrays p.1 with
  | some heads =>
    if p.2 < heads.length then
      some { m with arrays := Function.update m.arrays p.1 (some (heads.set p.2 v)) }
    else none
  | none => none

/-- An array of `n` null pointers. -/
def newArray (m : LevelHeap) (n : ℕ) : LevelHeap :=
  { m with
    arrays := Function.update m.arrays m.freshArray (some (List.replicate n 0))
    freshArray := m.freshArray + 1 }

/-- `deallocate` of an array. -/
def deleteArray (m : LevelHeap) (b : ℕ) : LevelHeap :=
  { m with arrays := Function.update m.arrays b none }

/-- `new trie_node`. -/
def newCell (m : LevelHeap) (d : TrieData) : LevelHeap :=
  { m with
    cells := Function.update m.cells m.fresh (some ⟨0, 0, d, none⟩)
    fresh := m.fresh + 1 }

/-- `delete node`. -/
def deleteCell (m : LevelHeap) (a : ℕ) : LevelHeap :=
  { m with cells := Function.update m.cells a none }

end LevelHeap

namespace TrieHash

/-- What `insert_int`, `insert_uint` and `insert_node` do with the hash of the value: the child goes
to the head of its bucket. -/
def insertItem (t : TrieHash) (hash node : ℕ) (m : LevelHeap) : Option LevelHeap := do
  let bucket := hash % t.numBuckets
  let heads ← m.arrays t.buckets
  let old ← heads[bucket]?
  let m ← m.updateCell node fun c => { c with prev := 0, next := old }
  let m ← m.updateNonNull old fun c => { c with prev := node }
  let m ← m.updateCell node fun c => { c with bucket := some (t.buckets, bucket) }
  m.setHead (t.buckets, bucket) node

/-- `trie_hash::insert_int`, with `std::hash<int_val>`. -/
def insertInt (t : TrieHash) (val : BitVec 32) (node : ℕ) (m : LevelHeap) : Option LevelHeap :=
  t.insertItem (val.signExtend 64).toNat node m

/-- `trie_hash::insert_uint`, with `std::hash<uint_val>`. -/
def insertUint (t : TrieHash) (val : BitVec 32) (node : ℕ) (m : LevelHeap) : Option LevelHeap :=
  t.insertItem val.toNat node m

/-- `trie_hash::insert_float`, with `std::hash<float_val>` divided by 1000. -/
def insertFloat (t : TrieHash) (val : FloatNumber) (node : ℕ) (m : LevelHeap) : Option LevelHeap :=
  t.insertItem ((Trie.floatHash val).toNat / 1000) node m

/-- `trie_hash::insert_node`, with the identifier at the address as the hash. -/
def insertNode (nodeId : BitVec 64 → ℕ) (t : TrieHash) (val : BitVec 64) (node : ℕ) (m : LevelHeap) :
    Option LevelHeap :=
  t.insertItem (nodeId val) node m

/-- The switch over the field type in `convert_hash`, `expand` and `insert`. -/
def insertData (nodeId : BitVec 64 → ℕ) (t : TrieHash) (d : TrieData) (node : ℕ) (m : LevelHeap) :
    Option LevelHeap :=
  match d with
  | .int i => t.insertInt i node m
  | .float x => t.insertFloat x node m
  | .node n => t.insertNode nodeId n node m
  | .ptr false => t.insertUint 0 node m
  | .ptr true => t.insertUint 1 node m

/-- The loop over a chain in `convert_hash` and in `expand`: every child goes into the table.  The
first component counts them. -/
def moveChain (nodeId : BitVec 64 → ℕ) (t : TrieHash) :
    ℕ → ℕ → ℕ → LevelHeap → Option (ℕ × LevelHeap)
  | fuel, next, total, m =>
    if next = 0 then some (total, m)
    else
      match fuel with
      | 0 => none
      | fuel + 1 => do
        -- `tmp` is read before `next` is linked into its bucket
        let c ← m.cells next
        let m ← t.insertData nodeId c.data next m
        moveChain nodeId t fuel c.next (total + 1) m

/-- The loop of `expand` over the old buckets. -/
def moveBuckets (nodeId : BitVec 64 → ℕ) (t : TrieHash) :
    List ℕ → LevelHeap → Option LevelHeap
  | [], m => some m
  | next :: heads, m => do
    let (_, m) ← t.moveChain nodeId m.fresh next 0 m
    moveBuckets nodeId t heads m

end TrieHash

namespace TrieLevel

/-- The child pointer of a new node. -/
def empty : TrieLevel := ⟨⟨fun _ => none, fun _ => none, 1, 0⟩, .list 0⟩

variable (nodeId : BitVec 64 → ℕ)

/-- `trie_node::convert_hash`. -/
def convertHash (L : TrieLevel) : Option TrieLevel :=
  match L.child with
  | .list first => do
    let t : TrieHash := ⟨L.heap.freshArray, Trie.hashBaseBuckets, 0⟩
    let (total, m) ← t.moveChain nodeId L.heap.fresh first 0 (L.heap.newArray Trie.hashBaseBuckets)
    return ⟨m, .hash { t with total := total }⟩
  | _ => none

/-- `trie_hash::expand`. -/
def expand (L : TrieLevel) : Option TrieLevel :=
  match L.child with
  | .hash t => do
    let heads ← L.heap.arrays t.buckets
    let t' : TrieHash := ⟨L.heap.freshArray, t.numBuckets * 2, t.total⟩
    let m ← t'.moveBuckets nodeId heads (L.heap.newArray (t.numBuckets * 2))
    return ⟨m.deleteArray t.buckets, .hash t'⟩
  | _ => none

/-- `trie_node::insert` of a symbol. -/
def insert (d : TrieData) (L : TrieLevel) : Option TrieLevel :=
  let a := L.heap.fresh
  let m := L.heap.newCell d
  match L.child with
  | .hash t => do
    let t := { t with total := t.total + 1 }
    let m ← t.insertData nodeId d a m
    return ⟨m, .hash t⟩
  | .list first => do
    let m ← m.updateCell a fun c => { c with next := first, prev := 0 }
    let m ← m.updateNonNull first fun c => { c with prev := a }
    return ⟨m, .list a⟩
  | .deleted => none

/-- The level without children: `delete_path` goes on to the node above, which is deleted too if it
is not the root. -/
def emptied (isRoot : Bool) : LevelChild := if isRoot then .list 0 else .deleted

/-- `trie::delete_path` for a child of the level. -/
def deletePath (isRoot : Bool) (node : ℕ) (L : TrieLevel) : Option TrieLevel := do
  let c ← L.heap.cells node
  let m ← L.heap.updateNonNull c.prev fun p => { p with next := c.next }
  let m ← m.updateNonNull c.next fun n => { n with prev := c.prev }
  match c.bucket, L.child with
  | some p, .hash t =>
    let t := { t with total := t.total - 1 }
    if c.prev = 0 then
      let m ← m.setHead p c.next
      if t.total = 0 then return ⟨(m.deleteArray t.buckets).deleteCell node, emptied isRoot⟩
      else return ⟨m.deleteCell node, .hash t⟩
    else return ⟨m.deleteCell node, .hash t⟩
  | none, .list first =>
    if c.prev = 0 then
      if first = node then
        return ⟨m.deleteCell node, if c.next = 0 then emptied isRoot else .list c.next⟩
      else none
    else return ⟨m.deleteCell node, .list first⟩
  | _, _ => none

/-- The first child that `trie_node::match` looks at. -/
def matchStart (L : TrieLevel) (d : TrieData) : Option ℕ :=
  match L.child with
  | .list first => some first
  | .hash t => do
    let heads ← L.heap.arrays t.buckets
    heads[Trie.hashItem nodeId d % t.numBuckets]?
  | .deleted => none

/-- The loop of `trie_node::match` for a symbol. -/
def matchLoop (cells : ℕ → Option TrieCell) (d : TrieData) : ℕ → ℕ → Option ℕ
  | fuel, a =>
    if a = 0 then some 0
    else
      match fuel with
      | 0 => none
      | fuel + 1 => do
        let c ← cells a
        if c.data = d then some a else matchLoop cells d fuel c.next

/-- `trie_node::match`: the child with the symbol, or null. -/
def matchChild (L : TrieLevel) (d : TrieData) : Option ℕ := do
  let a ← L.matchStart nodeId d
  matchLoop L.heap.cells d L.heap.fresh a

end TrieLevel

end Meld
