import Meld.Lib.Linked
import Meld.Vm.Bitmap
import Meld.Vm.Tuple
import Mathlib.Logic.Function.Basic

/-!
# The hash table of a linear predicate

`hash_table` keeps the tuples of a linear predicate by the value of one field.  It is a tree of
`subhash_table`s, each with 32 slots of which 29 are used.  A slot holds a chain of bucket lists,
one list for every key, or it holds another table; a bitmap tells the two apart.  Each level of the
tree looks at five further bits of the hash of the key.

The tables and the bucket lists are C++ objects that point at each other, so the model has a heap:
a map from addresses to tables and one from addresses to bucket lists.  Reading or writing an object
that is not allocated, and following a chain that does not end, is `none`.  Each hash table has a
heap of its own, and the allocator hands out addresses that it has not handed out before.

`hash_type` is not a parameter here: the constructor of a `Value` is the type the source passes.
-/

namespace Meld

/-! ## Hashing a field -/

/-- `utils::fnv1_hash`. -/
def fnv1Hash (key : List (BitVec 8)) : BitVec 64 :=
  key.foldl (fun h b => (h * 1099511628211#64) ^^^ b.setWidth 64) 14695981039346656037#64

/-- The four bytes of a 32-bit value, in the order they have in memory. -/
def bytesOf (v : BitVec 32) : List (BitVec 8) :=
  (List.range 4).map fun i => v.extractLsb' (8 * i) 8

/-- The eight bytes of a float, in the order they have in memory. -/
def floatBytes (x : BitVec 64) : List (BitVec 8) :=
  (List.range 8).map fun i => x.extractLsb' (8 * i) 8

/-- `hash_field`, of a float that is not the zero with a minus sign.  The result is a `uint_val`, so the 64-bit hash loses its upper half.  For a node
the source hashes the first four bytes of the address that lies `sizeof(std::atomic<ref_count>)`
behind the node. -/
def hashField : Value → ℕ
  | .int i => ((fnv1Hash (bytesOf i)).setWidth 32).toNat
  | .float x => ((fnv1Hash (floatBytes x.bits)).setWidth 32).toNat
  | .node n => ((fnv1Hash (bytesOf ((n + 8#64).setWidth 32))).setWidth 32).toNat
  | .nil => 0
  | .cons _ _ => 1

/-- `same_field0`: equal integers, equal nodes, and for lists both nil or both not. -/
def sameField0 (field1 field2 : Value) : Bool :=
  match field1 with
  | .int i => match field2 with | .int j => i == j | _ => false
  | .float x => match field2 with | .float y => x == y | _ => false
  | .node m => match field2 with | .node n => m == n | _ => false
  | .nil => match field2 with | .nil => true | _ => false
  | .cons _ _ => match field2 with | .cons _ _ => true | _ => false

namespace Hash

/-! ## The objects -/

/-- `HASH_TABLE_SUBHASH_SHIFT`. -/
def subhashShift : ℕ := 5

/-- `HASH_TABLE_PRIME`. -/
def prime : ℕ := 29

/-- `HASH_TABLE_INITIAL_TABLE_SIZE`. -/
def initialTableSize : ℕ := 1 <<< subhashShift

/-- `HASH_TABLE_SUBHASH_MASK`. -/
def subhashMask : ℕ := (1 <<< subhashShift) - 1

/-- `CREATE_HASHTABLE_THREADSHOLD`. -/
def createHashtableThreshold : ℕ := 8

/-- `HASH_TABLE_MAX_LEVELS`. -/
def maxLevels : ℕ := 4

/-- An address; `0` is the null pointer. -/
abbrev Ptr := ℕ

/-- `hash_table_list`: the tuples of one key.  The intrusive list of tuples is a Lean list. -/
structure HashTableList (α : Type) where
  list : List α
  value : Value
  parent : Ptr
  idx : ℕ
  prev : Ptr
  next : Ptr

/-- `subhash_table`.  The last slot of `table` does not hold a pointer but the index of the table in
its parent. -/
structure SubhashTable where
  table : ℕ → Ptr
  bitmap : Bitmap
  uniqueLists : UInt16
  uniqueSubs : UInt16
  parent : Ptr

namespace SubhashTable

/-- `is_subhash`. -/
def isSubhash (t : SubhashTable) (idx : ℕ) : Bool := t.bitmap.getBit idx

/-- `get_bucket` and `get_subhash`: the pointer in a slot. -/
def get (t : SubhashTable) (idx : ℕ) : Ptr := t.table idx

/-- Store a pointer in a slot. -/
def set (t : SubhashTable) (idx : ℕ) (p : Ptr) : SubhashTable :=
  { t with table := Function.update t.table idx p }

/-- `setup`: all slots null, no lists and no sub-tables.  The source leaves the bitmap to the
allocator; a fresh table has it cleared. -/
def setup (parent : Ptr) : SubhashTable := ⟨fun _ => 0, Bitmap.create 1, 0, 0, parent⟩

end SubhashTable

/-- The objects of one hash table, and the next address of the allocator. -/
structure Heap (α : Type) where
  tables : Ptr → Option SubhashTable
  lists : Ptr → Option (HashTableList α)
  fresh : Ptr

/-- `mod_hash`. -/
def modHash (hsh : ℕ) : ℕ := hsh % prime

theorem modHash_lt (hsh : ℕ) : modHash hsh < prime := Nat.mod_lt _ (by decide)

theorem digit_lt (id : ℕ) : modHash (id &&& subhashMask) < prime := modHash_lt _

variable {α : Type}

namespace Heap

/-- Write to a bucket list. -/
def writeList (h : Heap α) (a : Ptr) (f : HashTableList α → HashTableList α) : Option (Heap α) :=
  (h.lists a).map fun l => { h with lists := Function.update h.lists a (some (f l)) }

/-- Write to a table. -/
def writeTable (h : Heap α) (p : Ptr) (f : SubhashTable → SubhashTable) : Option (Heap α) :=
  (h.tables p).map fun t => { h with tables := Function.update h.tables p (some (f t)) }

/-- Allocate a bucket list. -/
def allocList (h : Heap α) (l : HashTableList α) : Heap α :=
  { h with lists := Function.update h.lists h.fresh (some l), fresh := h.fresh + 1 }

/-- Allocate a table. -/
def allocTable (h : Heap α) (t : SubhashTable) : Heap α :=
  { h with tables := Function.update h.tables h.fresh (some t), fresh := h.fresh + 1 }

/-- `deallocate_obj` of a bucket list. -/
def freeList (h : Heap α) (a : Ptr) : Heap α :=
  { h with lists := Function.update h.lists a none }

/-- `deallocate_obj` of a table. -/
def freeTable (h : Heap α) (p : Ptr) : Heap α :=
  { h with tables := Function.update h.tables p none }

/-- The links of the bucket lists. -/
def links (h : Heap α) : Linked.Links := fun a => (h.lists a).map fun l => (l.prev, l.next)

/-! ## Insertion -/

/-- The loop of `insert` over a chain: the bucket list of the key, or null, the last list passed
before it and the number of lists passed. -/
def findBucket (h : Heap α) (v : Value) : ℕ → Ptr → Ptr → ℕ → Option (Ptr × Ptr × ℕ)
  | 0, bucket, last, count => if bucket = 0 then some (0, last, count) else none
  | fuel + 1, bucket, last, count =>
    if bucket = 0 then some (0, last, count)
    else do
      let l ← h.lists bucket
      if sameField0 v l.value then some (bucket, last, count)
      else findBucket h v fuel l.next bucket (count + 1)

/-- The part of `insert` that allocates a list for a new key and hangs it behind `last`. -/
def newList (h : Heap α) (p : Ptr) (idx : ℕ) (last : Ptr) (v : Value) (item : α) :
    Option (Heap α) := do
  let newls := h.fresh
  let h := h.allocList ⟨[item], v, p, idx, last, 0⟩
  let h ←
    if last ≠ 0 then h.writeList last fun l => { l with next := newls }
    else h.writeTable p fun t => t.set idx newls
  h.writeTable p fun t => { t with uniqueLists := t.uniqueLists + 1 }

/-- The body of the loop that moves the lists of a slot to a new sub-table: the list goes to the
front of its slot there. -/
def moveBucket (h : Heap α) (sub : Ptr) (level : ℕ) (bucket : Ptr) : Option (Heap α) := do
  let l ← h.lists bucket
  let hsh := (hashField l.value >>> ((level + 1) * subhashShift)) &&& subhashMask
  let index := modHash hsh
  let h ← h.writeList bucket fun l => { l with parent := sub }
  let s ← h.tables sub
  let first := s.get index
  let h ← if first ≠ 0 then h.writeList first fun l => { l with prev := bucket } else some h
  let h ← h.writeList bucket fun l => { l with next := first }
  let h ← h.writeTable sub fun s => s.set index bucket
  h.writeList bucket fun l => { l with prev := 0, idx := index }

/-- The loop that moves the lists of a slot to a new sub-table, with their number. -/
def moveBuckets (sub : Ptr) (level : ℕ) : ℕ → Heap α → Ptr → ℕ → Option (Heap α × ℕ)
  | 0, h, bucket, total => if bucket = 0 then some (h, total) else none
  | fuel + 1, h, bucket, total =>
    if bucket = 0 then some (h, total)
    else do
      let l ← h.lists bucket
      let h ← moveBucket h sub level bucket
      moveBuckets sub level fuel h l.next (total + 1)

/-- `set_subhash`. -/
def setSubhash (h : Heap α) (p : Ptr) (idx : ℕ) (sub : Ptr) : Option (Heap α) := do
  let h ← h.writeTable p fun t => { t with bitmap := t.bitmap.setBit idx }
  let h ← h.writeTable sub fun s => s.set (initialTableSize - 1) idx
  h.writeTable p fun t => t.set idx sub

/-- The part of `insert` that replaces a crowded chain by a sub-table. -/
def split (h : Heap α) (p : Ptr) (idx level : ℕ) : Option (Heap α) := do
  let sub := h.fresh
  let h := h.allocTable (SubhashTable.setup p)
  let t ← h.tables p
  let (h, total) ← moveBuckets sub level h.fresh h (t.get idx) 0
  let h ← h.writeTable sub fun s => { s with uniqueLists := UInt16.ofNat total }
  let h ← h.writeTable p fun t =>
    { t with uniqueLists := t.uniqueLists - UInt16.ofNat total, uniqueSubs := t.uniqueSubs + 1 }
  h.setSubhash p idx sub

/-- `subhash_table::insert` once the slot is known to hold a chain.  It returns the size of the list
the tuple is in. -/
def insertBucket (h : Heap α) (p : Ptr) (idx level : ℕ) (v : Value) (item : α) :
    Option (Heap α × ℕ) := do
  let t ← h.tables p
  let (bucket, last, count) ← findBucket h v h.fresh (t.get idx) 0 0
  if bucket ≠ 0 then
    let l ← h.lists bucket
    let h ← h.writeList bucket fun l => { l with list := l.list ++ [item] }
    some (h, l.list.length + 1)
  else
    let h ← newList h p idx last v item
    if count + 1 ≥ createHashtableThreshold ∧ level + 1 < maxLevels then
      let h ← split h p idx level
      some (h, 1)
    else some (h, 1)

/-- `subhash_table::insert`.  The recursion goes down the tree; `fuel` bounds its depth. -/
def insert (v : Value) (item : α) : ℕ → Heap α → Ptr → ℕ → ℕ → Option (Heap α × ℕ)
  | 0, _, _, _, _ => none
  | fuel + 1, h, p, id, level => do
    let t ← h.tables p
    let idx := modHash (id &&& subhashMask)
    if t.isSubhash idx then insert v item fuel h (t.get idx) (id >>> subhashShift) (level + 1)
    else insertBucket h p idx level v item

/-! ## Removal and search -/

/-- `check_empty_table`: free a table without lists and sub-tables, then look at its parent. -/
def checkEmptyTable : ℕ → Heap α → Ptr → Option (Heap α)
  | 0, _, _ => none
  | fuel + 1, h, p => do
    let t ← h.tables p
    if t.uniqueLists = 0 ∧ t.uniqueSubs = 0 ∧ t.parent ≠ 0 then
      let idxParent := t.get (initialTableSize - 1)
      let h ← h.writeTable t.parent fun q => q.set idxParent 0
      let h ← h.writeTable t.parent fun q => { q with bitmap := q.bitmap.unsetBit idxParent }
      let h ← h.writeTable t.parent fun q => { q with uniqueSubs := q.uniqueSubs - 1 }
      checkEmptyTable fuel (h.freeTable p) t.parent
    else some h

/-- The part of `erase_from_list` that unlinks an empty list and frees it. -/
def removeList (h : Heap α) (p a : Ptr) : Option (Heap α) := do
  let l ← h.lists a
  let h ←
    if l.prev ≠ 0 then h.writeList l.prev fun m => { m with next := l.next }
    else h.writeTable p fun t => t.set l.idx l.next
  let h ← if l.next ≠ 0 then h.writeList l.next fun m => { m with prev := l.prev } else some h
  (h.freeList a).writeTable p fun t => { t with uniqueLists := t.uniqueLists - 1 }

/-- `subhash_table::erase_from_list`.  The iterator is the position of a tuple in its list; the
iterator returned is the same position, where the next tuple is now. -/
def eraseFromList (h : Heap α) (p a : Ptr) (pos : ℕ) : Option (Heap α) := do
  let l ← h.lists a
  let h ← h.writeList a fun l => { l with list := l.list.eraseIdx pos }
  if (l.list.eraseIdx pos).isEmpty then
    let h ← removeList h p a
    checkEmptyTable maxLevels h p
  else some h

/-- The loop of `lookup_list` over a chain. -/
def findList (h : Heap α) (v : Value) : ℕ → Ptr → Option Ptr
  | 0, ls => if ls = 0 then some 0 else none
  | fuel + 1, ls =>
    if ls = 0 then some 0
    else do
      let l ← h.lists ls
      if sameField0 v l.value then some ls else findList h v fuel l.next

/-- `subhash_table::lookup_list`. -/
def lookupList (h : Heap α) (v : Value) : ℕ → Ptr → ℕ → Option Ptr
  | 0, _, _ => none
  | fuel + 1, p, id => do
    let t ← h.tables p
    let idx := modHash (id &&& subhashMask)
    if t.isSubhash idx then lookupList h v fuel (t.get idx) (id >>> subhashShift)
    else findList h v h.fresh (t.get idx)

end Heap

end Hash

/-! ## The table -/

open Hash

/-- `hash_table`: its root table, the number of its tuples and its objects. -/
structure HashTable (α : Type) where
  sh : Ptr
  elems : ℕ
  heap : Heap α

namespace HashTable

variable {α : Type}

/-- `setup`. -/
def setup : HashTable α :=
  let h : Heap α := ⟨fun _ => none, fun _ => none, 1⟩
  ⟨h.fresh, 0, h.allocTable (SubhashTable.setup 0)⟩

/-- `hash_table::insert`.  The source returns whether the list of the tuple has size one. -/
def insert (key : α → Value) (T : HashTable α) (item : α) : Option (HashTable α × Bool) := do
  let id := hashField (key item)
  let (h, size) ← Heap.insert (key item) item maxLevels T.heap T.sh id 0
  some ({ T with elems := T.elems + 1, heap := h }, size == 1)

/-- `hash_table::erase_from_list`. -/
def eraseFromList (T : HashTable α) (ls : Ptr) (pos : ℕ) : Option (HashTable α) := do
  let l ← T.heap.lists ls
  let h ← T.heap.eraseFromList l.parent ls pos
  some { T with elems := T.elems - 1, heap := h }

/-- `hash_table::lookup_list`. -/
def lookupList (T : HashTable α) (v : Value) : Option Ptr :=
  T.heap.lookupList v maxLevels T.sh (hashField v)

/-- `too_sparse`. -/
def tooSparse (T : HashTable α) : Bool :=
  match T.heap.tables T.sh with
  | none => false
  | some t => t.uniqueLists < UInt16.ofNat (createHashtableThreshold / 2) && t.uniqueSubs == 0

end HashTable

end Meld
