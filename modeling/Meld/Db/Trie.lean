import Meld.Lib.Buckets
import Meld.Vm.Tuple
import Mathlib.Logic.Function.Basic

/-!
# The tuple trie

Persistent facts of a predicate are kept in a trie.  A tuple is spelled as a word, one symbol for
each integer, float, node or list constructor met when its fields are read in order, and the nodes
below the root share the prefixes of these words.  The children of a node are a sibling list that is
turned into a hash table when it gets long; tuples hang at the last node of their word as leaves
with a reference count, and all leaves are chained in the order of their insertion.

A node is determined by the word that leads to it, so words stand for node addresses here: the
address of a node is its word read backwards, the parent of `d :: p` is `p`, and the root is `[]`.

* `checkInsert`, `insertTuple`: descend as far as the word is there, restructure the level where it
  stops, add the rest.
* `deleteTuple`, `performDelete`: drop a reference, and when it was the last one unlink the leaf and
  remove every ancestor that leads nowhere (`deletePath`).
* `Op`, `exec`, `run`: sequences of these.
-/

namespace Meld

/-- `trie_node::data`: an integer, a float, a node address, or the tag of a list, which is true for a
`cons` cell and false for the empty list. -/
inductive TrieData where
  | int (i : BitVec 32)
  | float (x : FloatNumber)
  | node (n : BitVec 64)
  | ptr (nonNull : Bool)
  deriving DecidableEq

/-- The address of a trie node: its word, last symbol first. -/
abbrev TriePath := List TrieData

/-- `trie_node::child`, as `hashed` and its tag bit have it read: a leaf, a list of siblings (empty
when the pointer is null) or a hash table with its `total` and its buckets. -/
inductive TrieChild where
  | leaf
  | siblings (nodes : List TrieData)
  | hash (total : ℕ) (buckets : List (List TrieData))
  deriving DecidableEq

/-- `tuple_trie_leaf`, of a predicate without depth counters. -/
structure TrieLeaf where
  node : TriePath
  tpl : Tuple
  count : ℕ
  deriving DecidableEq

/-- `tuple_trie`: the children of every node (an address that is not in the trie has none), the
chain from `first_leaf` to `last_leaf`, and `number_of_references`. -/
structure Trie where
  child : TriePath → TrieChild
  leaves : List TrieLeaf
  numberOfReferences : ℕ

namespace Value

/-- The symbol of a value: `insert` and `match` of `trie_node` switch on the type of the field. -/
def data : Value → TrieData
  | .int i => .int i
  | .float x => .float x
  | .node n => .node n
  | .nil => .ptr false
  | .cons _ _ => .ptr true

/-- What is pushed on the match stack after the symbol: the head, with the tail below it. -/
def pushes : Value → List Value
  | .cons head tail => [head, tail]
  | _ => []

/-- The number of symbols of a value. -/
def size : Value → ℕ
  | .cons head tail => 1 + head.size + tail.size
  | _ => 1

end Value

namespace Trie

/-- `TRIE_HASH_LIST_THRESHOLD`. -/
def hashListThreshold : ℕ := 8

/-- `TRIE_HASH_BASE_BUCKETS`. -/
def hashBaseBuckets : ℕ := 64

/-- `tuple_trie()`. -/
def empty : Trie := ⟨fun _ => .siblings [], [], 0⟩

/-- The number of symbols still to be read from a match stack. -/
def stackSize (stk : List Value) : ℕ := (stk.map Value.size).sum

/-- `std::hash<double>`: zero for a zero, and else the eight bytes mixed by `std::_Hash_bytes`, whose
`mul` and seed these are. -/
def floatHash (x : FloatNumber) : BitVec 64 :=
  let mul := 0xc6a4a7935bd1e995#64
  let shiftMix (v : BitVec 64) := v ^^^ (v >>> 47)
  let hash := (0xc70f6907#64 ^^^ 8#64 * mul ^^^ shiftMix (x.bits * mul) * mul) * mul
  if x.bits = 0 then 0 else shiftMix (shiftMix hash * mul)

section Hash

variable (nodeId : BitVec 64 → ℕ)

/-- The hash of a symbol: `std::hash` of an integer is the integer as a `size_t`, that of a float is
divided by 1000, and nodes are hashed by the identifier stored at their address. -/
def hashItem : TrieData → ℕ
  | .int i => (i.signExtend 64).toNat
  | .float x => (floatHash x).toNat / 1000
  | .node n => nodeId n
  | .ptr nonNull => if nonNull then 1 else 0

/-- The nodes that `trie_node::match` walks through for a symbol. -/
def candidates : TrieChild → TrieData → List TrieData
  | .leaf, _ => []
  | .siblings nodes, _ => nodes
  | .hash _ buckets, d => Buckets.bucketOf (hashItem nodeId) buckets d

/-- The loop of `check_insert` as long as `match` finds a child: from the node `p`, with the match
stack `stk`.  The fuel is the number of symbols on the stack. -/
def descend (child : TriePath → TrieChild) : ℕ → TriePath → List Value → TriePath × List Value
  | fuel + 1, p, v :: stk =>
    if child p = .leaf then (p, v :: stk)
    else if v.data ∈ candidates nodeId (child p) v.data then
      descend child fuel (v.data :: p) (v.pushes ++ stk)
    else (p, v :: stk)
  | _, p, stk => (p, stk)

/-- `convert_hash` past the threshold, or `trie_hash::expand` when a bucket gets long.  `count` is
the number of nodes that `match` went through, plus one. -/
def restructure (count : ℕ) : TrieChild → TrieChild
  | .leaf => .leaf
  | .siblings nodes =>
    if count > hashListThreshold then
      .hash nodes.length (Buckets.rehash (hashItem nodeId) hashBaseBuckets nodes)
    else .siblings nodes
  | .hash total buckets =>
    if count > hashListThreshold / 2 then
      .hash total (Buckets.rehash (hashItem nodeId) (2 * buckets.length) buckets.flatten)
    else .hash total buckets

/-- A new child at the head of the sibling list or of its bucket. -/
def addChild (d : TrieData) : TrieChild → TrieChild
  | .leaf => .leaf
  | .siblings nodes => .siblings (d :: nodes)
  | .hash total buckets => .hash (total + 1) (Buckets.insert (hashItem nodeId) buckets d)

/-- `trie_node::insert`: a new node below `p`, without children. -/
def insertNode (child : TriePath → TrieChild) (p : TriePath) (d : TrieData) :
    TriePath → TrieChild :=
  Function.update (Function.update child p (addChild nodeId d (child p))) (d :: p) (.siblings [])

/-- The second loop of `check_insert`: the rest of the stack below `p`, one node a symbol.  Returns
the last node. -/
def insertRest : (TriePath → TrieChild) → ℕ → TriePath → List Value →
    (TriePath → TrieChild) × TriePath
  | child, fuel + 1, p, v :: stk =>
    insertRest (insertNode nodeId child p v.data) fuel (v.data :: p) (v.pushes ++ stk)
  | child, _, p, _ => (child, p)

/-- The leaf at `p` with another count. -/
def updateCount (p : TriePath) (f : ℕ → ℕ) (leaves : List TrieLeaf) : List TrieLeaf :=
  leaves.map fun l => if l.node = p then { l with count := f l.count } else l

/-- `check_insert` with `POSITIVE_DERIVATION`: the trie, and whether the tuple was found. -/
def checkInsert (T : Trie) (tpl : Tuple) : Trie × Bool :=
  match descend nodeId T.child (stackSize tpl) [] tpl with
  | (p, []) =>
    -- `orig->add_new(depth, 1)`
    ({ T with leaves := updateCount p (· + 1) T.leaves }, true)
  | (p, v :: stk) =>
    let count := (candidates nodeId (T.child p) v.data).length + 1
    let child := Function.update T.child p (restructure nodeId count (T.child p))
    let (child, last) := insertRest nodeId child (stackSize (v :: stk)) p (v :: stk)
    ({ T with
        child := Function.update child last .leaf
        leaves := T.leaves ++ [⟨last, tpl, 1⟩] },
      false)

/-- `tuple_trie::insert_tuple`: the trie, and whether the tuple is new. -/
def insertTuple (T : Trie) (tpl : Tuple) : Trie × Bool :=
  let (T', found) :=
    checkInsert nodeId { T with numberOfReferences := T.numberOfReferences + 1 } tpl
  (T', !found)

/-- `delete_info`: `none` for the invalid one, else the node of the leaf and `to_del`. -/
abbrev DeleteInfo := Option (TriePath × Bool)

/-- `delete_info::to_delete`. -/
def toDelete : DeleteInfo → Bool
  | none => false
  | some (_, toDel) => toDel

/-- `tuple_trie::delete_tuple`, with `check_insert` in `NEGATIVE_DERIVATION` inlined: the count of
the leaf goes down, and `number_of_references` with it unless the count reached zero. -/
def deleteTuple (T : Trie) (tpl : Tuple) : Trie × DeleteInfo :=
  match descend nodeId T.child (stackSize tpl) [] tpl with
  | (p, []) =>
    let leaves := updateCount p (· - 1) T.leaves
    if leaves.any fun l => decide (l.node = p) && l.count == 0 then
      ({ T with leaves := leaves }, some (p, true))
    else
      ({ T with leaves := leaves, numberOfReferences := T.numberOfReferences - 1 },
        some (p, false))
  | (_, _ :: _) => (T, none)

/-- The child pointer of a node when one of its children, `d`, is taken out: `none` when that
leaves it null, so that `delete_path` goes on with the node itself.  In a hash table the bucket is
corrected and the table is freed when `total` reaches zero and `d` was first in its bucket; a node
that was not first in its list leaves its predecessor there. -/
def removeChild (d : TrieData) : TrieChild → Option TrieChild
  | .leaf => some .leaf
  | .siblings nodes => if nodes.erase d = [] then none else some (.siblings (nodes.erase d))
  | .hash total buckets =>
    if total - 1 = 0 ∧ (Buckets.bucketOf (hashItem nodeId) buckets d).head? = some d then none
    else some (.hash (total - 1) (Buckets.erase (hashItem nodeId) buckets d))

/-- `trie::delete_path`: removes a node whose child pointer is null, and then its ancestors as long
as they are left without children.  At the root only `hashed` is cleared. -/
def deletePath (child : TriePath → TrieChild) : TriePath → TriePath → TrieChild
  | [] => Function.update child [] (.siblings [])
  | d :: p =>
    let child := Function.update child (d :: p) (.siblings [])
    match removeChild nodeId d (child p) with
    | none => deletePath child p
    | some c => Function.update child p c

/-- `commit_delete` through `delete_info::perform_delete`, with the leaf's count already zero. -/
def performDelete (T : Trie) (p : TriePath) : Trie where
  child := deletePath nodeId T.child p
  leaves := T.leaves.filter fun l => l.node ≠ p
  numberOfReferences := T.numberOfReferences - 1

/-- `delete_tuple`, completed by `perform_delete` when `to_delete()` is true. -/
def deleteCompletely (T : Trie) (tpl : Tuple) : Trie × DeleteInfo :=
  match deleteTuple nodeId T tpl with
  | (T', some (p, true)) => (performDelete nodeId T' p, some (p, true))
  | r => r

end Hash

/-! ## Runs -/

/-- What is done to a trie of a predicate with the given field types. -/
inductive Op (fields : List FieldType) where
  | insert (tpl : TypedTuple fields)
  | delete (tpl : TypedTuple fields)

variable (nodeId : BitVec 64 → ℕ) {fields : List FieldType}

/-- One operation, with its answer: whether the tuple is new, or `to_delete()`. -/
def exec (T : Trie) : Op fields → Trie × Bool
  | .insert tpl => insertTuple nodeId T tpl.1
  | .delete tpl => (deleteCompletely nodeId T tpl.1).map id toDelete

/-- The trie after a sequence of operations on an empty one. -/
def run (ops : List (Op fields)) : Trie :=
  ops.foldl (fun T op => (exec nodeId T op).1) empty

end Trie

end Meld
