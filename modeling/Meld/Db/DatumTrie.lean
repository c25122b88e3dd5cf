import Meld.Lib.WordTree
import Meld.Db.TupleTrie

/-!
# Tries over every field type

The trie of persistent facts once more, now for every type of field that `trie_node::insert`
accepts: also booleans, floats, threads and structures, nested in lists and structures.  The
switches over the field type in `match`, `insert`, `convert_hash`, `expand` and `value_equal` do not
list the same types, and what they leave out aborts or throws.

* `Datum`: the values, with `HasType` and `AllHaveType`.
* `valueEqual`, `tupleEqual`: the comparison of tuples, `none` when it throws.
* `Symbol`, `Datum.words`: what the trie spells a tuple with.
* `DatumTrie`: the trie, with `checkInsert`, `insertTuple`, `deleteTuple`, `remove`; `none` stands
  for a call to `abort` and for reading a leaf that does not exist.
-/

namespace Meld

/-- A `double` that is a number or an infinity. -/
structure FloatVal where
  bits : BitVec 64
  notNaN : ¬ (bits.extractLsb' 52 11 = 0x7ff#11 ∧ bits.extractLsb' 0 52 ≠ 0#52)

/-- What `==` of floats compares: two of them are equal when they have the same bits or are both
zeros, of any sign. -/
def FloatVal.value (f : FloatVal) : BitVec 64 :=
  if f.bits.extractLsb' 0 63 = 0#63 then 0#64 else f.bits

/-- A `tuple_field` of a type that the trie accepts.  Nodes and threads are addresses. -/
inductive Datum where
  | int (i : BitVec 32)
  | float (f : FloatVal)
  | node (n : BitVec 64)
  | thread (t : BitVec 64)
  | bool (b : Bool)
  | nil
  | cons (head tail : Datum)
  | struct (fields : List Datum)

namespace Datum

mutual

/-- The value is of the type. -/
inductive HasType : Datum → FieldType → Prop where
  | int (i : BitVec 32) : HasType (.int i) .int
  | float (f : FloatVal) : HasType (.float f) .float
  | node (n : BitVec 64) : HasType (.node n) .node
  | thread (t : BitVec 64) : HasType (.thread t) .thread
  | bool (b : Bool) : HasType (.bool b) .bool
  | nil (t : FieldType) : HasType .nil (.list t)
  | cons {head tail : Datum} {t : FieldType} (hhead : HasType head t)
      (htail : HasType tail (.list t)) : HasType (.cons head tail) (.list t)
  | struct {vs : List Datum} {ts : List FieldType} (h : AllHaveType vs ts) :
      HasType (.struct vs) (.struct ts)

/-- The values are of the types. -/
inductive AllHaveType : List Datum → List FieldType → Prop where
  | nil : AllHaveType [] []
  | cons {v : Datum} {t : FieldType} {vs : List Datum} {ts : List FieldType} (hv : HasType v t)
      (hvs : AllHaveType vs ts) : AllHaveType (v :: vs) (t :: ts)

end

/-! ## Comparing tuples -/

/-- `value_equal`, which throws for the types it does not know. -/
def valueEqual : FieldType → Datum → Datum → Option Bool
  | .int, .int i, .int j => some (i == j)
  | .float, .float f, .float g => some (f.value == g.value)
  | .node, .node n, .node m => some (n == m)
  | .thread, .thread t, .thread u => some (t == u)
  | .list _, .nil, .nil => some true
  | .list _, .nil, .cons _ _ => some false
  | .list _, .cons _ _, .nil => some false
  | .list t, .cons head tail, .cons head' tail' =>
    match valueEqual t head head' with
    | none => none
    | some false => some false
    | some true => valueEqual (.list t) tail tail'
  | _, _, _ => none

/-- `tuple::equal`. -/
def tupleEqual : List FieldType → List Datum → List Datum → Option Bool
  | [], _, _ => some true
  | t :: ts, v :: vs, w :: ws =>
    match valueEqual t v w with
    | none => none
    | some false => some false
    | some true => tupleEqual ts vs ws
  | _, _, _ => none

end Datum

/-! ## Symbols -/

/-- `trie_node::data`, up to what `match` tells apart: of a float the number, of a list the tag, of
a structure its size. -/
inductive Symbol where
  | int (i : BitVec 32)
  | float (v : BitVec 64)
  | node (n : BitVec 64)
  | thread (t : BitVec 64)
  | bool (b : Bool)
  | ptr (nonNull : Bool)
  | size (n : BitVec 32)
  deriving DecidableEq

namespace Datum

/-- The symbol of a value. -/
def symbol : Datum → Symbol
  | .int i => .int i
  | .float f => .float f.value
  | .node n => .node n
  | .thread t => .thread t
  | .bool b => .bool b
  | .nil => .ptr false
  | .cons _ _ => .ptr true
  | .struct fields => .size (BitVec.ofNat 32 fields.length)

/-- What `match` and `insert` push on the match stack after the symbol, top first. -/
def pushes : Datum → List Datum
  | .cons head tail => [head, tail]
  | .struct fields => fields
  | _ => []

mutual

/-- The symbols of a value. -/
def word : Datum → List Symbol
  | .cons head tail => .ptr true :: (head.word ++ tail.word)
  | .struct fields => .size (BitVec.ofNat 32 fields.length) :: words fields
  | .int i => [.int i]
  | .float f => [.float f.value]
  | .node n => [.node n]
  | .thread t => [.thread t]
  | .bool b => [.bool b]
  | .nil => [.ptr false]

/-- The symbols of a match stack. -/
def words : List Datum → List Symbol
  | [] => []
  | v :: vs => v.word ++ words vs

end

end Datum

/-- What values are hashed by: the identifiers at the addresses of nodes and threads, and
`std::hash` of a float, which does not tell equal ones apart. -/
structure Hashes where
  nodeId : BitVec 64 → ℕ
  threadId : BitVec 64 → ℕ
  floatHash : BitVec 64 → ℕ

/-- `HASH_INT`, `HASH_FLOAT`, `HASH_NODE`, `HASH_THREAD` and `HASH_UINT`. -/
def Hashes.hashItem (H : Hashes) : Symbol → ℕ
  | .int i => (i.signExtend 64).toNat
  | .float v => H.floatHash v / 1000
  | .node n => H.nodeId n
  | .thread t => H.threadId t
  | .ptr nonNull => if nonNull then 1 else 0
  | .bool _ => 0
  | .size _ => 0

namespace Symbol

/-- The types that `trie_node::insert`, `match` and `convert_hash` know a hash for. -/
def hashable : Symbol → Bool
  | .bool _ => false
  | .size _ => false
  | _ => true

/-- The types that `trie_hash::expand` knows a hash for. -/
def expandable : Symbol → Bool
  | .bool _ => false
  | .size _ => false
  | .thread _ => false
  | _ => true

end Symbol

/-! ## The trie -/

open WordTree

/-- `tuple_trie_leaf`. -/
structure DatumLeaf where
  node : List Symbol
  tpl : List Datum
  count : ℕ
  depths : DepthCounter

/-- `tuple_trie`. -/
structure DatumTrie where
  child : List Symbol → Level Symbol
  leaves : List DatumLeaf
  numberOfReferences : ℕ

namespace DatumTrie

/-- `tuple_trie()`. -/
def empty : DatumTrie := ⟨fun _ => .siblings [], [], 0⟩

variable (H : Hashes) (isCycle : Bool)

/-- `trie_node::match`: whether there is a child for the symbol.  A null pointer is no child; after
that the switches know no booleans, and no structures in a hash table. -/
def matchChild (s : Symbol) (c : Level Symbol) : Option Bool :=
  if c.children = [] then some false
  else
    match s, c with
    | .bool _, _ => none
    | .size _, .hash _ _ => none
    | s, c => some (decide (s ∈ c.candidates H.hashItem s))

/-- The loop of `check_insert` as long as `match` finds a child. -/
def descend (child : List Symbol → Level Symbol) :
    ℕ → List Symbol → List Datum → Option (List Symbol × List Datum)
  | fuel + 1, p, v :: stk =>
    if child p = .leaf then some (p, v :: stk)
    else
      match matchChild H v.symbol (child p) with
      | none => none
      | some true => descend child fuel (v.symbol :: p) (v.pushes ++ stk)
      | some false => some (p, v :: stk)
  | _, p, stk => some (p, stk)

/-- `convert_hash` past the threshold, or `trie_hash::expand` when a bucket gets long. -/
def restructure (s : Symbol) (count : ℕ) : Level Symbol → Option (Level Symbol)
  | .leaf => some .leaf
  | .siblings nodes =>
    if count > Trie.hashListThreshold then
      (if s.hashable then some ((Level.siblings nodes).convert H.hashItem Trie.hashBaseBuckets)
        else none)
    else some (.siblings nodes)
  | .hash total buckets =>
    if count > Trie.hashListThreshold / 2 then
      (if s.expandable then some ((Level.hash total buckets).expand H.hashItem) else none)
    else some (.hash total buckets)

/-- `trie_node::insert`: a new node below `p`. -/
def insertNode (child : List Symbol → Level Symbol) (p : List Symbol) (s : Symbol) :
    Option (List Symbol → Level Symbol) :=
  match child p, s.hashable with
  | .hash _ _, false => none
  | _, _ => some (addNode H.hashItem child p s)

/-- The second loop of `check_insert`: the rest of the stack below `p`, and the last node. -/
def insertRest : (List Symbol → Level Symbol) → ℕ → List Symbol → List Datum →
    Option ((List Symbol → Level Symbol) × List Symbol)
  | child, fuel + 1, p, v :: stk =>
    match insertNode H child p v.symbol with
    | none => none
    | some child => insertRest child fuel (v.symbol :: p) (v.pushes ++ stk)
  | child, _, p, _ => some (child, p)

/-- The leaf at `p`, changed. -/
def updateLeaf (p : List Symbol) (f : DatumLeaf → DatumLeaf) (leaves : List DatumLeaf) :
    List DatumLeaf :=
  leaves.map fun l => if l.node = p then f l else l

/-- `add_new(depth, 1)`. -/
def addNew (depth : ℕ) (l : DatumLeaf) : DatumLeaf :=
  { l with
    count := l.count + 1
    depths := if isCycle then DepthCounter.add depth 1 l.depths else l.depths }

/-- `sub(depth, 1)`. -/
def subOne (depth : ℕ) (l : DatumLeaf) : DatumLeaf :=
  { l with
    count := l.count - 1
    depths := if isCycle then DepthCounter.sub depth 1 l.depths else l.depths }

/-- `create_leaf(tpl, pred, 1, depth)` at the node `p`. -/
def createLeaf (p : List Symbol) (tpl : List Datum) (depth : ℕ) : DatumLeaf :=
  ⟨p, tpl, 1, if isCycle then DepthCounter.add depth 1 [] else []⟩

/-- `check_insert` with `POSITIVE_DERIVATION`: the trie, and whether the tuple was found. -/
def checkInsert (T : DatumTrie) (tpl : List Datum) (depth : ℕ) : Option (DatumTrie × Bool) :=
  if tpl = [] ∧ T.child [] ≠ .leaf then
    some ({ T with
      child := Function.update T.child [] .leaf
      leaves := [createLeaf isCycle [] tpl depth] }, false)
  else
    match descend H T.child (Datum.words tpl).length [] tpl with
    | none => none
    | some (p, []) =>
      some ({ T with leaves := updateLeaf p (addNew isCycle depth) T.leaves }, true)
    | some (p, v :: stk) =>
      let count := ((T.child p).candidates H.hashItem v.symbol).length + 1
      match restructure H v.symbol count (T.child p) with
      | none => none
      | some c =>
        match insertRest H (Function.update T.child p c) (Datum.words (v :: stk)).length p
          (v :: stk) with
        | none => none
        | some (child, last) =>
          some ({ T with
            child := Function.update child last .leaf
            leaves := T.leaves ++ [createLeaf isCycle last tpl depth] }, false)

/-- `tuple_trie::insert_tuple`: the trie, and whether the tuple is new. -/
def insertTuple (T : DatumTrie) (tpl : List Datum) (depth : ℕ) : Option (DatumTrie × Bool) :=
  (checkInsert H isCycle { T with numberOfReferences := T.numberOfReferences + 1 } tpl depth).map
    fun r => (r.1, !r.2)

/-- `trie::delete_info` of a tuple that was found: its node, `to_del` and `decrease`. -/
structure Found where
  leaf : List Symbol
  toDel : Bool
  decrease : ℕ

/-- The count of the leaf at `p` is zero. -/
def leafGone (p : List Symbol) (leaves : List DatumLeaf) : Bool :=
  leaves.any fun l => decide (l.node = p) && l.count == 0

/-- `tuple_trie::delete_tuple`, with `check_insert` in `NEGATIVE_DERIVATION` inlined.  No `Found` is
an invalid `delete_info`.  Of a tuple without fields that is not there, `check_insert` returns the
root instead of a null pointer, and the leaf that is read from it does not exist. -/
def deleteTuple (T : DatumTrie) (tpl : List Datum) (depth : ℕ) :
    Option (DatumTrie × Option Found) :=
  if tpl = [] ∧ T.child [] ≠ .leaf then none
  else
    match descend H T.child (Datum.words tpl).length [] tpl with
    | none => none
    | some (_, _ :: _) => some (T, none)
    | some (p, []) =>
      let leaves := updateLeaf p (subOne isCycle depth) T.leaves
      if leafGone p leaves then some ({ T with leaves := leaves }, some ⟨p, true, 1⟩)
      else
        some ({ T with leaves := leaves, numberOfReferences := T.numberOfReferences - 1 },
          some ⟨p, false, 0⟩)

/-- `delete_info::delete_depths_above`. -/
def deleteDepthsAbove (T : DatumTrie) (info : Found) (depth : ℕ) : DatumTrie × Found :=
  let deleted := ((T.leaves.filter fun l => decide (l.node = info.leaf)).map fun l =>
    (DepthCounter.deleteDepthsAbove depth l.depths).2).sum
  let leaves := updateLeaf info.leaf (fun l =>
    { l with
      count := subRefCount l.count (DepthCounter.deleteDepthsAbove depth l.depths).2
      depths := (DepthCounter.deleteDepthsAbove depth l.depths).1 }) T.leaves
  ({ T with leaves := leaves },
    ⟨info.leaf, info.toDel || leafGone info.leaf leaves, info.decrease + deleted⟩)

/-- `delete_info::perform_delete`. -/
def performDelete (T : DatumTrie) (info : Found) : DatumTrie where
  child := prune H.hashItem T.child info.leaf
  leaves := T.leaves.filter fun l => l.node ≠ info.leaf
  numberOfReferences := T.numberOfReferences - info.decrease

/-- The depth counter of the leaf at `p`. -/
def depthsAt (T : DatumTrie) (p : List Symbol) : DepthCounter :=
  ((T.leaves.find? fun l => decide (l.node = p)).map DatumLeaf.depths).getD []

/-- What the callers do with a negative tuple. -/
def remove (T : DatumTrie) (tpl : List Datum) (depth : ℕ) : Option DatumTrie :=
  match T.deleteTuple H isCycle tpl depth with
  | none => none
  | some (T', none) => some T'
  | some (T', some info) =>
    if info.toDel then some (T'.performDelete H info)
    else if isCycle ∧ DepthCounter.getCount (T'.depthsAt info.leaf) depth = 0 then
      let (T'', info') := T'.deleteDepthsAbove info depth
      if info'.toDel then some (T''.performDelete H info') else some T''
    else some T'

end DatumTrie

end Meld
