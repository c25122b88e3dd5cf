import Meld.Db.TrieMultiset

/-!
# Searching the trie

An iterate over a persistent predicate asks the trie for the tuples that match a pattern.  A match
object says for every field whether it is free or exact; a list may be matched by a pattern for its
head and its tail.  `tuple_search_iterator::find_next` walks down the trie with the stack of match
fields still to be met, keeps a continuation frame for the siblings that are left at every free
level, and goes back to the last frame when a level has no match.

* `MatchField`, `MatchObject`, `doMatches`: patterns and what they match.
* `Frame`, `SearchState`, `step`: the walk, one level a step.  `fault` stands for reading a node as
  a hash table or a null pointer.
* `SearchYields`: a whole iteration, from `match_predicate` to the end.
* `FirstSafe`: the condition on a trie and a pattern under which the first call of `find_next`,
  which keeps treating every frame as if it were new, comes to its end.
-/

namespace Meld

/-! ## Patterns -/

/-- `match_field`: free, with the type of the field, or exact.  An exact list field is nil, not nil,
or a `list_match` of the element type with patterns for head and tail. -/
inductive MatchField where
  | any (ty : FieldType)
  | int (i : BitVec 32)
  | float (x : FloatNumber)
  | node (n : BitVec 64)
  | nil (sub : FieldType)
  | nonNil (sub : FieldType)
  | list (sub : FieldType) (head tail : MatchField)

namespace MatchField

/-- `exact`. -/
def exact : MatchField → Bool
  | .any _ => false
  | _ => true

/-- The pattern is for fields of the type. -/
inductive HasType : MatchField → FieldType → Prop where
  | any (ty : FieldType) : HasType (.any ty) ty
  | int (i : BitVec 32) : HasType (.int i) .int
  | float (x : FloatNumber) : HasType (.float x) .float
  | node (n : BitVec 64) : HasType (.node n) .node
  | nil (sub : FieldType) : HasType (.nil sub) (.list sub)
  | nonNil (sub : FieldType) : HasType (.nonNil sub) (.list sub)
  | list {sub : FieldType} {head tail : MatchField} (hhead : HasType head sub)
      (htail : HasType tail (.list sub)) : HasType (.list sub head tail) (.list sub)

/-- `do_rec_match`, for an exact pattern; the patterns of head and tail are only looked at when they
are exact. -/
def doRecMatch : MatchField → Value → Bool
  | .int i, .int j => decide (i = j)
  | .float x, .float y => decide (x = y)
  | .node m, .node n => decide (m = n)
  | .nil _, v => decide (v = .nil)
  | .nonNil _, v => decide (v ≠ .nil)
  | .list _ head tail, .cons v w =>
    (!head.exact || doRecMatch head v) && (!tail.exact || doRecMatch tail w)
  | _, _ => false

/-- The symbol an exact pattern is looked up by. -/
def key : MatchField → Option TrieData
  | .any _ => none
  | .int i => some (.int i)
  | .float x => some (.float x)
  | .node n => some (.node n)
  | .nil _ => some (.ptr false)
  | .nonNil _ => some (.ptr true)
  | .list _ _ _ => some (.ptr true)

/-- What replaces the pattern on the stack when the symbol of a node has met it: free patterns for
head and tail below a `cons` node, or the patterns of a `list_match`. -/
def pushes : MatchField → TrieData → List MatchField
  | .any (.list sub), .ptr true => [.any sub, .any (.list sub)]
  | .nonNil sub, _ => [.any sub, .any (.list sub)]
  | .list _ head tail, _ => [head, tail]
  | _, _ => []

end MatchField

/-- `match`: the patterns of the fields, and `any_exact`. -/
structure MatchObject where
  anyExact : Bool
  fields : List MatchField

/-- `do_matches`. -/
def doMatches (m : MatchObject) (tpl : Tuple) : Bool :=
  !m.anyExact || (m.fields.zip tpl).all fun fv => !fv.1.exact || fv.1.doRecMatch fv.2

namespace Trie

/-! ## The walk -/

/-- A `trie_node *` next to its parent: null, the hash table of the parent, or the child with the
given symbol. -/
inductive NodePtr where
  | null
  | hash
  | at (d : TrieData)
  deriving DecidableEq

/-- `trie_continuation_frame`. -/
structure Frame where
  parent : TriePath
  node : NodePtr
  mstack : List MatchField

/-- `node->child`. -/
def childPtr : TrieChild → NodePtr
  | .leaf => .null
  | .siblings nodes => (nodes.head?.map .at).getD .null
  | .hash _ _ => .hash

/-- The nodes after `d` in a list. -/
def after (d : TrieData) (nodes : List TrieData) : List TrieData :=
  (nodes.dropWhile fun e => decide (e ≠ d)).tail

section Walk

variable (nodeId : BitVec 64 → ℕ)

/-- The alternative at a free level: `node->next`, or in a hash table the first node of the next
bucket that has one. -/
def nextAlt : TrieChild → TrieData → Option TrieData
  | .leaf, _ => none
  | .siblings nodes, d => (after d nodes).head?
  | .hash _ buckets, d =>
    match (after d (Buckets.bucketOf (hashItem nodeId) buckets d)).head? with
    | some e => some e
    | none => (buckets.drop (Buckets.index (hashItem nodeId) buckets.length d + 1)).flatten.head?

/-- How a level ends: no match, a node with the alternative that is left, or a read through a wrong
pointer. -/
inductive LevelResult where
  | fault
  | fail
  | next (d : TrieData) (alt : Option TrieData)
  deriving DecidableEq

/-- One level of `find_next`, from `match_begin`: `c` is the child of `parent`, and `f` the top of
the match stack. -/
def levelStep (c : TrieChild) (node : NodePtr) (goingDown : Bool) (f : MatchField) : LevelResult :=
  match f.key with
  | some k =>
    -- an exact match; there are no continuation frames at such a level
    match c, node with
    | .hash _ buckets, .hash =>
      if k ∈ Buckets.bucketOf (hashItem nodeId) buckets k then .next k none else .fail
    | .siblings nodes, .at d =>
      if k ∈ nodes.dropWhile (fun e => decide (e ≠ d)) then .next k none else .fail
    | .siblings _, .null => .fail
    | _, _ => .fault
  | none =>
    match c, node with
    | .hash _ buckets, .hash =>
      -- `going_down`: the first node of the first bucket that has one
      match goingDown, buckets.flatten.head? with
      | true, some d => .next d (nextAlt nodeId c d)
      | _, _ => .fault
    | .hash _ _, .at d =>
      -- a frame: `going_down` reads the node as a hash table
      if goingDown then .fault else .next d (nextAlt nodeId c d)
    | .siblings _, .at d => .next d (nextAlt nodeId c d)
    | _, _ => .fault

/-- Where `find_next` stands: at `match_begin`, at `try_again`, at its end with `next`, or after a
read through a wrong pointer.  `cont` is the continuation stack. -/
inductive SearchState where
  | begin (parent : TriePath) (node : NodePtr) (mstk : List MatchField) (goingDown : Bool)
      (cont : List Frame)
  | tryAgain (cont : List Frame)
  | done (next : Option TriePath) (cont : List Frame)
  | fault

/-- `leaf->get_count()` of the leaf at a node. -/
def leafCount (T : Trie) (p : TriePath) : ℕ :=
  ((T.leaves.find? fun l => decide (l.node = p)).map TrieLeaf.count).getD 0

/-- `match_succeeded`: the walk stops at a leaf with a positive count and goes down from any other
node. -/
def succeed (T : Trie) (node : TriePath) (mstk : List MatchField) (cont : List Frame) :
    SearchState :=
  match T.child node with
  | .leaf => if leafCount T node = 0 then .tryAgain cont else .done (some node) cont
  | c => .begin node (childPtr c) mstk true cont

/-- `ADD_ALT`. -/
def altFrames (parent : TriePath) (mstk : List MatchField) : Option TrieData → List Frame
  | none => []
  | some d => [⟨parent, .at d, mstk⟩]

/-- One step of `find_next`.  `forceDown` is what `going_down` is set to whenever a frame is
restored. -/
def step (T : Trie) (forceDown : Bool) : SearchState → SearchState
  | .begin _ _ [] _ _ => .fault
  | .begin parent node (f :: stk) goingDown cont =>
    match levelStep nodeId (T.child parent) node goingDown f with
    | .fault => .fault
    | .fail => .tryAgain cont
    | .next d alt =>
      succeed T (d :: parent) (f.pushes d ++ stk) (altFrames parent (f :: stk) alt ++ cont)
  | .tryAgain [] => .done none []
  | .tryAgain (frm :: cont) => .begin frm.parent frm.node frm.mstack forceDown cont
  | s => s

/-- `find_next(frm, force_down)` with the continuation stack `cont` ends with `next` and the stack
`cont'`. -/
def FindNext (T : Trie) (forceDown : Bool) (frm : Frame) (cont : List Frame)
    (next : Option TriePath) (cont' : List Frame) : Prop :=
  ∃ n, (step nodeId T forceDown)^[n] (.begin frm.parent frm.node frm.mstack forceDown cont) =
    .done next cont'

/-- The leaves an iterator gives, from the one it stands at on: `increment` pops a frame and calls
`find_next`. -/
inductive IteratorYields (T : Trie) : Option TriePath → List Frame → List TriePath → Prop where
  | atEnd (cont : List Frame) : IteratorYields T none cont []
  | last (p : TriePath) : IteratorYields T (some p) [] [p]
  | more {p : TriePath} {frm : Frame} {cont cont' : List Frame} {next : Option TriePath}
      {ps : List TriePath} (hfind : FindNext nodeId T false frm cont next cont')
      (hrest : IteratorYields T next cont' ps) : IteratorYields T (some p) (frm :: cont) (p :: ps)

/-- The first frame of `match_predicate`. -/
def firstFrame (T : Trie) (m : MatchObject) : Frame := ⟨[], childPtr (T.child []), m.fields⟩

/-- `match_predicate(m)` and all increments give the leaves `ps`: the whole chain when no field is
exact, nothing for an empty trie, and else what the walk finds. -/
def SearchYields (T : Trie) (m : MatchObject) (ps : List TriePath) : Prop :=
  if m.anyExact = false then ps = T.leaves.map TrieLeaf.node
  else if T.numberOfReferences = 0 then ps = []
  else ∃ next cont, FindNext nodeId T true (firstFrame T m) [] next cont ∧
    IteratorYields nodeId T next cont ps

/-- The iteration gives every matching leaf once and no other, and comes to its end. -/
def SearchCorrect (T : Trie) (m : MatchObject) : Prop :=
  ∃ ps, SearchYields nodeId T m ps ∧ ps.Nodup ∧
    ∀ p, p ∈ ps ↔ ∃ l ∈ T.leaves, l.node = p ∧ 0 < l.count ∧ doMatches m l.tpl = true

end Walk

/-! ## What the walk should find -/

/-- A symbol meets a pattern: every one a free pattern, the key an exact one. -/
def meets (f : MatchField) (d : TrieData) : Bool :=
  match f.key with
  | some k => decide (d = k)
  | none => true

/-- The leaves below a node, in the order of the walk, whose remaining word meets the patterns on
the stack.  `n` bounds the depth. -/
def matchesBelow (T : Trie) : ℕ → TriePath → List MatchField → List TriePath
  | 0, _, _ => []
  | n + 1, p, mstk =>
    match T.child p, mstk with
    | .leaf, [] => [p]
    | .leaf, _ :: _ => []
    | _, [] => []
    | c, f :: stk =>
      ((children c).filter (meets f)).flatMap fun d =>
        matchesBelow T n (d :: p) (f.pushes d ++ stk)

/-- A bound for the depth of the trie. -/
def depthBound (T : Trie) : ℕ := (T.leaves.map fun l => l.node.length).sum + 1

/-- Every child up to the first that leads to a match satisfies `P`. -/
def UpToFirst (found : TrieData → Bool) (P : TrieData → Prop) : List TrieData → Prop
  | [] => True
  | d :: ds => P d ∧ (found d = false → UpToFirst found P ds)

/-- The walk from a node to the first match does not go back to a hash table: whenever it enters a
hash table with more than one child at a free field, the first child leads to a match. -/
def FirstSafe (T : Trie) : ℕ → TriePath → List MatchField → Prop
  | 0, _, _ => True
  | n + 1, p, mstk =>
    match T.child p, mstk with
    | .leaf, _ => True
    | _, [] => True
    | .siblings nodes, f :: stk =>
      UpToFirst (fun d => !(matchesBelow T n (d :: p) (f.pushes d ++ stk)).isEmpty)
        (fun d => FirstSafe T n (d :: p) (f.pushes d ++ stk)) (nodes.filter (meets f))
    | .hash _ buckets, f :: stk =>
      match buckets.flatten.filter (meets f) with
      | [] => True
      | [d] => FirstSafe T n (d :: p) (f.pushes d ++ stk)
      | d :: _ => FirstSafe T n (d :: p) (f.pushes d ++ stk) ∧
          matchesBelow T n (d :: p) (f.pushes d ++ stk) ≠ []

end Trie

end Meld
