import Meld.Db.CompactArray
import Meld.Db.TrieSearch

/-!
# Iterating over persistent facts

`execute_pers_iter` runs a body for every tuple of a persistent predicate that matches a pattern.
The body may derive further tuples of the same predicate on the same node while the iterate goes on:
they are inserted into the trie at once, or put into the compact array when they are allocated.

What a body does to the store is given by a list of actions, and by whether its return value ends
the iterate.  The bodies of an iterate are a list, one for each run in order; a run past the end of
the list derives nothing.

* `compactLoop`: the loop over a compact array, which keeps a pointer into the buffer it started
  with.
* `Iterator`, `Increment`, `TrieLoop`: the loop over a trie, with the iterator of the search.
* `CompactIterateCorrect`, `TrieIterateCorrect`: the body is run once for every matching tuple that
  was there at the start.
* `CompactUndisturbed`, `TrieUndisturbed`: no derivation changes the storage under the iterator.
-/

namespace Meld

/-- What the body of an iterate does to the store: it derives a tuple, or reads the tuple it is run
for. -/
inductive BodyAction (fields : List FieldType) where
  | derive (tpl : TypedTuple fields)
  | readTuple

/-- One run of a body.  `finishes` is for `RETURN_LINEAR`, and for `RETURN_DERIVED` when the rule
has consumed a linear fact. -/
structure Body (fields : List FieldType) where
  actions : List (BodyAction fields)
  finishes : Bool

namespace PersIter

variable {fields : List FieldType}

/-- The body that comes next. -/
def nextBody (bodies : List (Body fields)) : Body fields := bodies.headD ⟨[], false⟩

/-! ## Compact arrays -/

/-- The actions of a body that is run for a tuple in `buffer`; `none` when the tuple is read after
its buffer was released. -/
def compactActions (buffer : ℕ) : List (BodyAction fields) → CompactArray → Option CompactArray
  | [], a => some a
  | .derive tpl :: acts, a => compactActions buffer acts (a.expand tpl.1)
  | .readTuple :: acts, a => if buffer ∈ a.released then none else compactActions buffer acts a

/-- The loop over a compact array from slot `i` on, with `n` slots to go to the end pointer: the
slots and tuples the body was run for, and whether it ended the iterate.  It is `none` when a
released buffer is read. -/
def compactLoop (m : MatchObject) (buffer : ℕ) :
    ℕ → ℕ → CompactArray → List (Body fields) → Option (List (ℕ × Tuple) × Bool)
  | 0, _, _, _ => some ([], false)
  | n + 1, i, a, bodies =>
    if buffer ∈ a.released then none
    else if doMatches m (a.mem buffer i) then
      (compactActions buffer (nextBody bodies).actions a).bind fun a' =>
        if (nextBody bodies).finishes then some ([(i, a.mem buffer i)], true)
        else (compactLoop m buffer n (i + 1) a' bodies.tail).map fun r =>
          ((i, a.mem buffer i) :: r.1, r.2)
    else compactLoop m buffer n (i + 1) a bodies

/-- The number of steps from `begin` to `end`: the pointers are the same when a tuple has no
fields. -/
def compactSteps (fields : List FieldType) (a : CompactArray) : ℕ :=
  if fields.length = 0 then 0 else a.numTuples

/-- `execute_pers_iter` for a compact predicate. -/
def compactIterate (m : MatchObject) (a : CompactArray) (bodies : List (Body fields)) :
    Option (List (ℕ × Tuple) × Bool) :=
  compactLoop m a.buffer (compactSteps fields a) 0 a bodies

/-- The body is run once for every matching tuple that was stored at the start, in their order,
until it ends the iterate, and no released buffer is read. -/
def CompactIterateCorrect (m : MatchObject) (a : CompactArray) (bodies : List (Body fields)) : Prop :=
  ∃ r, compactIterate m a bodies = some r ∧
    r.1 <+: a.stored.filter (fun s => doMatches m s.2) ∧
    (r.2 = false → r.1 = a.stored.filter fun s => doMatches m s.2)

/-- A derivation that finds the buffer full. -/
def Releases (buffer : ℕ) (a : CompactArray) : Prop :=
  a.buffer = buffer ∧ a.numTuples = a.cap ∧ a.numTuples ≠ 0

/-- The buffer is not released by these actions, or only when the iterate is at its `last` tuple and
that is not read again. -/
def CompactQuiet (buffer : ℕ) (last : Prop) : List (BodyAction fields) → CompactArray → Prop
  | [], _ => True
  | .derive tpl :: acts, a =>
    (Releases buffer a → last ∧ ∀ act ∈ acts, act ≠ .readTuple) ∧
      CompactQuiet buffer last acts (a.expand tpl.1)
  | .readTuple :: acts, a => CompactQuiet buffer last acts a

/-- The array after the derivations of a body. -/
def compactDerive (acts : List (BodyAction fields)) (a : CompactArray) : CompactArray :=
  acts.foldl (fun a act => match act with
    | .derive tpl => a.expand tpl.1
    | .readTuple => a) a

/-- No body releases the buffer under the iterator. -/
def CompactUndisturbed (m : MatchObject) (buffer : ℕ) :
    ℕ → ℕ → CompactArray → List (Body fields) → Prop
  | 0, _, _, _ => True
  | n + 1, i, a, bodies =>
    if doMatches m (a.mem buffer i) then
      CompactQuiet buffer (n = 0 ∨ (nextBody bodies).finishes = true) (nextBody bodies).actions a ∧
        ((nextBody bodies).finishes = false → CompactUndisturbed m buffer n (i + 1)
          (compactDerive (nextBody bodies).actions a) bodies.tail)
    else CompactUndisturbed m buffer n (i + 1) a bodies

/-! ## Tries -/

section Trie

variable (nodeId : BitVec 64 → ℕ)

/-- `tuple_search_iterator`: on the chain of leaves (`use_list`), or with a continuation stack. -/
inductive Iterator where
  | list (next : Option TriePath)
  | search (next : Option TriePath) (cont : List Trie.Frame)

/-- The leaf the iterator stands at. -/
def Iterator.next : Iterator → Option TriePath
  | .list next => next
  | .search next _ => next

/-- The continuation frames that are left. -/
def Iterator.frames : Iterator → List Trie.Frame
  | .list _ => []
  | .search _ cont => cont

/-- `next->get_next()`. -/
def nextLeaf (T : Trie) (p : TriePath) : Option TriePath :=
  ((T.leaves.map TrieLeaf.node).dropWhile fun q => decide (q ≠ p)).tail.head?

/-- `increment`. -/
inductive Increment (T : Trie) : Iterator → Iterator → Prop where
  | list (p : TriePath) : Increment T (.list (some p)) (.list (nextLeaf T p))
  | last (p : TriePath) : Increment T (.search (some p) []) (.search none [])
  | search {p : TriePath} {frm : Trie.Frame} {cont cont' : List Trie.Frame} {next : Option TriePath}
      (hfind : Trie.FindNext nodeId T false frm cont next cont') :
      Increment T (.search (some p) (frm :: cont)) (.search next cont')

/-- `match_predicate`. -/
inductive MatchPredicate (T : Trie) (m : MatchObject) : Iterator → Prop where
  | free (hexact : m.anyExact = false) :
      MatchPredicate T m (.list (T.leaves.head?.map TrieLeaf.node))
  | empty (hexact : m.anyExact = true) (hrefs : T.numberOfReferences = 0) :
      MatchPredicate T m (.list none)
  | search {next : Option TriePath} {cont : List Trie.Frame} (hexact : m.anyExact = true)
      (hrefs : T.numberOfReferences ≠ 0)
      (hfind : Trie.FindNext nodeId T true (Trie.firstFrame T m) [] next cont) :
      MatchPredicate T m (.search next cont)

/-- The trie after one action of a body.  Leaves and their tuples stay where they are, so that the
tuple of the body can be read at any time. -/
def trieAction (T : Trie) : BodyAction fields → Trie
  | .derive tpl => (Trie.insertTuple nodeId T tpl.1).1
  | .readTuple => T

/-- The trie after the actions of a body. -/
def trieDerive (acts : List (BodyAction fields)) (T : Trie) : Trie :=
  acts.foldl (trieAction nodeId) T

/-- The loop over a trie: the leaves the body is run for, and whether it ended the iterate. -/
inductive TrieLoop : Trie → Iterator → List (Body fields) → List TriePath → Bool → Prop where
  | atEnd {T : Trie} {it : Iterator} {bodies : List (Body fields)} (hnext : it.next = none) :
      TrieLoop T it bodies [] false
  | finish {T : Trie} {it : Iterator} {bodies : List (Body fields)} {p : TriePath}
      (hnext : it.next = some p) (hfin : (nextBody bodies).finishes = true) :
      TrieLoop T it bodies [p] true
  | more {T : Trie} {it it' : Iterator} {bodies : List (Body fields)} {p : TriePath}
      {ps : List TriePath} {finished : Bool} (hnext : it.next = some p)
      (hfin : (nextBody bodies).finishes = false)
      (hinc : Increment nodeId (trieDerive nodeId (nextBody bodies).actions T) it it')
      (hrest : TrieLoop (trieDerive nodeId (nextBody bodies).actions T) it' bodies.tail
        ps finished) :
      TrieLoop T it bodies (p :: ps) finished

/-- The iterate comes to its end without reading through a wrong pointer, the body is run at most
once for every leaf that was there at the start and only if its tuple matches, and if no body ends
the iterate it is run for every one that matches. -/
def TrieIterateCorrect (T : Trie) (m : MatchObject) (bodies : List (Body fields)) : Prop :=
  ∃ it ps finished, MatchPredicate nodeId T m it ∧ TrieLoop nodeId T it bodies ps finished ∧
    ∀ l ∈ T.leaves, ps.count l.node ≤ 1 ∧
      (l.node ∈ ps → 0 < l.count ∧ doMatches m l.tpl = true) ∧
      (finished = false → 0 < l.count → doMatches m l.tpl = true → l.node ∈ ps)

/-- The children of a node are converted to a hash table, or put into a larger one, when `match` has
gone through so many of them. -/
def overfull (count : ℕ) : TrieChild → Bool
  | .leaf => false
  | .siblings _ => decide (count > Trie.hashListThreshold)
  | .hash _ _ => decide (count > Trie.hashListThreshold / 2)

/-- The node whose children are restructured when a tuple is inserted. -/
def restructured (T : Trie) (tpl : Tuple) : Option TriePath :=
  match Trie.descend nodeId T.child (Trie.stackSize tpl) [] tpl with
  | (_, []) => none
  | (p, v :: _) =>
    if overfull ((Trie.candidates nodeId (T.child p) v.data).length + 1) (T.child p) then some p
    else none

/-- No insertion of these actions restructures the children of a node at which a frame is left. -/
def TrieQuiet (frames : List Trie.Frame) : List (BodyAction fields) → Trie → Prop
  | [], _ => True
  | .derive tpl :: acts, T =>
    (∀ frm ∈ frames, restructured nodeId T tpl.1 ≠ some frm.parent) ∧
      TrieQuiet frames acts (Trie.insertTuple nodeId T tpl.1).1
  | .readTuple :: acts, T => TrieQuiet frames acts T

/-- No body restructures a level under the iterator. -/
def TrieUndisturbed : List (Body fields) → Trie → Iterator → Prop
  | [], _, _ => True
  | b :: bodies, T, it =>
    it.next ≠ none → b.finishes = false →
      TrieQuiet nodeId it.frames b.actions T ∧
        ∀ it', Increment nodeId (trieDerive nodeId b.actions T) it it' →
          TrieUndisturbed bodies (trieDerive nodeId b.actions T) it'

end Trie

end PersIter

end Meld
