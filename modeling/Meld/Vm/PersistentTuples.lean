import Meld.Db.Aggregate
import Meld.Vm.RuleMatcher

/-!
# Draining the queue of persistent tuples

Derived and retracted persistent tuples wait in a queue.  `do_persistent_tuples` takes them out one
by one: a derived tuple that is retracted further back in the queue is dropped together with its
retraction, tuples of aggregate predicates go to their aggregate, whose announcements are put at the
end of the same queue, and everything else goes to the trie of its predicate, with the rule matcher
told about it.

The model is of predicates without code, on one node.

* `NodeState`: the tries, the aggregates, the matcher, and the direction and depth the interpreter
  currently derives with.
* `processPersistentTuple`, `addToAggregate`, `searchForNegativeTuple`: the parts of the loop.
* `drain`, `doPersistentTuples`: the loop.
* `addNodePersistent`: the path of `execute_add_node_persistent0` that leaves the queue out.
-/

namespace Meld

/-- `vm::predicate`, of a persistent predicate without code: the types of its fields, whether it is
a cycle predicate, and the kind and field of its aggregate. -/
structure Predicate where
  fields : List FieldType
  isCycle : Bool
  aggregate : Option (AggregateType × ℕ)
  /-- The aggregated field is an integer. -/
  int_field : ∀ typ field, aggregate = some (typ, field) → fields[field]? = some .int

/-- A predicate that is not aggregated. -/
def Predicate.plain (fields : List FieldType) (isCycle : Bool) : Predicate :=
  ⟨fields, isCycle, none, by simp⟩

/-- The part of `vm::state` and of its node that persistent tuples are handled with. -/
structure NodeState where
  tries : PredicateId → TupleTrie
  aggs : PredicateId → TupleAggregate
  matcher : RuleMatcher
  direction : Direction
  depth : ℕ

namespace NodeState

variable (P : Program) (preds : PredicateId → Predicate) (nodeId : BitVec 64 → ℕ)

/-- A node without facts. -/
def create : NodeState :=
  ⟨fun _ => .empty, fun _ => .create, .create P, .positive, 0⟩

/-- `setup`, with a null predicate as `none`.  `depth_t` has 32 bits. -/
def setup (s : NodeState) (pred : Option Predicate) (dir : Direction) (dpt : ℕ) : NodeState :=
  { s with
    direction := dir
    depth :=
      match pred with
      | some pred => if pred.isCycle then (dpt + 1) % 2 ^ 32 else 0
      | none => 0 }

/-- `search_for_negative_tuple`: the queue without the first retraction of the tuple. -/
def searchForNegativeTuple (stpl : FullTuple) : List FullTuple → Option (List FullTuple)
  | [] => none
  | stpl2 :: ls =>
    if stpl.pred = stpl2.pred ∧ stpl2.isAggregate = stpl.isAggregate ∧ stpl2.dir = .negative ∧
        stpl2.data = stpl.data then some ls
    else (searchForNegativeTuple stpl ls).map (stpl2 :: ·)

/-- `process_persistent_tuple` with `POSITIVE_DERIVATION`: the depth of the new derivation is the
current one of the interpreter. -/
def processPositive (s : NodeState) (stpl : FullTuple) : NodeState :=
  let pred := preds stpl.pred
  let (T, isNew) := (s.tries stpl.pred).insertTuple nodeId pred.isCycle stpl.data s.depth
  let s := { s with tries := Function.update s.tries stpl.pred T }
  let s := if isNew then s.setup (some pred) .positive stpl.depth else s
  { s with matcher := s.matcher.newPersistentFact P stpl.pred }

/-- `process_persistent_tuple` with `NEGATIVE_DERIVATION`. -/
def processNegative (s : NodeState) (stpl : FullTuple) : Option NodeState :=
  let pred := preds stpl.pred
  ((s.tries stpl.pred).remove nodeId pred.isCycle stpl.data stpl.depth).map fun (T, _, deleted) =>
    let s := if deleted then s.setup (some pred) .negative stpl.depth else s
    { s with
      tries := Function.update s.tries stpl.pred T
      matcher := s.matcher.newPersistentCount P stpl.pred T.size }

/-- `process_persistent_tuple`. -/
def processPersistentTuple (s : NodeState) (stpl : FullTuple) : Option NodeState :=
  match stpl.dir with
  | .positive => some (s.processPositive P preds nodeId stpl)
  | .negative => s.processNegative P preds nodeId stpl

/-- `add_to_aggregate`: the contribution, and what is spliced to the end of the queue. -/
def addToAggregate (s : NodeState) (stpl : FullTuple) (typ : AggregateType) (field : ℕ) :
    Option (NodeState × List FullTuple) :=
  ((s.aggs stpl.pred).addToSet nodeId (preds stpl.pred).isCycle field stpl.data stpl.dir
    stpl.depth).map fun (A, p) =>
      let (c, list) := (A.conf p).generate stpl.pred typ field
      let A := { A with confs := Function.update A.confs p (some c) }
      ({ s with aggs := Function.update s.aggs stpl.pred A },
        list.map fun x => { x with isAggregate := true })

/-- One round of the loop of `do_persistent_tuples`, on the tuple taken from the front. -/
def step (s : NodeState) (stpl : FullTuple) (ls : List FullTuple) :
    Option (NodeState × List FullTuple) :=
  match if stpl.dir = .positive then searchForNegativeTuple stpl ls else none with
  | some rest => some (s, rest)
  | none =>
    -- `tuple_for_assertion` is false for a contribution to an aggregate
    match (preds stpl.pred).aggregate, stpl.isAggregate with
    | some (typ, field), false =>
      (s.addToAggregate preds nodeId stpl typ field).map fun r => (r.1, ls ++ r.2)
    | _, _ => (s.processPersistentTuple P preds nodeId stpl).map fun s => (s, ls)

/-- The loop of `do_persistent_tuples`. -/
def drain : ℕ → NodeState → List FullTuple → Option NodeState
  | _, s, [] => some s
  | 0, _, _ :: _ => none
  | fuel + 1, s, stpl :: ls =>
    match s.step P preds nodeId stpl ls with
    | none => none
    | some (s', ls') => drain fuel s' ls'

/-- `do_persistent_tuples`.  A contribution to an aggregate is announced by two tuples at most, so
that every tuple of the queue causes three rounds at most. -/
def doPersistentTuples (s : NodeState) (ls : List FullTuple) : Option NodeState :=
  s.drain P preds nodeId (3 * ls.length) ls

/-- `execute_add_node_persistent0` in `POSITIVE_DERIVATION`, of a predicate that is no aggregate:
the tuple goes straight to its trie. -/
def addNodePersistent (s : NodeState) (pred : PredicateId) (tpl : Tuple) : NodeState :=
  { s with
    tries := Function.update s.tries pred
      ((s.tries pred).insertTuple nodeId (preds pred).isCycle tpl s.depth).1
    matcher := s.matcher.newPersistentFact P pred }

end NodeState

end Meld
