import Meld.Db.LinearStore
import Meld.Vm.MatcherNotify

/-!
# Facts on their way into a node

A thread that sends facts to a node has two ways.  If it holds the database lock of the node it puts
them into the database itself (`add_work_myself`): it tells the matcher and adds them to the linear
store.  Otherwise it leaves them in the temporary store of the node (`add_work_others`), and the
thread that runs the node moves them over later (`process_incoming_tuples`).  Facts come one by one
or as a `buffer_node`, a list of tuples for every predicate.  Action and persistent facts are only
queued, on both ways.

* `WorkProgram`, `WorkPredicate`: what the delivery reads of the program.
* `DbNode`: the linear store, the temporary store and the matcher of a node.
* `addWorkMyself`, `addWorkOthers` with their variants for a `buffer_node`, and
  `processIncomingTuples`.
* `Delivery`, `deliver`: a sequence of deliveries on any of the ways.
-/

namespace Meld

/-- `vm::predicate`, as far as the delivery of facts reads it: its number, its flags, and its number
and index among the linear predicates. -/
structure WorkPredicate where
  id : PredicateId
  isLinear : Bool
  isAction : Bool
  isReused : Bool
  store : LinearPredicate
  deriving DecidableEq

/-- The fact goes to the queue of persistent tuples: `is_persistent_pred() || is_reused_pred()`. -/
def WorkPredicate.isQueued (pred : WorkPredicate) : Bool := !pred.isLinear || pred.isReused

/-- The predicates of a program, each at its number, with the bodies of the rules.  The loader
numbers the linear predicates in the order in which they come. -/
structure WorkProgram where
  rules : Program
  predicates : List WorkPredicate
  numPredicates_eq : rules.numPredicates = predicates.length
  id_eq : ∀ (i : ℕ) (p : WorkPredicate), predicates[i]? = some p → p.id = i
  linearId_eq : ∀ (i : ℕ) (p : WorkPredicate),
    (predicates.filter (·.isLinear))[i]? = some p → p.store.linearId = i

namespace WorkProgram

/-- `linear_predicates`. -/
def linearPredicates (P : WorkProgram) : List WorkPredicate := P.predicates.filter (·.isLinear)

/-- What the linear store reads of the program. -/
def linear (P : WorkProgram) : LinearProgram where
  preds := P.linearPredicates.map (·.store)
  linearId_eq := by
    intro i p hp
    rw [List.getElem?_map, Option.map_eq_some_iff] at hp
    obtain ⟨q, hq, rfl⟩ := hp
    exact P.linearId_eq i q hq

end WorkProgram

/-- `temporary_store`. -/
structure TemporaryStore where
  incoming : ℕ → List Tuple
  incomingPersistentTuples : List FullTuple
  incomingActionTuples : List FullTuple

/-- `db::node`: the databases that facts are delivered to. -/
structure DbNode where
  linear : LinearStore
  store : TemporaryStore
  matcher : RuleMatcher
  unprocessedFacts : Bool

/-- `buffer_item`. -/
structure BufferItem where
  pred : WorkPredicate
  ls : List Tuple
  deriving DecidableEq

/-- `buffer_node`. -/
abbrev BufferNode := List BufferItem

namespace TemporaryStore

/-- `add_incoming`. -/
def addIncoming (s : TemporaryStore) (tpl : Tuple) (pred : WorkPredicate) : TemporaryStore :=
  let ls := s.incoming pred.store.linearId
  { s with incoming := Function.update s.incoming pred.store.linearId (ls ++ [tpl]) }

/-- `add_incoming_list`. -/
def addIncomingList (s : TemporaryStore) (other : List Tuple) (pred : WorkPredicate) :
    TemporaryStore :=
  let ls := s.incoming pred.store.linearId
  { s with incoming := Function.update s.incoming pred.store.linearId (ls ++ other) }

@[simp] theorem incoming_addIncomingList (s : TemporaryStore) (other : List Tuple)
    (pred : WorkPredicate) :
    (s.addIncomingList other pred).incoming = Function.update s.incoming pred.store.linearId
      (s.incoming pred.store.linearId ++ other) := rfl

/-- `incoming_persistent_tuples.push_back`, once for every tuple. -/
def pushPersistent (s : TemporaryStore) (ls : List FullTuple) : TemporaryStore :=
  { s with incomingPersistentTuples := s.incomingPersistentTuples ++ ls }

/-- `incoming_action_tuples.push_back`, once for every tuple. -/
def pushAction (s : TemporaryStore) (ls : List FullTuple) : TemporaryStore :=
  { s with incomingActionTuples := s.incomingActionTuples ++ ls }

end TemporaryStore

/-- `new vm::full_tuple(tpl, pred, dir, depth)`. -/
def newFullTuple (tpl : Tuple) (pred : WorkPredicate) (dir : Direction) (depth : ℕ) : FullTuple :=
  ⟨tpl, pred.id, dir, depth, false⟩

/-- The full tuples of a `buffer_item`. -/
def BufferItem.fullTuples (i : BufferItem) : List FullTuple :=
  i.ls.map fun tpl => newFullTuple tpl i.pred .positive 0

namespace DbNode

variable (P : WorkProgram)

/-- A new node. -/
def create : DbNode where
  linear := .create P.linear
  store := ⟨fun _ => [], [], []⟩
  matcher := .create P.rules
  unprocessedFacts := false

/-- `add_linear_fact`. -/
def addLinearFact (n : DbNode) (tpl : Tuple) (pred : WorkPredicate) : Option DbNode := do
  let linear ← n.linear.addFact tpl pred.store
  some { n with linear := linear, matcher := n.matcher.newLinearFact P.rules pred.id }

/-- `add_persistent_fact`. -/
def addPersistentFact (n : DbNode) (tpl : Tuple) (pred : WorkPredicate) (dir : Direction)
    (depth : ℕ) : DbNode :=
  { n with store := n.store.pushPersistent [newFullTuple tpl pred dir depth] }

/-- `inner_add_work_myself`. -/
def innerAddWorkMyself (n : DbNode) (tpl : Tuple) (pred : WorkPredicate) (dir : Direction)
    (depth : ℕ) : Option DbNode :=
  if pred.isAction then
    some { n with store := n.store.pushAction [newFullTuple tpl pred dir depth] }
  else if pred.isQueued then some (n.addPersistentFact tpl pred dir depth)
  else n.addLinearFact P tpl pred

/-- `add_work_myself`, of one tuple. -/
def addWorkMyself (n : DbNode) (tpl : Tuple) (pred : WorkPredicate) (dir : Direction)
    (depth : ℕ) : Option DbNode :=
  innerAddWorkMyself P { n with unprocessedFacts := true } tpl pred dir depth

/-- One round of the loop of `add_work_myself` over a `buffer_node`.  An action predicate fails the
assertion. -/
def addItemMyself (n : DbNode) (i : BufferItem) : Option DbNode :=
  if i.pred.isAction then none
  else if i.pred.isQueued then some { n with store := n.store.pushPersistent i.fullTuples }
  else do
    let linear ← n.linear.addFactList i.ls i.pred.store
    some { n with linear := linear, matcher := n.matcher.newLinearFact P.rules i.pred.id }

/-- `add_work_myself`, of a `buffer_node`. -/
def addBufferMyself (n : DbNode) (b : BufferNode) : Option DbNode :=
  b.foldlM (addItemMyself P) { n with unprocessedFacts := true }

/-- `inner_add_work_others`. -/
def innerAddWorkOthers (n : DbNode) (tpl : Tuple) (pred : WorkPredicate) (dir : Direction)
    (depth : ℕ) : DbNode :=
  if pred.isAction then
    { n with store := n.store.pushAction [newFullTuple tpl pred dir depth] }
  else if pred.isQueued then
    { n with store := n.store.pushPersistent [newFullTuple tpl pred dir depth] }
  else { n with store := n.store.addIncoming tpl pred }

/-- `add_work_others`, of one tuple. -/
def addWorkOthers (n : DbNode) (tpl : Tuple) (pred : WorkPredicate) (dir : Direction)
    (depth : ℕ) : DbNode :=
  innerAddWorkOthers { n with unprocessedFacts := true } tpl pred dir depth

/-- One round of the loop of `add_work_others` over a `buffer_node`. -/
def addItemOthers (n : DbNode) (i : BufferItem) : DbNode :=
  if i.pred.isAction then { n with store := n.store.pushAction i.fullTuples }
  else if i.pred.isQueued then { n with store := n.store.pushPersistent i.fullTuples }
  else { n with store := n.store.addIncomingList i.ls i.pred }

/-- `add_work_others`, of a `buffer_node`. -/
def addBufferOthers (n : DbNode) (b : BufferNode) : DbNode :=
  b.foldl addItemOthers { n with unprocessedFacts := true }

/-- One round of the loop of `process_incoming_tuples`. -/
def processIncoming (n : DbNode) (i : ℕ) : Option DbNode :=
  if (n.store.incoming i).isEmpty then some n
  else do
    let pred ← P.linearPredicates[i]?
    let linear ← n.linear.incrementDatabase pred.store (n.store.incoming i)
    some
      { n with
        linear := linear
        matcher := n.matcher.newLinearFact P.rules pred.id
        store := { n.store with incoming := Function.update n.store.incoming i [] } }

/-- `process_incoming_tuples`. -/
def processIncomingTuples (n : DbNode) : Option DbNode :=
  (List.range P.linearPredicates.length).foldlM (processIncoming P) n

end DbNode

/-! ## Deliveries -/

/-- What a sender hands over: a tuple, or a `buffer_node`. -/
inductive Work where
  | tuple (tpl : Tuple) (pred : WorkPredicate) (dir : Direction) (depth : ℕ)
  | buffer (b : BufferNode)
  deriving DecidableEq

/-- A fact: a tuple with its predicate, direction and depth. -/
structure WorkFact where
  tpl : Tuple
  pred : WorkPredicate
  dir : Direction
  depth : ℕ
  deriving DecidableEq

/-- The facts of a `buffer_item`. -/
def BufferItem.facts (i : BufferItem) : List WorkFact :=
  i.ls.map fun tpl => ⟨tpl, i.pred, .positive, 0⟩

namespace Work

/-- The facts that are handed over. -/
def facts : Work → List WorkFact
  | tuple tpl pred dir depth => [⟨tpl, pred, dir, depth⟩]
  | buffer b => b.flatMap BufferItem.facts

/-- What the senders guarantee: the predicates are those of the program, and a `buffer_node` has no
action predicates and no empty lists. -/
def Valid (P : WorkProgram) : Work → Prop
  | tuple _ pred _ _ => pred ∈ P.predicates
  | buffer b => ∀ i ∈ b, i.pred ∈ P.predicates ∧ i.pred.isAction = false ∧ i.ls ≠ []

end Work

/-- The ways into the database: the thread adds the facts itself, it leaves them to others, or the
facts that were left are moved over. -/
inductive Delivery where
  | myself (w : Work)
  | others (w : Work)
  | process

namespace Delivery

/-- The facts that the delivery brings. -/
def facts : Delivery → List WorkFact
  | myself w => w.facts
  | others w => w.facts
  | process => []

/-- The sender keeps its guarantees. -/
def Valid (P : WorkProgram) : Delivery → Prop
  | myself w => w.Valid P
  | others w => w.Valid P
  | process => True

/-- What the delivery does to the node. -/
def run (P : WorkProgram) (n : DbNode) : Delivery → Option DbNode
  | myself (.tuple tpl pred dir depth) => n.addWorkMyself P tpl pred dir depth
  | myself (.buffer b) => n.addBufferMyself P b
  | others (.tuple tpl pred dir depth) => some (n.addWorkOthers tpl pred dir depth)
  | others (.buffer b) => some (n.addBufferOthers b)
  | process => n.processIncomingTuples P

end Delivery

/-- A sequence of deliveries. -/
def DbNode.deliver (P : WorkProgram) (n : DbNode) (ds : List Delivery) : Option DbNode :=
  ds.foldlM (Delivery.run P) n

end Meld
