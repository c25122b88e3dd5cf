import Meld.Db.Node
import Meld.Vm.ThreadMatcher

/-!
# Running a node

`run_node` moves the waiting facts of a node into its database, processes the persistent ones, and
runs the rules that its matcher has queued until none is left.  The matcher has a mark for every
predicate that is present.  For a linear predicate the mark is set wherever tuples come to the
linear store, and is to be cleared by the iterate that takes the last one out.  The tests of
`garbage_collect` rely on these marks.

What the code of a rule or of a predicate does to the node is a list of events, one for every place
of the interpreter that touches the linear store, the matcher or the generated facts.  An iterate
that takes a tuple out names its place: a position in the list of the predicate, or a bucket list of
its hash table and a position there.  A stored tuple stands for the fields it came with; an
instruction that writes its fields does not move it.

An iterate may also read a place where there is no tuple: an ordered iterate takes the slot of its
predicate for a list, also when it is a hash table, a list may become a hash table under an iterate,
and a bucket list may be freed.  Then nothing is known of what comes next, and the event says what.

* `NodeProgram`: the predicates and rules of a program, with its thread predicates.
* `NodeRun`: the node, the matcher of the thread node, and the generated facts of the interpreter.
* `NodeEvent`, `NodeRun.exec`: what the code of rules and predicates does.
* `NodeRun.moveAll`: the end of a rule.
* `NodeCall`, `NodeRun.runNode`: a call of `run_node`.
* `NodeReach`: the nodes that deliveries and runs lead to.
-/

namespace Meld

/-- A program with its thread predicates. -/
structure NodeProgram where
  work : WorkProgram
  isThread : PredicateId → Bool

namespace NodeProgram

/-- What the transfers of thread facts read of the program. -/
def threads (P : NodeProgram) : ThreadProgram := ⟨P.work.rules, P.isThread⟩

/-- The tuples of the predicate are kept in the linear stores of ordinary nodes: it is linear and no
thread predicate. -/
def Own (P : NodeProgram) (pred : WorkPredicate) : Prop :=
  pred ∈ P.work.linearPredicates ∧ P.isThread pred.id = false

end NodeProgram

/-- The place of a stored tuple, as an iterator holds it. -/
inductive Place where
  | list (pos : ℕ)
  | table (ls : Hash.Ptr) (pos : ℕ)
  deriving DecidableEq

/-- The removal of the tuple at a place. -/
def Place.erase (pred : WorkPredicate) : Place → LinearStore.Op
  | list pos => .eraseFromList pred.store pos
  | table ls pos => .eraseFromTable pred.store ls pos

/-- What a run works on. -/
structure NodeRun where
  /-- The node that runs; its matcher is `state.matcher`. -/
  node : DbNode
  /-- The matcher of the thread node. -/
  thread : RuleMatcher
  /-- The facts that wait for the end of a rule, for every linear predicate. -/
  generated : ℕ → List Tuple
  /-- `generated_facts`. -/
  generatedFacts : Bool

/-- What the code of a rule or of a predicate does, as far as the node is concerned.  Other threads
may leave facts for the node at any time. -/
inductive NodeEvent (P : NodeProgram) where
  /-- The matcher hears of a persistent or of a thread predicate. -/
  | matcher (o : RuleMatcher.Op P.work.rules) (h : ∀ pred, P.Own pred → o.predicate ≠ some pred.id)
  /-- The `UPDATE` instruction wakes the rules of its predicate. -/
  | wake (p : Fin P.work.rules.numPredicates)
  /-- The `MARK_RULE` instruction. -/
  | markRule (r : Fin P.work.rules.numRules)
  /-- A linear fact is derived for the node or for the own thread: `add_generated`. -/
  | derive (tpl : Tuple) (pred : WorkPredicate) (hpred : pred ∈ P.work.linearPredicates)
  /-- A reused fact was processed: `add_linear_fact`. -/
  | reuse (tpl : Tuple) (pred : WorkPredicate) (hpred : P.Own pred)
  /-- A reused fact of the thread node was processed. -/
  | reuseThread (p : Fin P.work.rules.numPredicates) (hp : P.isThread p = true)
  /-- A linear iterate reads the tuple at the place where it stands.  If there is none, the run goes
  on as `other`. -/
  | read (pred : WorkPredicate) (hpred : P.Own pred) (place : Place) (other : NodeRun)
  /-- A linear iterate consumes a tuple. -/
  | consume (pred : WorkPredicate) (hpred : P.Own pred) (place : Place)
  /-- A linear iterate over the register `reg` has updated a tuple, which has the fields `tpl`
  now. -/
  | update (pred : WorkPredicate) (hpred : P.Own pred) (reg : ℕ) (place : Place) (tpl : Tuple)
  /-- An ordered iterate consumes a tuple of the list of its predicate. -/
  | consumeOrdered (pred : WorkPredicate) (hpred : P.Own pred) (pos : ℕ)
  /-- Another thread leaves facts for the node. -/
  | receive (w : Work) (h : w.Valid P.work)

namespace NodeRun

variable (P : NodeProgram)

/-- The run with another matcher of its node. -/
def setMatcher (s : NodeRun) (m : RuleMatcher) : NodeRun :=
  { s with node := { s.node with matcher := m } }

/-- The run with another linear store of its node. -/
def setLinear (s : NodeRun) (linear : LinearStore) : NodeRun :=
  { s with node := { s.node with linear := linear } }

/-- `add_generated`. -/
def addGenerated (s : NodeRun) (tpl : Tuple) (pred : WorkPredicate) : NodeRun :=
  let ls := s.generated pred.store.linearId
  { s with
    generated := Function.update s.generated pred.store.linearId (ls ++ [tpl])
    generatedFacts := true }

/-- There is a tuple at the place. -/
def isThere (s : NodeRun) (pred : WorkPredicate) (place : Place) : Bool :=
  ((place.erase pred).pointed s.node.linear).isSome

/-- `erase` or `erase_from_list`: the tuple at the place leaves the store. -/
def erase (s : NodeRun) (pred : WorkPredicate) (place : Place) : Option NodeRun :=
  if s.isThere pred place then
    ((place.erase pred).run P.work.linear s.node.linear).map s.setLinear
  else none

/-- The test of a linear iterate that has consumed a tuple: is the list or the hash table empty? -/
def checkEmpty (s : NodeRun) (pred : WorkPredicate) : Option NodeRun :=
  (s.node.linear.empty pred.store.linearId).map fun empty =>
    if empty then s.setMatcher (s.node.matcher.emptyPredicate P.work.rules pred.id) else s

/-- One event.  A tuple that is not there cannot be taken out, but only be read. -/
def exec (s : NodeRun) : NodeEvent P → Option NodeRun
  | .matcher o _ => some (s.setMatcher (s.node.matcher.exec P.work.rules o))
  | .wake p => some (s.setMatcher (s.node.matcher.registerPredicateUpdate P.work.rules p))
  | .markRule r => some (s.setMatcher (s.node.matcher.updateStep P.work.rules r))
  | .derive tpl pred _ => some (s.addGenerated tpl pred)
  | .reuse tpl pred _ => (s.node.addLinearFact P.work tpl pred).map fun n => { s with node := n }
  | .reuseThread p _ => some { s with thread := s.thread.newLinearFact P.work.rules p }
  | .read pred _ place other => some (if s.isThere pred place then s else other)
  | .consume pred _ place => (s.erase P pred place).bind fun s => s.checkEmpty P pred
  | .update pred _ reg place tpl =>
    -- the tuple of the first iterate stays where it is
    if reg > 0 then (s.erase P pred place).map fun s => s.addGenerated tpl pred else some s
  | .consumeOrdered pred _ pos => s.erase P pred (.list pos)
  | .receive w _ => (Delivery.run P.work s.node (.others w)).map fun n => { s with node := n }

/-- A list of events. -/
def execAll (s : NodeRun) (events : List (NodeEvent P)) : Option NodeRun :=
  events.foldlM (exec P) s

/-- The start of a rule: it leaves the queue. -/
def startRule (s : NodeRun) : NodeRun :=
  { s.setMatcher s.node.matcher.dequeueRule with generatedFacts := false }

/-- The generated facts of one linear predicate move: to the store of the node, or, which is not
followed here, to that of the thread node. -/
def moveGenerated (s : NodeRun) (i : ℕ) : Option NodeRun :=
  if (s.generated i).isEmpty then some s
  else do
    let pred ← P.work.linearPredicates[i]?
    let s' := s.setMatcher (s.node.matcher.newLinearFact P.work.rules pred.id)
    if P.isThread pred.id then
      some { s' with generated := Function.update s.generated i [] }
    else do
      let linear ← s.node.linear.incrementDatabase pred.store (s.generated i)
      some { s'.setLinear linear with generated := Function.update s.generated i [] }

/-- The end of a rule: if it generated facts, all generated facts move. -/
def moveAll (s : NodeRun) : Option NodeRun :=
  if s.generatedFacts then
    (List.range P.work.linearPredicates.length).foldlM (moveGenerated P) s
  else some s

end NodeRun

/-- One round of the loop of `run_node`: what the rule does, and what the persistent facts do that
are processed after it. -/
structure NodeRound (P : NodeProgram) where
  rule : List (NodeEvent P)
  after : List (NodeEvent P)

/-- What a call of `run_node` meets: the matcher of the thread node, which knows thread predicates
only, the facts left in `generated`, what the persistent facts do that come in, and the rounds of
the loop.  The loop ends early when the node has a new owner. -/
structure NodeCall (P : NodeProgram) where
  thread : RuleMatcher
  threadSize : P.work.rules.numPredicates ≤ thread.predicateExistence.capacity
  threadOnly : ∀ p, thread.predicateExistence.getBit p = true → P.isThread p = true
  generated : ℕ → List Tuple
  generatedFacts : Bool
  before : List (NodeEvent P)
  rounds : List (NodeRound P)
  hasNewOwner : Bool

namespace NodeRun

variable (P : NodeProgram)

/-- One round of the loop; the loop ends when no rule is queued. -/
def round (s : NodeRun) (r : NodeRound P) : Option NodeRun :=
  if s.node.matcher.ruleQueue.empty then some s
  else do
    let s ← s.startRule.execAll P r.rule
    let s ← s.moveAll P
    s.execAll P r.after

/-- `add_thread`. -/
def addThread (s : NodeRun) : NodeRun :=
  s.setMatcher (s.node.matcher.addThread P.threads s.thread)

/-- `remove_thread`. -/
def removeThread (s : NodeRun) : NodeRun :=
  let m := s.node.matcher.removeThread P.threads s.thread
  { s.setMatcher m.1 with thread := m.2 }

/-- The waiting facts go to the database, and the flag is cleared. -/
def takeIncoming (s : NodeRun) : Option NodeRun := do
  let n ← s.node.processIncomingTuples P.work
  some
    { s with
      node :=
        { n with
          store := { n.store with incomingPersistentTuples := [], incomingActionTuples := [] }
          unprocessedFacts := false } }

/-- The end of `run_node`: `manage_index`, after the flag is set again if the loop was left for a
new owner. -/
def finish (s : NodeRun) (hasNewOwner : Bool) : Option DbNode := do
  let linear ← s.node.linear.cleanupIndex P.work.linear
  some
    { s.node with
      linear := linear
      unprocessedFacts := s.node.unprocessedFacts || hasNewOwner }

/-- The part of `run_node` between the two transfers. -/
def loop (s : NodeRun) (rs : List (NodeRound P)) : Option NodeRun := rs.foldlM (round P) s

end NodeRun

/-- **`run_node`**. -/
def DbNode.runNode (P : NodeProgram) (n : DbNode) (c : NodeCall P) : Option DbNode := do
  let s ← NodeRun.takeIncoming P ⟨n, c.thread, c.generated, c.generatedFacts⟩
  let s ← s.execAll P c.before
  let s ← (s.addThread P).loop P c.rounds
  (s.removeThread P).finish P c.hasNewOwner

/-- `node::garbage_collect`, for a node with `refs` references to it. -/
def DbNode.garbageCollect (n : DbNode) (refs : ℕ) : Bool :=
  refs == 0 && n.matcher.predicateExistence.empty && !n.unprocessedFacts

/-- The nodes that deliveries and runs lead to, where the runs meet a condition. -/
inductive NodeReach (P : NodeProgram) (allowed : DbNode → NodeCall P → Prop) : DbNode → Prop where
  | create : NodeReach P allowed (.create P.work)
  | deliver {n n' : DbNode} {d : Delivery} (h : NodeReach P allowed n) (hd : d.Valid P.work)
      (hrun : d.run P.work n = some n') : NodeReach P allowed n'
  | run {n n' : DbNode} {c : NodeCall P} (h : NodeReach P allowed n) (hc : allowed n c)
      (hrun : n.runNode P c = some n') : NodeReach P allowed n'

end Meld
