import Mathlib.Logic.Function.Basic
import Meld.Vm.RuleMatcher

/-!
# Thread facts and the matcher of the running node

Facts of a thread predicate belong to a thread, not to a node: they live in the store of the thread
node.  Rules that mention them run on ordinary nodes, so for the time of a run the matcher of the
node has to know them.  `run_node` marks them there (`add_thread`), keeps them up to date in that
matcher, and at the end unmarks them and saves the marks in the matcher of the thread node
(`remove_thread`).  The thread node is also run by itself, with its own matcher.

* `ThreadProgram`: a program with its thread predicates, `threadPredicatesMap` the bitmap of them.
* `RuleMatcher.addThread`, `RuleMatcher.removeThread`: the two transfers.
* `ThreadRun`: what a run works on, the two matchers, the stored thread facts and the generated ones
  that wait for the end of a rule.  A persistent fact counts like a linear one.
* `Event`, `ThreadRun.exec`: what the code of rules and predicates does to them.
* `ThreadRun.runNode`: the loop of `run_node`.
* `System`, `System.run`: nodes and threads, and a run of a node or of a thread node.

What a rule does is an arbitrary list of events: the bytecode is not looked at here.
-/

namespace Meld

/-- A program with its thread predicates. -/
structure ThreadProgram extends Program where
  isThread : PredicateId → Bool

namespace ThreadProgram

/-- `thread_predicates_map`, as the loader fills it. -/
def threadPredicatesMap (P : ThreadProgram) : Bitmap :=
  (List.range P.numPredicates).foldl (fun b p => if P.isThread p then b.setBit p else b)
    (Bitmap.create (Program.nextUint P.numPredicates))

end ThreadProgram

namespace RuleMatcher

/-- `add_thread`: a new fact for every predicate marked in the thread matcher. -/
def addThread (P : ThreadProgram) (m thread : RuleMatcher) : RuleMatcher :=
  (List.range P.numPredicates).foldl
    (fun m p => if thread.predicateExistence.getBit p then m.newLinearFact P.toProgram p else m) m

/-- The first half of `remove_thread`: the thread matcher gets the marks of the thread predicates.
Its counters and its queue stay. -/
def saveThread (P : ThreadProgram) (m thread : RuleMatcher) : RuleMatcher :=
  ⟨thread.rules,
    P.threadPredicatesMap.setBitsOfAndResult m.predicateExistence
      (Program.nextUint P.numPredicates),
    thread.ruleQueue, thread.wrapped⟩

/-- The second half of `remove_thread`: every thread predicate that is marked becomes
unavailable. -/
def dropThread (P : ThreadProgram) (m : RuleMatcher) : RuleMatcher :=
  (List.range P.numPredicates).foldl
    (fun m p => if P.threadPredicatesMap.getBit p then
        (if m.predicateExistence.getBit p then
          m.registerPredicateUnavailability P.toProgram p else m)
      else m) m

/-- `remove_thread`: the matcher of the node, and that of the thread node. -/
def removeThread (P : ThreadProgram) (m thread : RuleMatcher) : RuleMatcher × RuleMatcher :=
  (m.dropThread P, m.saveThread P thread)

/-- The predicate an operation is about. -/
def Op.predicate {P : Program} : Op P → Option PredicateId
  | .newLinearFact id => some id
  | .newPersistentFact id => some id
  | .newPersistentCount id _ => some id
  | .emptyPredicate id => some id
  | .dequeueRule => none

end RuleMatcher

/-- What the code of a rule or of a predicate does, as far as matchers and thread facts go. -/
inductive Event (P : ThreadProgram) where
  /-- An operation on a predicate of the node itself. -/
  | own (o : RuleMatcher.Op P.toProgram) (h : ∀ p, o.predicate = some p → P.isThread p = false)
  /-- A fact of the node itself goes to the generated facts. -/
  | enqueueOwn
  /-- The `UPDATE` instruction wakes the rules of its predicate. -/
  | wake (p : Fin P.numPredicates)
  /-- The `MARK_RULE` instruction. -/
  | markRule (r : Fin P.numRules)
  /-- New thread facts are stored and announced: incoming ones, or a persistent one. -/
  | gain (p : Fin P.numPredicates) (hp : P.isThread p = true) (k : ℕ)
  /-- A thread fact goes to the generated facts: derived, or sent to the own thread. -/
  | enqueue (p : Fin P.numPredicates) (hp : P.isThread p = true)
  /-- A linear iterate consumes a thread fact. -/
  | take (p : Fin P.numPredicates) (hp : P.isThread p = true)
  /-- A linear iterate has updated a thread fact, which goes to the generated facts. -/
  | update (p : Fin P.numPredicates) (hp : P.isThread p = true)
  /-- An ordered iterate consumes a thread fact. -/
  | takeOrdered (p : Fin P.numPredicates) (hp : P.isThread p = true)
  /-- A persistent thread fact was retracted: `left` facts are still there, and `trie_size()`
  returned `size`. -/
  | retract (p : Fin P.numPredicates) (hp : P.isThread p = true) (size left : ℕ)
  /-- A reused thread fact was processed: `add_linear_fact` of the thread node. -/
  | reuse (p : Fin P.numPredicates) (hp : P.isThread p = true)

/-- What a run works on. -/
structure ThreadRun where
  /-- `state.matcher`, the matcher of the node that runs. -/
  matcher : RuleMatcher
  /-- The matcher of the thread node, when another node runs. -/
  thread : RuleMatcher
  /-- The number of facts of every thread predicate in the store of the thread node. -/
  store : PredicateId → ℕ
  /-- The number of thread facts in `generated`. -/
  generated : PredicateId → ℕ
  /-- `generated_facts`. -/
  generatedFacts : Bool

namespace ThreadRun

variable (P : ThreadProgram)

/-- New facts in the store, announced to the matcher of the run. -/
def gain (s : ThreadRun) (p k : ℕ) : ThreadRun :=
  { s with
    matcher := s.matcher.newLinearFact P.toProgram p
    store := Function.update s.store p (s.store p + k) }

/-- A fact leaves the store; when it was the last one, the predicate is emptied. -/
def take (s : ThreadRun) (p : ℕ) : ThreadRun :=
  if s.store p = 0 then s
  else if s.store p = 1 then
    { s with
      matcher := s.matcher.emptyPredicate P.toProgram p
      store := Function.update s.store p 0 }
  else { s with store := Function.update s.store p (s.store p - 1) }

/-- A fact leaves the store unseen by the matcher. -/
def drop (s : ThreadRun) (p : ℕ) : ThreadRun :=
  { s with store := Function.update s.store p (s.store p - 1) }

/-- `add_generated` of a thread fact. -/
def addGenerated (s : ThreadRun) (p : ℕ) : ThreadRun :=
  { s with
    generated := Function.update s.generated p (s.generated p + 1)
    generatedFacts := true }

/-- `add_linear_fact` of the thread node: its own matcher learns of the fact. -/
def addToThreadNode (onThread : Bool) (s : ThreadRun) (p : ℕ) : ThreadRun :=
  if onThread then s.gain P p 1
  else
    { s with
      thread := s.thread.newLinearFact P.toProgram p
      store := Function.update s.store p (s.store p + 1) }

/-- One event, `onThread` when the node that runs is the thread node itself.  It has no facts but
thread facts. -/
def exec (onThread : Bool) (s : ThreadRun) : Event P → ThreadRun
  | .own o _ => if onThread then s else { s with matcher := s.matcher.exec P.toProgram o }
  | .enqueueOwn => { s with generatedFacts := true }
  | .wake p => { s with matcher := s.matcher.registerPredicateUpdate P.toProgram p }
  | .markRule r => { s with matcher := s.matcher.updateStep P.toProgram r }
  | .gain p _ k => s.gain P p (k + 1)
  | .enqueue p _ => s.addGenerated p
  | .take p _ => s.take P p
  | .update p _ => if s.store p = 0 then s else (s.drop p).addGenerated p
  | .takeOrdered p _ => if s.store p = 0 then s else s.drop p
  | .retract p _ size left =>
    { s with
      matcher := s.matcher.newPersistentCount P.toProgram p size
      store := Function.update s.store p left }
  | .reuse p _ => s.addToThreadNode P onThread p

/-- The generated facts of one thread predicate move to the store. -/
def moveGenerated (s : ThreadRun) (p : ℕ) : ThreadRun :=
  if P.isThread p && decide (s.generated p ≠ 0) then
    { s.gain P p (s.generated p) with generated := Function.update s.generated p 0 }
  else s

/-- The end of a rule: if it generated facts, all generated facts move. -/
def moveAll (s : ThreadRun) : ThreadRun :=
  if s.generatedFacts then (List.range P.numPredicates).foldl (moveGenerated P) s else s

/-- The start of a rule: it leaves the queue. -/
def startRule (s : ThreadRun) : ThreadRun :=
  { s with matcher := s.matcher.dequeueRule, generatedFacts := false }

end ThreadRun

/-- One round of the loop of `run_node`: what the rule does, and what happens after its generated
thread facts have moved (the generated facts of the node itself move, the persistent facts are
processed). -/
structure Round (P : ThreadProgram) where
  rule : List (Event P)
  after : List (Event P)

namespace ThreadRun

variable (P : ThreadProgram)

/-- A list of events. -/
def execAll (onThread : Bool) (s : ThreadRun) (events : List (Event P)) : ThreadRun :=
  events.foldl (exec P onThread) s

/-- One round of the loop; the loop ends when no rule is queued. -/
def round (onThread : Bool) (s : ThreadRun) (r : Round P) : ThreadRun :=
  if s.matcher.ruleQueue.empty then s
  else execAll P onThread (((s.startRule).execAll P onThread r.rule).moveAll P) r.after

/-- The loop. -/
def rounds (onThread : Bool) (s : ThreadRun) (rs : List (Round P)) : ThreadRun :=
  rs.foldl (round P onThread) s

/-- `add_thread` on the matchers of a run. -/
def addThread (s : ThreadRun) : ThreadRun :=
  { s with matcher := s.matcher.addThread P s.thread }

/-- `remove_thread` on the matchers of a run. -/
def removeThread (s : ThreadRun) : ThreadRun :=
  { s with
    matcher := (s.matcher.removeThread P s.thread).1
    thread := (s.matcher.removeThread P s.thread).2 }

/-- `run_node` on an ordinary node. -/
def runNode (s : ThreadRun) (before : List (Event P)) (rs : List (Round P)) : ThreadRun :=
  (((s.execAll P false before).addThread P).rounds P false rs).removeThread P

/-- `run_node` on the thread node. -/
def runThreadNode (s : ThreadRun) (before : List (Event P)) (rs : List (Round P)) : ThreadRun :=
  (s.execAll P true before).rounds P true rs

end ThreadRun

/-- A thread: the matcher and the store of its thread node, and the generated thread facts of its
interpreter. -/
structure ThreadNode where
  matcher : RuleMatcher
  store : PredicateId → ℕ
  generated : PredicateId → ℕ

namespace ThreadNode

/-- `setup_thread_node`: a fresh node with a fact for every predicate of the list. -/
def setup (P : ThreadProgram) (facts : List (Fin P.numPredicates)) : ThreadNode where
  matcher := facts.foldl (fun m p => m.newLinearFact P.toProgram p.val) (.create P.toProgram)
  store := fun p => facts.countP fun q => decide (q.val = p)
  generated := fun _ => 0

/-- The thread node as a run of the node with the matcher `m` finds it. -/
def begin (T : ThreadNode) (m : RuleMatcher) : ThreadRun :=
  ⟨m, T.matcher, T.store, T.generated, false⟩

end ThreadNode

/-- The nodes and the threads. -/
structure System where
  nodes : ℕ → RuleMatcher
  threads : ℕ → ThreadNode

namespace System

variable (P : ThreadProgram)

/-- Fresh nodes, and thread nodes as `setup_thread_node` leaves them. -/
def create (facts : ℕ → List (Fin P.numPredicates)) : System where
  nodes := fun _ => .create P.toProgram
  threads := fun t => .setup P (facts t)

/-- A run of the ordinary node `n` by the thread `t`. -/
def runNode (s : System) (t n : ℕ) (before : List (Event P)) (rs : List (Round P)) : System :=
  let e := ((s.threads t).begin (s.nodes n)).runNode P before rs
  { nodes := Function.update s.nodes n e.matcher
    threads := Function.update s.threads t ⟨e.thread, e.store, e.generated⟩ }

/-- A run of the thread node of the thread `t`. -/
def runThreadNode (s : System) (t : ℕ) (before : List (Event P)) (rs : List (Round P)) :
    System :=
  let e := ((s.threads t).begin (s.threads t).matcher).runThreadNode P before rs
  { s with threads := Function.update s.threads t ⟨e.matcher, e.store, e.generated⟩ }

/-- A fact reaches a node that is not running: `add_work_myself`. -/
def deliver (s : System) (n : ℕ) (p : Fin P.numPredicates) : System :=
  { s with nodes := Function.update s.nodes n ((s.nodes n).newLinearFact P.toProgram p) }

end System

end Meld
