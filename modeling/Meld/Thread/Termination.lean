import Mathlib.Data.Fin.Basic
import Mathlib.Data.List.FinRange
import Mathlib.Logic.Function.Basic

/-!
# The scheduler loop and its termination barrier

Every thread takes nodes out of its queues and runs them.  A thread that is left without work wakes
the threads it has sent nodes to, tries to steal, and goes inactive; a counter of active threads
says when all have.  Each access to shared memory is a step of its own: a compare-and-swap on the
state of a thread, an update of the counter, a look at one queue.  A failed compare-and-swap changes
nothing and is tried again, so that each of the three functions on `tstate` is one step that reads
and writes, followed by the step on the counter if there is one.

A node is not more than a unit in a queue here.  What a running node does to the scheduler (new work
for this or another thread, facts for another thread, a change of priority) is chosen freely, and so
is what becomes of stolen nodes and whether a thread tries to steal.

* `Shared`, `Local`, `State`: what the threads see of each other, what each keeps for itself, and
  the barrier.
* `Pc`: the points of `set_next_node`, `busy_wait`, `go_steal_nodes` and the functions on `tstate`
  between two steps.
* `turn`, `step`: one step of one thread.
* `Careful`, `runCareful`: the steps that do not run into a race, and runs of such steps.
-/

namespace Meld
namespace Sched

/-- `tstate`: `THREAD_ACTIVE`, `THREAD_INACTIVE`, or `THREAD_ACTIVE | THREAD_NEW_WORK`. -/
inductive TState where
  | active
  | inactive
  | activeNew
  deriving DecidableEq

/-- What other threads can see and change: the state, the queues in the order in which `has_work`
looks at them (`queues.moving`, `queues.stati`, `prios.moving`, `prios.stati`), and
`thread_node->unprocessed_facts`. -/
structure Shared where
  tstate : TState
  queue : Fin 4 → ℕ
  facts : Bool

/-- Where `activate_thread` is called: when the priority of a node of another thread has changed, or
for all of `comm_threads` before the thread goes idle. -/
inductive Back where
  | run
  | idle
  deriving DecidableEq

/-- The variables of `go_steal_nodes`: the targets that are left, the first being looked at, and
whether the call is the one inside the loop of `busy_wait`. -/
structure StealFrame (n : ℕ) where
  targets : List (Fin n)
  activated : Bool
  hasWork : Bool
  inLoop : Bool
  deriving DecidableEq

/-- The three attempts of `set_next_node` to take a node: `pop_best` on the priority queues, then
`queues.stati`, then `queues.moving`. -/
inductive PopStage where
  | prios
  | stati
  | moving
  deriving DecidableEq

/-- Where a thread stands. -/
inductive Pc (n : ℕ) where
  /-- `check_if_current_useless`. -/
  | current
  /-- Taking a node out of the queues. -/
  | pop (stage : PopStage)
  /-- The test of `thread_node->unprocessed_facts`. -/
  | facts
  /-- `has_work` in `set_next_node`, at one of the queues. -/
  | scan (k : Fin 4)
  /-- `activate_thread` for each of the targets. -/
  | wake (targets : List (Fin n)) (back : Back)
  /-- `term_barrier->is_active()` after a target was made active. -/
  | waking (targets : List (Fin n)) (back : Back)
  /-- `run_node`. -/
  | run
  /-- A node was taken out of a queue of `owner` to change its priority or its owner. -/
  | prio (owner : Fin n)
  /-- The loop of `go_steal_nodes`. -/
  | steal (f : StealFrame n)
  /-- `target->has_work()`, at one of the queues. -/
  | stealScan (f : StealFrame n) (k : Fin 4)
  /-- `set_active_if_inactive` before the first theft. -/
  | stealActivate (f : StealFrame n)
  /-- Its `is_active()`. -/
  | stealing (f : StealFrame n)
  /-- `target->steal_nodes`. -/
  | grab (f : StealFrame n)
  /-- Stolen nodes still to be put into queues. -/
  | place (stolen : ℕ)
  /-- `set_inactive_if_no_work` at the end of `go_steal_nodes`, and its `is_inactive()`. -/
  | stealEnd (inLoop : Bool)
  | stealDec (inLoop : Bool)
  /-- `has_work` in the loop of `busy_wait`, at one of the queues. -/
  | idle (k : Fin 4)
  /-- `set_inactive_if_no_work` in that loop, and its `is_inactive()`. -/
  | deactivate
  | decrement
  /-- `all_threads_finished()`. -/
  | finished
  /-- `set_active_if_inactive` after that loop, and its `is_active()`. -/
  | activate
  | activating
  /-- Out of `do_loop`. -/
  | exited
  deriving DecidableEq

/-- What a thread keeps for itself: where it stands, `comm_threads` and `next_thread`. -/
structure Local (n : ℕ) where
  pc : Pc n
  comm : Fin n → Bool
  nextThread : ℕ

/-- All threads, and the `termination_barrier`. -/
structure State (n : ℕ) where
  shared : Fin n → Shared
  loc : Fin n → Local n
  activeThreads : ℤ
  done : Bool

/-- What is left open at some points: what a running node does, and how the other branches on data
that is not modelled go. -/
inductive Choice (n : ℕ) where
  | go
  | queue (k : Fin 4)
  | send (b : Fin n) (k : Fin 4)
  | sendThread (b : Fin n)
  | prio (b : Fin n) (k : Fin 4)
  | finish
  | steal
  | grab (k : Fin 4) (amount : ℕ)

/-- An access to shared memory. -/
inductive Op (n : ℕ) where
  | nop
  | push (b : Fin n) (k : Fin 4)
  | take (b : Fin n) (k : Fin 4) (amount : ℕ)
  | addFacts (b : Fin n)
  | takeFacts (b : Fin n)
  | cas (b : Fin n) (new : TState)
  | isActive
  | isInactive

variable {n : ℕ}

namespace Shared

/-- One of the queues changed. -/
def modifyQueue (s : Shared) (k : Fin 4) (f : ℕ → ℕ) : Shared :=
  { s with queue := Function.update s.queue k (f (s.queue k)) }

end Shared

namespace State

/-- The shared part of one thread changed. -/
def modifyShared (σ : State n) (b : Fin n) (f : Shared → Shared) : State n :=
  { σ with shared := Function.update σ.shared b (f (σ.shared b)) }

/-- The effect of an access.  `is_inactive` sets `done` when it takes the counter to zero. -/
def apply (σ : State n) : Op n → State n
  | .nop => σ
  | .push b k => σ.modifyShared b fun s => s.modifyQueue k (· + 1)
  | .take b k amount => σ.modifyShared b fun s => s.modifyQueue k (· - amount)
  | .addFacts b => σ.modifyShared b fun s => { s with facts := true }
  | .takeFacts b => σ.modifyShared b fun s => { s with facts := false }
  | .cas b new => σ.modifyShared b fun s => { s with tstate := new }
  | .isActive => { σ with activeThreads := σ.activeThreads + 1 }
  | .isInactive =>
    { σ with
      activeThreads := σ.activeThreads - 1
      done := σ.done || decide (σ.activeThreads - 1 = 0) }

end State

/-- The start of `go_steal_nodes`: the other threads, from `next_thread` on. -/
def startSteal (i : Fin n) (l : Local n) (inLoop : Bool) : Pc n :=
  .steal ⟨((List.finRange n).rotate l.nextThread).filter (· ≠ i), false, false, inLoop⟩

/-- `go_steal_nodes` has returned false. -/
@[simp] def stealFailed (inLoop : Bool) : Pc n := if inLoop then .deactivate else .idle 0

/-- `activate_thread` on a target with the given state. -/
def activateThread (l : Local n) (s : TState) (b : Fin n) (ts : List (Fin n)) (back : Back) :
    Op n × Local n :=
  match s with
  | .inactive => (.cas b .activeNew, { l with pc := .waking ts back })
  | .active => (.cas b .activeNew, { l with pc := .wake ts back })
  | .activeNew => (.nop, { l with pc := .wake ts back })

/-- A step of `run_node`: new work for a node of this thread, for a node of another, or for
another's thread node; a node that is taken out of a queue to change its priority or its owner; or
the end. -/
def runNode (σ : State n) (i : Fin n) (l : Local n) : Choice n → Option (Op n × Local n)
  | .queue k => some (.push i k, l)
  | .send b k => some (.push b k, { l with comm := Function.update l.comm b true })
  | .sendThread b => some (.addFacts b, { l with comm := Function.update l.comm b true })
  | .prio b k =>
    if (σ.shared b).queue k ≠ 0 then some (.take b k 1, { l with pc := .prio b }) else none
  | .finish => some (.nop, { l with pc := .current })
  | _ => none

/-- The node is put back with its new priority, and its owner is told, or it goes to a new owner. -/
def putBack (i : Fin n) (l : Local n) (owner : Fin n) : Choice n → Option (Op n × Local n)
  | .queue k =>
    some (.push owner k, { l with pc := if owner = i then .run else .wake [owner] .run })
  | .send b k => some (.push b k, { l with pc := .run, comm := Function.update l.comm b true })
  | _ => none

/-- `check_if_current_useless`: the node has facts left, or none, or belongs to another thread
now. -/
def checkIfCurrentUseless (l : Local n) : Choice n → Option (Op n × Local n)
  | .go => some (.nop, { l with pc := .run })
  | .finish => some (.nop, { l with pc := .pop .prios })
  | .send b k =>
    some (.push b k, { l with pc := .pop .prios, comm := Function.update l.comm b true })
  | _ => none

/-- `pop_best` takes the better of the two priority queues; the other two take from one queue. -/
def popNode (i : Fin n) (s : Shared) (l : Local n) : PopStage → Choice n → Option (Op n × Local n)
  | .prios, .queue k =>
    if (k = 2 ∨ k = 3) ∧ s.queue k ≠ 0 then some (.take i k 1, { l with pc := .run }) else none
  | .prios, .go =>
    if s.queue 2 = 0 ∧ s.queue 3 = 0 then some (.nop, { l with pc := .pop .stati }) else none
  | .stati, .go =>
    if s.queue 1 = 0 then some (.nop, { l with pc := .pop .moving })
    else some (.take i 1 1, { l with pc := .run })
  | .moving, .go =>
    if s.queue 0 = 0 then some (.nop, { l with pc := .facts })
    else some (.take i 0 1, { l with pc := .run })
  | _, _ => none

/-- The test of the thread node, and `has_work` at queue `k`, in `set_next_node`. -/
def testFacts (i : Fin n) (s : Shared) (l : Local n) : Op n × Local n :=
  if s.facts then (.takeFacts i, { l with pc := .run }) else (.nop, { l with pc := .scan 0 })

def scanQueue (s : Shared) (l : Local n) (k : Fin 4) : Local n :=
  if s.queue k ≠ 0 then { l with pc := .pop .prios }
  else if k = 3 then { l with pc := .wake ((List.finRange n).filter fun b => l.comm b) .idle }
  else { l with pc := .scan (k + 1) }

/-- The end of the calls to `activate_thread`: back to the node, or into `busy_wait`. -/
def woken (i : Fin n) (l : Local n) : Back → Choice n → Option (Local n)
  | .run, .go => some { l with pc := .run }
  | .idle, .go => some { l with pc := .idle 0, comm := fun _ => false }
  | .idle, .steal => some { l with pc := startSteal i l false, comm := fun _ => false }
  | _, _ => none

/-- The head of the loop of `go_steal_nodes`, and what comes after the loop. -/
def stealLoop (σ : State n) (f : StealFrame n) : Pc n :=
  match f.targets with
  | [] =>
    if f.activated then if f.hasWork then .pop .prios else .stealEnd f.inLoop
    else stealFailed f.inLoop
  | b :: ts =>
    if (σ.shared b).tstate = .inactive then .steal { f with targets := ts } else .stealScan f 0

/-- `target->has_work()` at queue `k`. -/
def stealScanQueue (σ : State n) (f : StealFrame n) (k : Fin 4) : Pc n :=
  match f.targets with
  | [] => .steal f
  | b :: ts =>
    if (σ.shared b).queue k ≠ 0 then if f.activated then .grab f else .stealActivate f
    else if k = 3 then .steal { f with targets := ts }
    else .stealScan f (k + 1)

/-- `steal_nodes`: some nodes of one of the two moving queues. -/
def grabNodes (σ : State n) (l : Local n) (f : StealFrame n) : Choice n → Option (Op n × Local n)
  | .grab k amount =>
    match f.targets with
    | [] => none
    | b :: ts =>
      if (k = 0 ∨ k = 2) ∧ amount ≤ (σ.shared b).queue k then
        if amount = 0 then some (.nop, { l with pc := .steal { f with targets := ts } })
        else some (.take b k amount, { l with pc := .place amount, nextThread := b })
      else none
  | _ => none

/-- A stolen node was put into a queue by another thread, or belongs to another, or is kept. -/
def placeNode (i : Fin n) (l : Local n) : ℕ → Choice n → Option (Op n × Local n)
  | m + 1, .go => some (.nop, { l with pc := .place m })
  | m + 1, .send b k =>
    some (.push b k, { l with pc := .place m, comm := Function.update l.comm b true })
  | m + 1, .queue k => some (.push i k, { l with pc := .place m })
  | 0, .go => some (.nop, { l with pc := .pop .prios })
  | _, _ => none

/-- `set_active_if_inactive`: the access, and whether the counter is still to be updated or there
was new work. -/
def setActiveIfInactive (i : Fin n) : TState → Op n
  | .inactive => .cas i .active
  | .active => .nop
  | .activeNew => .cas i .active

/-- `set_inactive_if_no_work`: likewise. -/
def setInactiveIfNoWork (i : Fin n) : TState → Op n
  | .inactive => .nop
  | .active => .cas i .inactive
  | .activeNew => .cas i .active

/-- `has_work` at queue `k` in the loop of `busy_wait`; after the last, the thread may try to
steal. -/
def idleQueue (i : Fin n) (s : Shared) (l : Local n) (k : Fin 4) : Choice n → Option (Local n)
  | .go =>
    if s.queue k ≠ 0 then some { l with pc := .activate }
    else some { l with pc := if k = 3 then .deactivate else .idle (k + 1) }
  | .steal =>
    if s.queue k = 0 ∧ k = 3 then some { l with pc := startSteal i l true } else none
  | _ => none

/-- A point without a choice. -/
def always (r : Op n × Local n) : Choice n → Option (Op n × Local n)
  | .go => some r
  | _ => none

/-- One step of thread `i`: the access it makes, and what it keeps afterwards. -/
def turn (σ : State n) (i : Fin n) (c : Choice n) : Option (Op n × Local n) :=
  let l := σ.loc i
  let s := σ.shared i
  match l.pc with
  | .current => checkIfCurrentUseless l c
  | .pop stage => popNode i s l stage c
  | .facts => always (testFacts i s l) c
  | .scan k => always (.nop, scanQueue s l k) c
  | .wake (b :: ts) back => always (activateThread l (σ.shared b).tstate b ts back) c
  | .wake [] back => (woken i l back c).map fun l' => (.nop, l')
  | .waking ts back => always (.isActive, { l with pc := .wake ts back }) c
  | .run => runNode σ i l c
  | .prio owner => putBack i l owner c
  | .steal f => always (.nop, { l with pc := stealLoop σ f }) c
  | .stealScan f k => always (.nop, { l with pc := stealScanQueue σ f k }) c
  | .stealActivate f =>
    always (setActiveIfInactive i s.tstate, { l with pc := match s.tstate with
      | .inactive => .stealing { f with activated := true }
      | .active => .grab { f with activated := true }
      | .activeNew => .grab { f with activated := true, hasWork := true } }) c
  | .stealing f => always (.isActive, { l with pc := .grab f }) c
  | .grab f => grabNodes σ l f c
  | .place m => placeNode i l m c
  | .stealEnd inLoop =>
    -- the answer is not looked at
    always (setInactiveIfNoWork i s.tstate, { l with pc := match s.tstate with
      | .active => .stealDec inLoop
      | _ => stealFailed inLoop }) c
  | .stealDec inLoop => always (.isInactive, { l with pc := stealFailed inLoop }) c
  | .idle k => (idleQueue i s l k c).map fun l' => (.nop, l')
  | .deactivate =>
    always (setInactiveIfNoWork i s.tstate, { l with pc := match s.tstate with
      | .inactive => .finished
      | .active => .decrement
      | .activeNew => .pop .prios }) c
  | .decrement => always (.isInactive, { l with pc := .finished }) c
  | .finished => always (.nop, { l with pc := if σ.done then .exited else .idle 0 }) c
  | .activate =>
    always (setActiveIfInactive i s.tstate, { l with pc := match s.tstate with
      | .inactive => .activating
      | _ => .pop .prios }) c
  | .activating => always (.isActive, { l with pc := .pop .prios }) c
  | .exited => none

/-- One step of one thread. -/
def step (σ : State n) (i : Fin n) (c : Choice n) : Option (State n) :=
  (turn σ i c).map fun r => { σ.apply r.1 with loc := Function.update σ.loc i r.2 }

/-- A sequence of steps. -/
def run (σ : State n) : List (Fin n × Choice n) → Option (State n)
  | [] => some σ
  | (i, c) :: sched => (step σ i c).bind fun σ' => run σ' sched

/-- All threads are active and about to take their first node, and the barrier counts them. -/
structure Initial (σ : State n) : Prop where
  tstate : ∀ i, (σ.shared i).tstate = .active
  pc : ∀ i, (σ.loc i).pc = .pop .prios
  comm : ∀ i b, (σ.loc i).comm b = false
  activeThreads : σ.activeThreads = n
  done : σ.done = false

/-! ## Termination -/

/-- The thread has a node that it may put into a queue, or whose facts it may send. -/
def aboutToPush : Pc n → Bool
  | .current => true
  | .run => true
  | .prio _ => true
  | .place (_ + 1) => true
  | _ => false

/-- No thread has a node in a queue or facts in its thread node, or is about to push a node. -/
def NoWork (σ : State n) : Prop :=
  ∀ i, (∀ k, (σ.shared i).queue k = 0) ∧ (σ.shared i).facts = false ∧
    aboutToPush (σ.loc i).pc = false

/-- No thread is active. -/
def NoneActive (σ : State n) : Prop := ∀ i, (σ.shared i).tstate = .inactive

/-- Between the compare-and-swap that makes a thread active and its `is_active()`. -/
@[simp] def pendingIncrement : Pc n → Bool
  | .waking _ _ => true
  | .stealing _ => true
  | .activating => true
  | _ => false

/-- Between the compare-and-swap that makes the thread inactive and its `is_inactive()`. -/
@[simp] def pendingDecrement : Pc n → Bool
  | .decrement | .stealDec _ => true
  | _ => false

/-- At the last call of `go_steal_nodes` to `set_inactive_if_no_work`. -/
@[simp] def endsTheft : Pc n → Bool
  | .stealEnd _ => true
  | _ => false

/-- The step of thread `i` does not run into a race: if `is_inactive()` takes the counter to zero
then no `is_active()` is outstanding, and the last call of `go_steal_nodes` to
`set_inactive_if_no_work`, whose answer is not looked at, does not find new work. -/
def Careful (σ : State n) (i : Fin n) : Prop :=
  (pendingDecrement (σ.loc i).pc = true → σ.activeThreads = 1 →
    ∀ j, pendingIncrement (σ.loc j).pc = false) ∧
  (endsTheft (σ.loc i).pc = true → (σ.shared i).tstate ≠ .activeNew)

instance (σ : State n) (i : Fin n) : Decidable (Careful σ i) :=
  inferInstanceAs (Decidable ((_ → _ → _) ∧ (_ → _)))

/-- A sequence of steps of which each is careful. -/
def runCareful (σ : State n) : List (Fin n × Choice n) → Option (State n)
  | [] => some σ
  | (i, c) :: sched =>
    if Careful σ i then (step σ i c).bind fun σ' => runCareful σ' sched else none

/-- In every run `done` becomes true only when no thread is active or has work. -/
def DoneSafely (σ₀ : State n) : Prop :=
  ∀ sched σ i c σ', run σ₀ sched = some σ → step σ i c = some σ' → σ.done = false →
    σ'.done = true → NoneActive σ' ∧ NoWork σ'

end Sched
end Meld
