import Mathlib.Data.BitVec
import Mathlib.Tactic.Abel
import Meld.Thread.CoordAborts

/-!
# The counts of static nodes in a step

Every thread counts the nodes that are static at it.  `make_node_static` and `make_node_moving` take
a node out of the count of the thread that it was static at, and nothing else writes `static_node`
or a count: a step of the threads makes one node static or moving at most, and the counts follow.

* `share`: what a node counts for.
* `Pins s s' n`: from `s` to `s'` only the node `n` may have become static or moving, and the counts
  have followed.
* `KeepsCount`: the same of the result of an operation.
* `act_keepsCount`, `step_pins`: all steps.
-/

namespace Meld
namespace Coord

open State

variable {π : Type}

/-! ## What a step does to the counts -/

/-- What a node counts for at the thread `t`. -/
def share (static : Option ℕ) (t : ℕ) : BitVec 64 := if static = some t then 1 else 0

/-- **At most the node `n` has become static or moving**, and the counts have followed. -/
structure Pins (s s' : State π) (n : ℕ) : Prop where
  static : ∀ x, x ≠ n → (s'.node x).static = (s.node x).static
  staticNodes : ∀ t, (s'.thread t).staticNodes =
    (s.thread t).staticNodes + (share (s'.node n).static t - share (s.node n).static t)

/-- The same for the result of an operation. -/
def KeepsCount (s : State π) (n : ℕ) (x : Result (State π)) : Prop :=
  ∀ s', x = .ok s' → Pins s s' n

section Counts

variable {P : Program π} {s s' s₁ s₂ : State π} {t n m : ℕ}

/-- No node has become static or moving. -/
theorem Pins.of_eq (hnode : ∀ x, (s'.node x).static = (s.node x).static)
    (hthread : ∀ t, (s'.thread t).staticNodes = (s.thread t).staticNodes) : Pins s s' m :=
  ⟨fun x _ => hnode x, fun t => by rw [hnode, hthread, sub_self, add_zero]⟩

theorem Pins.refl (s : State π) (m : ℕ) : Pins s s m := .of_eq (fun _ => rfl) fun _ => rfl

theorem Pins.trans (h : Pins s s₁ m) (h' : Pins s₁ s₂ m) : Pins s s₂ m := by
  refine ⟨fun x hx => (h'.static x hx).trans (h.static x hx), fun t => ?_⟩
  rw [h'.staticNodes, h.staticNodes]
  abel

/-- If this holds for every node, it is true of none that it has become static or moving. -/
theorem same_of_pins (h : ∀ m, Pins s s' m) :
    (∀ x, (s'.node x).static = (s.node x).static) ∧
      ∀ t, (s'.thread t).staticNodes = (s.thread t).staticNodes := by
  have hstatic : ∀ x, (s'.node x).static = (s.node x).static := fun x =>
    (h (x + 1)).static x (Nat.succ_ne_self x).symm
  refine ⟨hstatic, fun t => ?_⟩
  rw [(h 0).staticNodes, hstatic, sub_self, add_zero]

/-! ### The parts of a step -/

theorem pins_setNode {r : Node π} (h : r.static = (s.node n).static) : Pins s (s.setNode n r) m := by
  refine .of_eq (fun x => ?_) fun _ => rfl
  by_cases hx : x = n
  · subst hx
    simp only [State.setNode, Function.update_self, h]
  · simp only [State.setNode, Function.update_of_ne hx]

theorem pins_setThread {r : Thread} (h : r.staticNodes = (s.thread t).staticNodes) :
    Pins s (s.setThread t r) m := by
  refine .of_eq (fun _ => rfl) fun u => ?_
  by_cases hu : u = t
  · subst hu
    simp only [State.setThread, Function.update_self, h]
  · simp only [State.setThread, Function.update_of_ne hu]

theorem pins_setOwner : Pins s (s.setOwner n t) m := pins_setNode rfl

theorem pins_removeTemporaryPriority : Pins s (s.removeTemporaryPriority n) m := pins_setNode rfl

theorem pins_setCurrent {c : Option ℕ} : Pins s (s.setCurrent t c) m := pins_setThread rfl

theorem pins_setLinks {r : Thread} {l : ℕ → QueueLink}
    (h : r.staticNodes = (s.thread t).staticNodes) :
    Pins s { s.setThread t r with link := l } m :=
  ⟨(pins_setThread h).static, (pins_setThread h).staticNodes⟩

theorem pins_putNormal {w : Which} {q : DoubleQueue} : Pins s (s.putNormal t w q) m :=
  pins_setLinks rfl

/-- A thread counts `d` more. -/
theorem staticNodes_countStatic (d : BitVec 64) (u : ℕ) :
    ((s.countStatic t d).thread u).staticNodes =
      (s.thread u).staticNodes + if u = t then d else 0 := by
  by_cases hu : u = t
  · subst hu
    simp [State.countStatic, State.setThread]
  · simp [State.countStatic, State.setThread, hu]

theorem staticNodes_uncountStatic (u : ℕ) :
    ((s.uncountStatic n).thread u).staticNodes =
      (s.thread u).staticNodes - share (s.node n).static u := by
  rw [State.uncountStatic]
  split
  · next old hold =>
    rw [staticNodes_countStatic, hold, share]
    by_cases hu : u = old
    · subst hu
      simp [sub_eq_add_neg]
    · simp [hu, Ne.symm hu]
  · next hnone => simp [share, hnone]

theorem node_uncountStatic : (s.uncountStatic n).node = s.node := by
  rw [State.uncountStatic]
  split <;> rfl

/-- `make_node_static`. -/
theorem pins_makeNodeStatic (target : ℕ) : Pins s (s.makeNodeStatic n target) n := by
  constructor
  · intro x hx
    simp [State.makeNodeStatic, State.setNode, State.countStatic, State.setThread, hx,
      node_uncountStatic]
  · intro u
    have hthread : ((s.makeNodeStatic n target).thread u).staticNodes =
        (s.thread u).staticNodes - share (s.node n).static u + if u = target then 1 else 0 := by
      rw [← staticNodes_uncountStatic, ← staticNodes_countStatic]
      rfl
    have hstatic : ((s.makeNodeStatic n target).node n).static = some target := by
      simp [State.makeNodeStatic, State.setNode]
    have hshare : share (some target) u = if u = target then 1 else 0 :=
      if_congr (by rw [Option.some.injEq, eq_comm]) rfl rfl
    rw [hthread, hstatic, hshare]
    abel

/-- `make_node_moving`. -/
theorem pins_makeNodeMoving : Pins s (s.makeNodeMoving n) n := by
  constructor
  · intro x hx
    simp [State.makeNodeMoving, State.setNode, hx, node_uncountStatic]
  · intro u
    have hthread : ((s.makeNodeMoving n).thread u).staticNodes =
        (s.thread u).staticNodes - share (s.node n).static u := staticNodes_uncountStatic u
    have hstatic : ((s.makeNodeMoving n).node n).static = none := by
      simp [State.makeNodeMoving, State.setNode]
    rw [hthread, hstatic, show share none u = 0 from rfl]
    abel

theorem keepsCount_ok (h : Pins s s' m) : KeepsCount s m (.ok s') := by
  intro s'' hs
  obtain rfl := Except.ok.inj hs
  exact h

theorem keepsCount_error {f : Fault} : KeepsCount s m (.error f) := fun _ hs => absurd hs nofun

/-- An operation after another one. -/
theorem KeepsCount.of_pins {x : Result (State π)} (h : Pins s s₁ m) (hx : KeepsCount s₁ m x) :
    KeepsCount s m x := fun s' hs => h.trans (hx s' hs)

theorem keepsCount_bind {α : Type} {x : Result α} {f : α → Result (State π)}
    (hf : ∀ a, x = .ok a → KeepsCount s m (f a)) : KeepsCount s m (x >>= f) := by
  intro s' hs
  obtain ⟨a, ha, hs⟩ := Result.bind_eq_ok hs
  exact hf a ha s' hs

theorem pins_justMovedBuffer : Pins s (s.justMovedBuffer P n) m := by
  rw [State.justMovedBuffer]
  split
  · exact pins_setNode rfl
  · exact .refl s m

theorem justMoved_keepsCount : KeepsCount s m (s.justMoved P n) := by
  rw [State.justMoved]
  split
  · exact keepsCount_bind fun _ _ => keepsCount_ok (pins_setNode rfl)
  · exact keepsCount_ok (.refl s m)

variable [LinearOrder π]

/-! ### Operations on queues -/

theorem pins_putHeaps {H : Priorities ℕ π} : Pins s (s.putHeaps P t H) m := pins_setLinks rfl

theorem remove_pins {k : Kind} {change : QueueId} {r : State π × Bool}
    (h : s.remove P t k n change = .ok r) : Pins s r.1 m := by
  cases k with
  | normal w =>
    obtain rfl := Except.ok.inj h
    exact pins_putNormal
  | priority w =>
    obtain ⟨q, -, h⟩ := Result.bind_eq_ok h
    obtain rfl := Except.ok.inj h
    exact pins_putHeaps

theorem add_keepsCount {k : Kind} : KeepsCount s m (s.add P t k n) := by
  cases k with
  | normal w => exact keepsCount_ok pins_putNormal
  | priority w => exact keepsCount_bind fun _ _ => keepsCount_ok pins_putHeaps

theorem moveNode_keepsCount {w : Which} {priority : π} {b : Bool} :
    KeepsCount s m (if b then s.moveNode P t w n priority else .ok s) := by
  cases b with
  | false => exact keepsCount_ok (.refl s m)
  | true => exact keepsCount_bind fun _ _ => keepsCount_ok pins_putHeaps

theorem shift_keepsCount {k k' : Kind} {change : QueueId} :
    KeepsCount s m (s.shift P t k k' n change) := by
  refine keepsCount_bind fun r hr => ?_
  split
  · exact .of_pins (remove_pins hr) add_keepsCount
  · exact keepsCount_ok (remove_pins hr)

theorem addToQueue_keepsCount : KeepsCount s m (s.addToQueue P t n) := add_keepsCount

theorem moveNodeToNewOwner_keepsCount : KeepsCount s m (s.moveNodeToNewOwner P n t) :=
  .of_pins pins_justMovedBuffer addToQueue_keepsCount

theorem pins_setTemporaryPriorityIf {priority : π} :
    Pins s (s.setTemporaryPriorityIf P n priority).1 m := by
  refine pins_setNode ?_
  rw [Node.setTemporaryPriorityIf]
  split <;> rfl

/-! ### Coordination -/

theorem doSetNodePriority_keepsCount {priority : π} {forceQueue : Bool} :
    KeepsCount s m (doSetNodePriority P s t n priority forceQueue) := by
  rw [doSetNodePriority]
  split
  · exact keepsCount_ok (pins_setNode rfl)
  have h : Pins s (s.setTemporaryPriorityIf P n priority).1 m := pins_setTemporaryPriorityIf
  refine .of_pins h ?_
  cases hq : s.nodeState n with
  | stealing | working | prioChange => exact keepsCount_ok (.refl _ m)
  | priorityMoving | priorityStatic => exact moveNode_keepsCount
  | normalMoving | normalStatic => exact shift_keepsCount
  | idle =>
    cases forceQueue with
    | false => exact keepsCount_ok (.refl _ m)
    | true => exact addToQueue_keepsCount
  | staticChange | affinityChange => exact keepsCount_error

theorem doSetNodePriorityOther_keepsCount {priority : π} :
    KeepsCount s m (doSetNodePriorityOther P s n priority) := by
  rw [doSetNodePriorityOther]
  cases hq : s.nodeState n with
  | stealing | idle | prioChange => exact keepsCount_ok pins_setTemporaryPriorityIf
  | working => exact keepsCount_ok (.refl s m)
  | priorityMoving | priorityStatic => exact .of_pins pins_setTemporaryPriorityIf moveNode_keepsCount
  | normalMoving | normalStatic => exact .of_pins pins_setTemporaryPriorityIf shift_keepsCount
  | staticChange | affinityChange => exact keepsCount_error

theorem doRemoveNodePriority_keepsCount : KeepsCount s m (doRemoveNodePriority P s t n) := by
  rw [doRemoveNodePriority]
  have h : Pins s (s.removeTemporaryPriority n) m := pins_removeTemporaryPriority
  refine .of_pins h ?_
  cases hq : s.nodeState n with
  | stealing | working | idle | normalMoving | normalStatic => exact keepsCount_ok (.refl _ m)
  | priorityMoving | priorityStatic => exact shift_keepsCount
  | prioChange | staticChange | affinityChange => exact keepsCount_error

theorem doRemoveNodePriorityOther_keepsCount :
    KeepsCount s m (doRemoveNodePriorityOther P s n) := by
  have h : Pins s (s.removeTemporaryPriority n) m := pins_removeTemporaryPriority
  rw [doRemoveNodePriorityOther]
  cases hq : s.nodeState n with
  | stealing | normalMoving | normalStatic => exact keepsCount_ok h
  | working => exact keepsCount_ok (.refl s m)
  | priorityMoving | priorityStatic => exact .of_pins h shift_keepsCount
  | idle | prioChange | staticChange | affinityChange => exact keepsCount_error

theorem setNodePriority_keepsCount {priority : π} :
    KeepsCount s m (setNodePriority P s t n priority) := by
  rw [setNodePriority]
  split
  · exact keepsCount_ok (.refl s m)
  split
  · exact keepsCount_ok (.refl s m)
  split
  · exact doSetNodePriority_keepsCount
  · exact doSetNodePriorityOther_keepsCount

theorem addNodePriority_keepsCount {priority : π} :
    KeepsCount s m (addNodePriority P s t n priority) := by
  rw [addNodePriority]
  split
  · exact keepsCount_ok (.refl s m)
  split
  · exact keepsCount_ok (.refl s m)
  split
  · exact doSetNodePriority_keepsCount
  · exact doSetNodePriorityOther_keepsCount

theorem removeNodePriority_keepsCount : KeepsCount s m (removeNodePriority P s t n) := by
  rw [removeNodePriority]
  split
  · exact keepsCount_ok (.refl s m)
  split
  · exact keepsCount_ok (pins_setNode rfl)
  split
  · exact doRemoveNodePriority_keepsCount
  · exact doRemoveNodePriorityOther_keepsCount

theorem scheduleNext_keepsCount : KeepsCount s m (scheduleNext P s t n) := by
  rw [scheduleNext]
  split
  · exact doSetNodePriority_keepsCount
  · exact keepsCount_ok (.refl s m)

omit [LinearOrder π] in
theorem setDefaultNodePriority_keepsCount {priority : π} :
    KeepsCount s m (setDefaultNodePriority P s n priority) := by
  rw [setDefaultNodePriority]
  split
  · exact keepsCount_ok (.refl s m)
  · exact keepsCount_ok (pins_setNode rfl)

/-- **`set_node_static`** counts the node. -/
theorem setNodeStatic_keepsCount : KeepsCount s n (setNodeStatic P s t n) := by
  have h : Pins s (s.makeNodeStatic n t) n := pins_makeNodeStatic t
  rw [setNodeStatic]
  split
  · exact keepsCount_ok (.refl s n)
  split
  · exact keepsCount_ok h
  split
  · exact keepsCount_ok (.refl s n)
  cases hq : s.nodeState n with
  | stealing | normalStatic | priorityStatic | idle | working => exact keepsCount_ok h
  | normalMoving | priorityMoving => exact .of_pins h shift_keepsCount
  | prioChange | staticChange | affinityChange => exact keepsCount_error

/-- **`set_node_moving`** takes it out of the count. -/
theorem setNodeMoving_keepsCount : KeepsCount s n (setNodeMoving P s t n) := by
  have h : Pins s (s.makeNodeMoving n) n := pins_makeNodeMoving
  rw [setNodeMoving]
  split
  · exact keepsCount_ok (.refl s n)
  split
  · exact keepsCount_ok h
  split
  · exact keepsCount_ok (.refl s n)
  cases hq : s.nodeState n with
  | stealing | normalMoving | priorityMoving | idle | working => exact keepsCount_ok h
  | normalStatic | priorityStatic => exact .of_pins h shift_keepsCount
  | prioChange | staticChange | affinityChange => exact keepsCount_error

theorem changeOwner_keepsCount {k : Kind} {newOwner : ℕ} :
    KeepsCount s m (changeOwner P s t k n newOwner) := by
  refine keepsCount_bind fun r hr => ?_
  split
  · have h : Pins s (r.1.setOwner n newOwner) m := (remove_pins hr).trans pins_setOwner
    exact .of_pins h moveNodeToNewOwner_keepsCount
  · exact keepsCount_error

/-- **`set_node_owner`** takes it out of one count and adds it to another. -/
theorem setNodeOwner_keepsCount {newOwner : ℕ} :
    KeepsCount s n (setNodeOwner P s t n newOwner) := by
  have h : Pins s (s.makeNodeStatic n newOwner) n := pins_makeNodeStatic newOwner
  rw [setNodeOwner]
  split
  · refine keepsCount_bind fun s₁ hs₁ => ?_
    have h₁ : Pins s s₁ n := by
      split at hs₁
      · exact justMoved_keepsCount s₁ hs₁
      · exact keepsCount_ok (.refl s n) s₁ hs₁
    exact keepsCount_ok (h₁.trans (pins_makeNodeStatic newOwner))
  simp only
  split
  · exact keepsCount_ok (h.trans pins_justMovedBuffer)
  cases hq : s.nodeState n with
  | stealing => exact keepsCount_ok (h.trans pins_setOwner)
  | working => exact keepsCount_ok h
  | idle =>
    have h' : Pins s ((s.makeNodeStatic n newOwner).setOwner n newOwner) n :=
      h.trans pins_setOwner
    exact keepsCount_ok (h'.trans pins_justMovedBuffer)
  | normalStatic | normalMoving | priorityMoving | priorityStatic =>
    exact .of_pins h changeOwner_keepsCount
  | prioChange | staticChange | affinityChange => exact keepsCount_error

/-! ### The life of a node -/

theorem initNode_keepsCount : KeepsCount s m (initNode P s t n) := by
  rw [initNode]
  split
  · exact keepsCount_error
  refine keepsCount_bind fun db _ => ?_
  have h : Pins s (s.setNode n
      { s.node n with owner := t, db := { db with unprocessedFacts := true } }) m :=
    pins_setNode rfl
  split
  · exact .of_pins h add_keepsCount
  · exact keepsCount_ok (h.trans pins_putHeaps)

theorem newWork_keepsCount {w : Work} {locked : Bool} :
    KeepsCount s m (newWork P s t n w locked) := by
  refine keepsCount_bind fun db _ => ?_
  have h : Pins s (s.setNode n { s.node n with db := db }) m := pins_setNode rfl
  simp only
  split
  · exact .of_pins h addToQueue_keepsCount
  · exact keepsCount_ok h

theorem popBest_keepsCount : KeepsCount s m (popBest P s t) := by
  rw [popBest]
  split
  · exact keepsCount_error
  · exact keepsCount_bind fun r _ => keepsCount_ok (pins_putHeaps.trans (pins_setThread rfl))

omit [LinearOrder π] in
theorem popNormal_keepsCount {w : Which} : KeepsCount s m (popNormal s t w) := by
  rw [popNormal]
  split
  · exact keepsCount_error
  · exact keepsCount_ok (pins_putNormal.trans (pins_setThread rfl))

omit [LinearOrder π] in
theorem takeFacts_keepsCount : KeepsCount s m (takeFacts P s t) :=
  keepsCount_bind fun _ _ => keepsCount_bind fun _ _ => keepsCount_ok (pins_setNode rfl)

omit [LinearOrder π] in
theorem runRules_keepsCount {linear : LinearStore} {matcher : RuleMatcher} :
    KeepsCount s m (runRules s t linear matcher) :=
  keepsCount_bind fun _ _ => keepsCount_ok (pins_setNode rfl)

omit [LinearOrder π] in
theorem seeNewOwner_keepsCount : KeepsCount s m (seeNewOwner s t) := by
  refine keepsCount_bind fun n _ => ?_
  split
  · exact keepsCount_ok (pins_setNode rfl)
  · exact keepsCount_ok (.refl s m)

omit [LinearOrder π] in
theorem check_keepsCount : KeepsCount s m (check s t) :=
  keepsCount_bind fun _ _ => keepsCount_ok (pins_setThread rfl)

theorem handOver_keepsCount : KeepsCount s m (handOver P s t) := by
  refine keepsCount_bind fun n _ => ?_
  split
  · exact keepsCount_error
  · next newOwner _ =>
    have h : Pins s ((s.setOwner n newOwner).removeTemporaryPriority n) m :=
      pins_setOwner.trans pins_removeTemporaryPriority
    refine keepsCount_bind fun s₁ hs₁ => keepsCount_ok ?_
    exact (h.trans (moveNodeToNewOwner_keepsCount s₁ hs₁)).trans pins_setCurrent

omit [LinearOrder π] in
theorem finish_keepsCount : KeepsCount s m (finish s t) := by
  refine keepsCount_bind fun n _ => ?_
  split
  · have h : Pins s (makeInactive s n) m := .of_eq (fun _ => rfl) fun _ => rfl
    exact keepsCount_ok ((h.trans pins_removeTemporaryPriority).trans pins_setCurrent)
  · exact keepsCount_ok (pins_setThread rfl)

theorem stealNodes_pins {u max : ℕ} {r : State π × List ℕ}
    (h : stealNodes P s u max = .ok r) : Pins s r.1 m := by
  have hflag : Pins s (stealStart s u) m := pins_setThread rfl
  obtain hr | hr | rfl := stealNodes_cases h
  · obtain ⟨q, -, hr⟩ := Result.bind_eq_ok hr
    obtain rfl := Except.ok.inj hr
    exact hflag.trans pins_putNormal
  · obtain ⟨q, -, hr⟩ := Result.bind_eq_ok hr
    obtain rfl := Except.ok.inj hr
    exact hflag.trans pins_putHeaps
  · exact hflag

theorem steal_keepsCount {u : ℕ} : KeepsCount s m (steal P s t u) := by
  rw [steal]
  split
  · exact keepsCount_error
  · refine keepsCount_bind fun r hr => keepsCount_ok ?_
    exact (stealNodes_pins hr).trans (pins_setThread rfl)

/-- **A stolen node that is static** is counted by the thief. -/
theorem adopt_keepsCount {rest : List ℕ} (hbuffer : (s.thread t).buffer = n :: rest) :
    KeepsCount s n (adopt P s t) := by
  have h : Pins s (s.setThread t { s.thread t with buffer := rest }) n := pins_setThread rfl
  simp only [adopt, hbuffer]
  split
  · exact keepsCount_ok h
  split
  · exact .of_pins h moveNodeToNewOwner_keepsCount
  · split
    · have h' := h.trans (pins_makeNodeStatic t)
      exact .of_pins (h'.trans pins_setOwner) addToQueue_keepsCount
    · exact .of_pins (h.trans pins_setOwner) addToQueue_keepsCount

/-! ### Steps -/

/-- The node that an event may make static or moving. -/
def Event.pinned (s : State π) : Event π → Option ℕ
  | .setNodeStatic _ n | .setNodeMoving _ n | .setNodeCpu _ n _ | .setNodeAffinity _ n _ => some n
  | .adopt t => (s.thread t).buffer.head?
  | _ => none

theorem act_keepsCount {e : Event π} (hm : ∀ n ∈ e.pinned s, n = m) :
    KeepsCount s m (act P s e) := by
  cases e with
  | initNode | synchronize => exact keepsCount_error
  | newWork => exact newWork_keepsCount
  | popBest => exact popBest_keepsCount
  | popNormal => exact popNormal_keepsCount
  | takeFacts => exact takeFacts_keepsCount
  | runRules => exact runRules_keepsCount
  | seeNewOwner => exact seeNewOwner_keepsCount
  | check => exact check_keepsCount
  | handOver => exact handOver_keepsCount
  | finish => exact finish_keepsCount
  | steal => exact steal_keepsCount
  | adopt t =>
    cases hbuffer : (s.thread t).buffer with
    | nil =>
      intro s' hs
      simp only [act, adopt, hbuffer] at hs
      cases hs
    | cons n rest =>
      obtain rfl := hm n (by rw [Event.pinned, hbuffer]; rfl)
      exact adopt_keepsCount hbuffer
  | setNodePriority => exact setNodePriority_keepsCount
  | addNodePriority => exact addNodePriority_keepsCount
  | removeNodePriority => exact removeNodePriority_keepsCount
  | setDefaultNodePriority => exact setDefaultNodePriority_keepsCount
  | scheduleNext => exact scheduleNext_keepsCount
  | setNodeStatic t n => exact hm n rfl ▸ setNodeStatic_keepsCount
  | setNodeMoving t n => exact hm n rfl ▸ setNodeMoving_keepsCount
  | setNodeCpu t n newOwner =>
    obtain rfl := hm n rfl
    show KeepsCount s n (setNodeCpu P s t n newOwner)
    rw [setNodeCpu]
    split
    · exact keepsCount_ok (.refl s n)
    · exact setNodeOwner_keepsCount
  | setNodeAffinity t n affinity =>
    obtain rfl := hm n rfl
    show KeepsCount s n (setNodeAffinity P s t n affinity)
    rw [setNodeAffinity]
    split
    · exact keepsCount_ok (.refl s n)
    · exact setNodeOwner_keepsCount

/-- **One step of the threads** makes one node static or moving at most, and keeps count. -/
theorem step_pins {e : Event π} (h : step P s e = .ok s') (hm : ∀ n ∈ e.pinned s, n = m) :
    Pins s s' m := by
  rcases step_cases h with ⟨t, n, rfl, -, h⟩ | ⟨rfl, -, rfl⟩ | ⟨-, h⟩
  · exact initNode_keepsCount s' h
  · exact .of_eq (fun _ => rfl) fun _ => rfl
  · exact act_keepsCount hm s' h

end Counts

end Coord
end Meld
