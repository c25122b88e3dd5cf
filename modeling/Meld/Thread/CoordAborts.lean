import Meld.Thread.CoordInvariant

/-!
# The switches over the state of a node

The functions of `coord.cpp` switch over the state of a node, and every switch lists some of the
states and aborts at the others.  Three states are never listed by some of them: those of a node
between two queues, which no other thread sees since the node stays locked.  The fourth one is the
state of an idle node, which `do_remove_node_priority_other` forgets.

Nothing is assumed of the queues here.  Even in a run in which threads have taken nodes out of
queues of other threads, an operation writes numbers of queues and the states of the life of a node
only.

* `Settled s`: no node is between two queues.
* `step_settled`, `reach_settled`: this holds in every state of every run.
* `Forgotten P s e`: the call that aborts.
* `coordinated_ne_abort_iff`: a coordination operation does not abort if and only if it is not that
  call.
-/

namespace Meld

/-! ## The numbers that the queues write -/

namespace Pqueue

variable {ι π : Type} [DecidableEq ι] {s s' : Pqueue ι π} {x : ι} {i : ℕ}

theorem setIndex_queue (h : s.setIndex i x = some s') (y : ι) :
    (s'.obj y).queue = (s.obj y).queue := by
  rw [setIndex] at h
  split at h
  · obtain rfl := Option.some.inj h
    by_cases hy : y = x
    · subst hy
      simp only [Function.update_self]
    · simp only [Function.update_of_ne hy]
  · exact absurd h.symm (Option.some_ne_none _)

theorem setQueue_queue (q : QueueId) (y : ι) :
    ((s.setQueue x q).obj y).queue = if y = x then q else (s.obj y).queue := by
  by_cases hy : y = x
  · subst hy
    simp only [setQueue, Function.update_self, if_true]
  · simp only [setQueue, Function.update_of_ne hy, if_neg hy]

theorem setPriority_queue (p : π) (y : ι) :
    ((s.setPriority x p).obj y).queue = (s.obj y).queue := by
  by_cases hy : y = x
  · subst hy
    simp only [setPriority, Function.update_self]
  · simp only [setPriority, Function.update_of_ne hy]

theorem pushBack_queue (y : ι) : ((s.pushBack x).obj y).queue = (s.obj y).queue := by
  by_cases hy : y = x
  · subst hy
    simp only [pushBack, Function.update_self]
  · simp only [pushBack, Function.update_of_ne hy]

variable [Preorder π] [DecidableLE π]

theorem heapifyup_queue {fuel : ℕ} {moved : Bool} {r : Pqueue ι π × Bool}
    (h : heapifyup fuel s i moved = some r) (y : ι) :
    (r.1.obj y).queue = (s.obj y).queue := by
  induction fuel generalizing s i moved with
  | zero => exact absurd h.symm (Option.some_ne_none _)
  | succ fuel ih =>
    rw [heapifyup] at h
    split at h
    · obtain ⟨a, -, h⟩ := Option.bind_eq_some_iff.mp h
      obtain ⟨b, -, h⟩ := Option.bind_eq_some_iff.mp h
      split at h
      · obtain ⟨s₁, hs₁, h⟩ := Option.bind_eq_some_iff.mp h
        obtain ⟨s₂, hs₂, h⟩ := Option.bind_eq_some_iff.mp h
        rw [ih h, setIndex_queue hs₂, setIndex_queue hs₁]
      · obtain rfl := Option.some.inj h
        rfl
    · obtain rfl := Option.some.inj h
      rfl

theorem heapifydown_queue {fuel : ℕ} (h : heapifydown fuel s i = some s') (y : ι) :
    (s'.obj y).queue = (s.obj y).queue := by
  induction fuel generalizing s i with
  | zero => exact absurd h.symm (Option.some_ne_none _)
  | succ fuel ih =>
    rw [heapifydown] at h
    simp only at h
    split at h
    · obtain rfl := Option.some.inj h
      rfl
    · obtain ⟨a, -, h⟩ := Option.bind_eq_some_iff.mp h
      obtain ⟨b, -, h⟩ := Option.bind_eq_some_iff.mp h
      split at h
      · obtain rfl := Option.some.inj h
        rfl
      · obtain ⟨c, -, h⟩ := Option.bind_eq_some_iff.mp h
        obtain ⟨s₁, hs₁, h⟩ := Option.bind_eq_some_iff.mp h
        obtain ⟨s₂, hs₂, h⟩ := Option.bind_eq_some_iff.mp h
        rw [ih h, setIndex_queue hs₂, setIndex_queue hs₁]

theorem insert_queue {prio : π} (h : s.insert x prio = some s') (y : ι) :
    (s'.obj y).queue = if y = x then s.queueNumber else (s.obj y).queue := by
  rw [insert, doInsert] at h
  obtain ⟨r, hr, h⟩ := Option.bind_eq_some_iff.mp h
  obtain rfl := Option.some.inj h
  rw [heapifyup_queue hr, pushBack_queue, setQueue_queue, setPriority_queue]

theorem doRemove_queue {newState : QueueId} (h : s.doRemove x newState = some s') (y : ι) :
    (s'.obj y).queue = if y = x then newState else (s.obj y).queue := by
  rw [doRemove] at h
  obtain ⟨tmp, -, h⟩ := Option.bind_eq_some_iff.mp h
  have hset : ((s.popBack.setQueue x newState).obj y).queue =
      if y = x then newState else (s.obj y).queue := setQueue_queue newState y
  simp only at h
  split at h
  · obtain ⟨s₁, hs₁, h⟩ := Option.bind_eq_some_iff.mp h
    rw [← hset, ← setIndex_queue hs₁]
    split at h
    · obtain ⟨z, -, h⟩ := Option.bind_eq_some_iff.mp h
      split at h
      · obtain ⟨r, hr, h⟩ := Option.bind_eq_some_iff.mp h
        obtain rfl := Option.some.inj h
        exact heapifyup_queue hr y
      · exact heapifydown_queue h y
    · exact heapifydown_queue h y
  · obtain rfl := Option.some.inj h
    exact hset

theorem remove_queue {newState : QueueId} {r : Pqueue ι π × Bool}
    (h : s.remove x newState = some r) :
    (r.2 = true ∧ ∀ y, (r.1.obj y).queue = if y = x then newState else (s.obj y).queue) ∨
      r = (s, false) := by
  rw [remove] at h
  split at h
  · exact Or.inr (Option.some.inj h).symm
  split at h
  · exact Or.inr (Option.some.inj h).symm
  · obtain ⟨s₁, hs₁, h⟩ := Option.bind_eq_some_iff.mp h
    obtain rfl := Option.some.inj h
    exact Or.inl ⟨rfl, doRemove_queue hs₁⟩

theorem moveNode_queue {prio : π} (h : s.moveNode x prio = some s') (y : ι) :
    (s'.obj y).queue = (s.obj y).queue := by
  rw [moveNode, doMoveNode] at h
  split at h
  · obtain rfl := Option.some.inj h
    rfl
  split at h
  · obtain rfl := Option.some.inj h
    rfl
  simp only at h
  split at h
  · obtain ⟨r, hr, h⟩ := Option.bind_eq_some_iff.mp h
    obtain rfl := Option.some.inj h
    rw [heapifyup_queue hr, setPriority_queue]
  · rw [heapifydown_queue h, setPriority_queue]

theorem doPop_queue {newState : QueueId} {r : Pqueue ι π × Option ι}
    (h : s.doPop newState = some r) (y : ι) :
    (r.1.obj y).queue = (s.obj y).queue ∨ (r.1.obj y).queue = newState := by
  cases hheap : s.heap with
  | nil =>
    rw [doPop] at h
    simp only [hheap] at h
    obtain rfl := Option.some.inj h
    exact Or.inl rfl
  | cons x rest =>
    rw [doPop_eq hheap] at h
    obtain ⟨s₁, hs₁, h⟩ := Option.bind_eq_some_iff.mp h
    obtain rfl := Option.some.inj h
    have hkeep : (s₁.obj y).queue = (s.obj y).queue := by
      split at hs₁
      · obtain ⟨last, -, hs₁⟩ := Option.bind_eq_some_iff.mp hs₁
        obtain ⟨s₂, hs₂, hs₁⟩ := Option.bind_eq_some_iff.mp hs₁
        rw [heapifydown_queue hs₁]
        exact setIndex_queue hs₂ y
      · obtain rfl := Option.some.inj hs₁
        rfl
    rw [setQueue_queue, hkeep]
    split
    · exact Or.inr rfl
    · exact Or.inl rfl

theorem popLevel_queue {newState : QueueId} {half k j : ℕ} {buffer : List ι}
    {r : Pqueue ι π × List ι} (h : popLevel newState half i k j s buffer = some r) (y : ι) :
    (r.1.obj y).queue = (s.obj y).queue ∨ (r.1.obj y).queue = newState := by
  induction k generalizing j s buffer with
  | zero =>
    obtain rfl := Option.some.inj h
    exact Or.inl rfl
  | succ k ih =>
    rw [popLevel] at h
    obtain ⟨o, -, h⟩ := Option.bind_eq_some_iff.mp h
    obtain ⟨s₁, hs₁, h⟩ := Option.bind_eq_some_iff.mp h
    have hfirst : (s₁.obj y).queue = (s.obj y).queue ∨ (s₁.obj y).queue = newState := by
      rw [doRemove_queue hs₁]
      split
      · exact Or.inr rfl
      · exact Or.inl rfl
    split at h
    · obtain rfl := Option.some.inj h
      exact hfirst
    · rcases ih h with hr | hr
      · rw [hr]
        exact hfirst
      · exact Or.inr hr

theorem popHalf_queue {newState : QueueId} {max : ℕ} {r : Pqueue ι π × List ι}
    (h : s.popHalf max newState = some r) (y : ι) :
    (r.1.obj y).queue = (s.obj y).queue ∨ (r.1.obj y).queue = newState := by
  have hlevels : ∀ (fuel i level : ℕ) (s : Pqueue ι π) (half : ℕ) (buffer : List ι),
      popLevels newState half fuel i level s buffer = some r →
      (r.1.obj y).queue = (s.obj y).queue ∨ (r.1.obj y).queue = newState := by
    intro fuel
    induction fuel with
    | zero =>
      intro i level s half buffer h
      exact absurd h.symm (Option.some_ne_none _)
    | succ fuel ih =>
      intro i level s half buffer h
      rw [popLevels] at h
      split at h
      · obtain ⟨r₁, hr₁, h⟩ := Option.bind_eq_some_iff.mp h
        have hfirst := popLevel_queue hr₁ y
        split at h
        · obtain rfl := Option.some.inj h
          exact hfirst
        · rcases ih _ _ _ _ _ h with hr | hr
          · rw [hr]
            exact hfirst
          · exact Or.inr hr
      · obtain rfl := Option.some.inj h
        exact Or.inl rfl
  rw [popHalf, doPopHalf] at h
  split at h
  · obtain rfl := Option.some.inj h
    exact Or.inl rfl
  · exact hlevels _ _ _ _ _ _ h

end Pqueue

namespace DoubleQueue

variable {q : DoubleQueue} {x : ℕ}

theorem pushTail_queue (y : ℕ) :
    ((q.pushTail x).link y).queue = if y = x then q.queueNumber else (q.link y).queue := by
  simp only [pushTail, queue_setNext, queue_setQueue, queue_setPrev]

theorem remove_queue (newState : QueueId) :
    ((q.remove x newState).2 = true ∧
      ∀ y, ((q.remove x newState).1.link y).queue = if y = x then newState else (q.link y).queue) ∨
      q.remove x newState = (q, false) := by
  rw [remove]
  split
  · exact Or.inr rfl
  · refine Or.inl ⟨rfl, fun y => ?_⟩
    simp only [unlink, queue_setNext, queue_setQueue, queue_setPrev]

theorem popHead_queue (newState : QueueId) (y : ℕ) :
    ((q.popHead newState).1.link y).queue = (q.link y).queue ∨
      ((q.popHead newState).1.link y).queue = newState := by
  rw [popHead]
  split
  · exact Or.inl rfl
  · simp only [queue_setQueue, queue_setPrev]
    split
    · exact Or.inr rfl
    · exact Or.inl rfl

theorem takeHeads_queue {newState : QueueId} {n head : ℕ} {link : ℕ → QueueLink}
    {r : (ℕ → QueueLink) × ℕ × List ℕ} (h : takeHeads newState n head link = some r) (y : ℕ) :
    (r.1 y).queue = (link y).queue ∨ (r.1 y).queue = newState := by
  induction n generalizing head link r with
  | zero =>
    obtain rfl := Option.some.inj h
    exact Or.inl rfl
  | succ n ih =>
    rw [takeHeads] at h
    split at h
    · exact absurd h.symm (Option.some_ne_none _)
    · obtain ⟨r₁, hr₁, rfl⟩ := Option.map_eq_some_iff.mp h
      rcases ih hr₁ with hr | hr
      · simp only [hr, queue_setQueue]
        split
        · exact Or.inr rfl
        · exact Or.inl rfl
      · exact Or.inr hr

theorem popTailHalf_queue {newState : QueueId} {max : ℕ} {r : DoubleQueue × List ℕ}
    (h : q.popTailHalf max newState = some r) (y : ℕ) :
    (r.1.link y).queue = (q.link y).queue ∨ (r.1.link y).queue = newState := by
  rw [popTailHalf] at h
  split at h
  · obtain rfl := Option.some.inj h
    exact Or.inl rfl
  · obtain ⟨r₁, hr₁, h⟩ := Option.bind_eq_some_iff.mp h
    split at h
    · exact absurd h.symm (Option.some_ne_none _)
    · obtain rfl := Option.some.inj h
      simp only [queue_setPrev]
      exact takeHeads_queue hr₁ y

end DoubleQueue

namespace Coord

open State

variable {π : Type} [LinearOrder π] {P : Program π} {s s' : State π} {N n t : ℕ}

/-! ## No node stays between two queues -/

/-- No node other than `n` is between two queues. -/
def SettledBut (n : ℕ) (s : State π) : Prop := ∀ x, x ≠ n → ¬ Changing (s.nodeState x)

/-- **No node is between two queues.** -/
def Settled (s : State π) : Prop := ∀ x, ¬ Changing (s.nodeState x)

theorem not_changing_number (k : Kind) : ¬ Changing k.number :=
  fun hc => unqueued_of_changing hc k rfl

omit [LinearOrder π] in
theorem Settled.but (h : Settled s) (n : ℕ) : SettledBut n s := fun x _ => h x

omit [LinearOrder π] in
/-- The states stay, or they become one that is settled. -/
theorem Settled.of_or (h : Settled s) {q : QueueId} (hq : ¬ Changing q)
    (hor : ∀ x, s'.nodeState x = s.nodeState x ∨ s'.nodeState x = q) : Settled s' := by
  intro x
  rcases hor x with hx | hx
  · rw [hx]
    exact h x
  · rw [hx]
    exact hq

omit [LinearOrder π] in
theorem SettledBut.congr (h : SettledBut n s) (hs : s'.nodeState = s.nodeState) :
    SettledBut n s' := by
  intro x hx
  rw [hs]
  exact h x hx

omit [LinearOrder π] in
theorem Settled.congr (h : Settled s) (hs : s'.nodeState = s.nodeState) : Settled s' := by
  intro x
  rw [hs]
  exact h x

omit [LinearOrder π] in
theorem Edits.settled {r : Node π} (e : Edits s s' n r) (h : Settled s) : Settled s' :=
  h.congr (funext e.nodeState)

omit [LinearOrder π] in
/-- The node `n` gets the state `q`. -/
theorem SettledBut.settle (h : SettledBut n s) {q : QueueId} (hq : ¬ Changing q)
    (hs : ∀ x, s'.nodeState x = if x = n then q else s.nodeState x) : Settled s' := by
  intro x
  rw [hs x]
  split
  · exact hq
  · next hx => exact h x hx

theorem nodeState_putHeap {w : Which} {q : Pqueue ℕ π} (x : ℕ) :
    (s.putHeap P t w q).nodeState x = (q.obj x).queue := by
  have hobj : ((s.heaps P t).put w q).obj = q.obj := Priorities.obj_put
  simp only [putHeap, putHeaps, State.nodeState, writeObj, hobj]

/-- **A call leaves no node between two queues**, and it does not come to an `abort()`. -/
structure Keeps (x : Result (State π)) : Prop where
  settled : ∀ s', x = .ok s' → Settled s'
  abort : x ≠ .error .abort

omit [LinearOrder π] in
theorem Settled.keeps (h : Settled s) : Keeps (.ok s) := by
  refine ⟨?_, by simp⟩
  intro s' hs
  obtain rfl := Except.ok.inj hs
  exact h

omit [LinearOrder π] in
theorem keeps_error {f : Fault} (hf : f ≠ .abort) : Keeps (.error f : Result (State π)) := by
  refine ⟨fun s' hs => absurd hs (by simp), ?_⟩
  intro hc
  exact hf (Except.error.inj hc)

theorem ofOption_ne_abort {α : Type} (o : Option α) : Result.ofOption o ≠ .error .abort := by
  cases o <;> simp [Result.ofOption]

omit [LinearOrder π] in
/-- A call after another one. -/
theorem keeps_bind {α : Type} {x : Result α} {f : α → Result (State π)}
    (hx : x ≠ .error .abort) (hf : ∀ a, x = .ok a → Keeps (f a)) : Keeps (x >>= f) := by
  cases x with
  | error e => exact keeps_error fun he => hx (by rw [he])
  | ok a => exact hf a rfl

/-- `add` gives the node the number of its queue. -/
theorem nodeState_add {k : Kind} (h : s.add P t k n = .ok s') :
    s'.node = s.node ∧ ∀ x, s'.nodeState x = if x = n then k.number else s.nodeState x := by
  cases k with
  | normal w =>
    obtain rfl := Except.ok.inj h
    exact ⟨rfl, DoubleQueue.pushTail_queue⟩
  | priority w =>
    obtain ⟨q, hq, h⟩ := Result.bind_eq_ok h
    obtain rfl := Except.ok.inj h
    refine ⟨rfl, fun x => ?_⟩
    rw [nodeState_putHeap, Pqueue.insert_queue (Result.ofOption_eq_ok hq)]
    rfl

/-- `remove` gives the node the new state, or does nothing. -/
theorem nodeState_remove {k : Kind} {change : QueueId} {r : State π × Bool}
    (h : s.remove P t k n change = .ok r) : r.1.node = s.node ∧
      ((r.2 = true ∧ ∀ x, r.1.nodeState x = if x = n then change else s.nodeState x) ∨
        (r.2 = false ∧ ∀ x, r.1.nodeState x = s.nodeState x)) := by
  cases k with
  | normal w =>
    rw [State.remove] at h
    obtain rfl := Except.ok.inj h
    refine ⟨rfl, ?_⟩
    rcases DoubleQueue.remove_queue (q := s.normal t w) (x := n) change with hs | heq
    · exact Or.inl hs
    · rw [heq]
      exact Or.inr ⟨rfl, fun _ => rfl⟩
  | priority w =>
    rw [State.remove] at h
    obtain ⟨q, hq, h⟩ := Result.bind_eq_ok h
    obtain rfl := Except.ok.inj h
    refine ⟨rfl, ?_⟩
    rcases Pqueue.remove_queue (Result.ofOption_eq_ok hq) with ⟨htrue, hs⟩ | rfl
    · refine Or.inl ⟨htrue, fun x => ?_⟩
      rw [nodeState_putHeap, hs]
      rfl
    · refine Or.inr ⟨rfl, fun x => ?_⟩
      rw [nodeState_putHeap]
      rfl

/-- A node that gets another place in its heap keeps its state. -/
theorem nodeState_moveNode {w : Which} {priority : π} (h : s.moveNode P t w n priority = .ok s') :
    s'.node = s.node ∧ ∀ x, s'.nodeState x = s.nodeState x := by
  obtain ⟨q, hq, h⟩ := Result.bind_eq_ok h
  obtain rfl := Except.ok.inj h
  refine ⟨rfl, fun x => ?_⟩
  rw [nodeState_putHeap, Pqueue.moveNode_queue (Result.ofOption_eq_ok hq)]
  rfl

theorem add_ne_abort {k : Kind} : s.add P t k n ≠ .error .abort := by
  cases k with
  | normal w => simp [State.add]
  | priority w =>
    intro hc
    rw [State.add] at hc
    cases ho : ((s.heaps P t).get w).insert n ((s.node n).getPriority P) <;>
      simp [ho, Result.ofOption, Bind.bind, Except.bind] at hc

theorem add_keeps {k : Kind} (h : SettledBut n s) : Keeps (s.add P t k n) :=
  ⟨fun _ hs => h.settle (not_changing_number k) (nodeState_add hs).2, add_ne_abort⟩

theorem remove_ne_abort {k : Kind} {change : QueueId} :
    s.remove P t k n change ≠ .error .abort := by
  cases k with
  | normal w => simp [State.remove]
  | priority w =>
    intro hc
    rw [State.remove] at hc
    cases ho : ((s.heaps P t).get w).remove n change <;>
      simp [ho, Result.ofOption, Bind.bind, Except.bind] at hc

theorem remove_settled {k : Kind} {change : QueueId} {r : State π × Bool} (h : Settled s)
    (hrem : s.remove P t k n change = .ok r) :
    SettledBut n r.1 ∧ (r.2 = false → Settled r.1) := by
  obtain ⟨-, ⟨htrue, hs⟩ | ⟨-, hs⟩⟩ := nodeState_remove hrem
  · refine ⟨fun x hx => ?_, fun hf => ?_⟩
    · rw [hs x, if_neg hx]
      exact h x
    · rw [htrue] at hf
      exact absurd hf (by decide)
  · have h' : Settled r.1 := h.congr (funext hs)
    exact ⟨h'.but n, fun _ => h'⟩

/-- A node gets another place in its heap, or not. -/
theorem moveNode_keeps {w : Which} {priority : π} {b : Bool} (h : Settled s) :
    Keeps (if b then s.moveNode P t w n priority else .ok s) := by
  cases b with
  | false => exact h.keeps
  | true =>
    refine ⟨fun s' hs => h.congr (funext (nodeState_moveNode hs).2), fun hc => ?_⟩
    simp only [State.moveNode, if_true] at hc
    cases ho : ((s.heaps P t).get w).moveNode n priority <;>
      simp [ho, Result.ofOption, Bind.bind, Except.bind] at hc

theorem shift_keeps {k k' : Kind} {change : QueueId} (h : Settled s) :
    Keeps (s.shift P t k k' n change) := by
  refine keeps_bind remove_ne_abort fun r hr => ?_
  obtain ⟨hbut, hfalse⟩ := remove_settled h hr
  split
  · exact add_keeps hbut
  · next hb => exact (hfalse (by simpa using hb)).keeps

theorem addToQueue_keeps (h : SettledBut n s) : Keeps (s.addToQueue P t n) := add_keeps h

theorem moveNodeToNewOwner_keeps (h : SettledBut n s) : Keeps (s.moveNodeToNewOwner P n t) := by
  refine addToQueue_keeps (h.congr ?_)
  exact funext (edits_justMovedBuffer (P := P) s n).nodeState

/-! ## Coordination -/

theorem doSetNodePriority_keeps {priority : π} {forceQueue : Bool} (h : Settled s) :
    Keeps (doSetNodePriority P s t n priority forceQueue) := by
  rw [doSetNodePriority]
  split
  · exact ((edits_level s n priority).settled h).keeps
  obtain ⟨p, e⟩ := edits_setTemporaryPriorityIf (P := P) s n priority
  have h' := e.settled h
  cases hq : s.nodeState n with
  | stealing | working | prioChange => exact h'.keeps
  | priorityMoving | priorityStatic => exact moveNode_keeps h'
  | normalMoving | normalStatic => exact shift_keeps h'
  | idle =>
    cases forceQueue with
    | false => exact h'.keeps
    | true => exact addToQueue_keeps (h'.but n)
  | staticChange => exact absurd (Or.inr (Or.inl hq)) (h n)
  | affinityChange => exact absurd (Or.inr (Or.inr hq)) (h n)

theorem doSetNodePriorityOther_keeps {priority : π} (h : Settled s) :
    Keeps (doSetNodePriorityOther P s n priority) := by
  rw [doSetNodePriorityOther]
  obtain ⟨p, e⟩ := edits_setTemporaryPriorityIf (P := P) s n priority
  have h' := e.settled h
  cases hq : s.nodeState n with
  | stealing | idle | prioChange => exact h'.keeps
  | working => exact h.keeps
  | priorityMoving | priorityStatic => exact moveNode_keeps h'
  | normalMoving | normalStatic => exact shift_keeps h'
  | staticChange => exact absurd (Or.inr (Or.inl hq)) (h n)
  | affinityChange => exact absurd (Or.inr (Or.inr hq)) (h n)

theorem doRemoveNodePriority_keeps (h : Settled s) : Keeps (doRemoveNodePriority P s t n) := by
  rw [doRemoveNodePriority]
  have h' : Settled (s.removeTemporaryPriority n) := (edits_level s n _).settled h
  cases hq : s.nodeState n with
  | stealing | working | idle | normalMoving | normalStatic => exact h'.keeps
  | priorityMoving | priorityStatic => exact shift_keeps h'
  | prioChange => exact absurd (Or.inl hq) (h n)
  | staticChange => exact absurd (Or.inr (Or.inl hq)) (h n)
  | affinityChange => exact absurd (Or.inr (Or.inr hq)) (h n)

/-- The sibling of `do_remove_node_priority` has no branch for an idle node. -/
theorem doRemoveNodePriorityOther_keeps (h : Settled s) (hidle : s.nodeState n ≠ .idle) :
    Keeps (doRemoveNodePriorityOther P s n) := by
  rw [doRemoveNodePriorityOther]
  have h' : Settled (s.removeTemporaryPriority n) := (edits_level s n _).settled h
  cases hq : s.nodeState n with
  | stealing | normalMoving | normalStatic => exact h'.keeps
  | working => exact h.keeps
  | priorityMoving | priorityStatic => exact shift_keeps h'
  | idle => exact absurd hq hidle
  | prioChange => exact absurd (Or.inl hq) (h n)
  | staticChange => exact absurd (Or.inr (Or.inl hq)) (h n)
  | affinityChange => exact absurd (Or.inr (Or.inr hq)) (h n)

theorem setNodeStatic_keeps (h : Settled s) : Keeps (setNodeStatic P s t n) := by
  have h' : Settled (s.makeNodeStatic n t) := (edits_makeNodeStatic s n t).settled h
  rw [setNodeStatic]
  split
  · exact h.keeps
  split
  · exact h'.keeps
  split
  · exact h.keeps
  cases hq : s.nodeState n with
  | stealing | normalStatic | priorityStatic | idle | working => exact h'.keeps
  | normalMoving | priorityMoving => exact shift_keeps h'
  | prioChange => exact absurd (Or.inl hq) (h n)
  | staticChange => exact absurd (Or.inr (Or.inl hq)) (h n)
  | affinityChange => exact absurd (Or.inr (Or.inr hq)) (h n)

theorem setNodeMoving_keeps (h : Settled s) : Keeps (setNodeMoving P s t n) := by
  have h' : Settled (s.makeNodeMoving n) := (edits_makeNodeMoving s n).settled h
  rw [setNodeMoving]
  split
  · exact h.keeps
  split
  · exact h'.keeps
  split
  · exact h.keeps
  cases hq : s.nodeState n with
  | stealing | normalMoving | priorityMoving | idle | working => exact h'.keeps
  | normalStatic | priorityStatic => exact shift_keeps h'
  | prioChange => exact absurd (Or.inl hq) (h n)
  | staticChange => exact absurd (Or.inr (Or.inl hq)) (h n)
  | affinityChange => exact absurd (Or.inr (Or.inr hq)) (h n)

theorem changeOwner_keeps {k : Kind} {newOwner : ℕ} (h : Settled s) :
    Keeps (changeOwner P s t k n newOwner) := by
  refine keeps_bind remove_ne_abort fun r hr => ?_
  split
  · exact moveNodeToNewOwner_keeps ((remove_settled h hr).1.congr rfl)
  · exact keeps_error (by decide)

theorem setNodeOwner_keeps {newOwner : ℕ} (h : Settled s) :
    Keeps (setNodeOwner P s t n newOwner) := by
  have hmoved : ∀ s : State π, Settled s → Settled (s.justMovedBuffer P n) := fun s h =>
    (edits_justMovedBuffer (P := P) s n).settled h
  have h' : Settled (s.makeNodeStatic n newOwner) := (edits_makeNodeStatic s n newOwner).settled h
  have h'' : Settled ((s.makeNodeStatic n newOwner).setOwner n newOwner) := h'.congr rfl
  rw [setNodeOwner]
  split
  · refine keeps_bind ?_ fun s₁ hs₁ => ?_
    · split
      · rw [State.justMoved]
        cases P.justMoved with
        | none => simp
        | some p =>
          intro hc
          cases ho : (s.node n).db.addLinearFact P.work p.2 p.1 <;>
            simp [ho, Result.ofOption, Bind.bind, Except.bind] at hc
      · simp
    · have hs : Settled s₁ := by
        split at hs₁
        · obtain ⟨db, e, -⟩ := edits_justMoved hs₁
          exact e.settled h
        · obtain rfl := Except.ok.inj hs₁
          exact h
      exact ((edits_makeNodeStatic s₁ n newOwner).settled hs).keeps
  simp only
  split
  · exact (hmoved _ h').keeps
  cases hq : s.nodeState n with
  | stealing => exact h''.keeps
  | working => exact h'.keeps
  | idle => exact (hmoved _ h'').keeps
  | normalStatic | normalMoving | priorityMoving | priorityStatic => exact changeOwner_keeps h'
  | prioChange => exact absurd (Or.inl hq) (h n)
  | staticChange => exact absurd (Or.inr (Or.inl hq)) (h n)
  | affinityChange => exact absurd (Or.inr (Or.inr hq)) (h n)

/-! ## The life of a node -/

omit [LinearOrder π] in
theorem working_ne_abort {phase : Phase} : working s t phase ≠ .error .abort := by
  rw [working]
  split
  · cases (s.thread t).currentNode <;> simp
  · simp

theorem initNode_keeps (h : Settled s) : Keeps (initNode P s t n) := by
  rw [initNode]
  split
  · exact keeps_error (by decide)
  refine keeps_bind (ofOption_ne_abort _) fun db _ => ?_
  split
  · exact add_keeps ((h.congr rfl).but n)
  · refine ((h.but n).settle (not_changing_number (.priority .moving)) fun x => ?_).keeps
    rw [nodeState_putHeap, initialFastInsert, Pqueue.pushBack_queue, Pqueue.setQueue_queue,
      Pqueue.setPriority_queue]
    rfl

theorem newWork_keeps {w : Work} {locked : Bool} (h : Settled s) :
    Keeps (newWork P s t n w locked) := by
  refine keeps_bind (ofOption_ne_abort _) fun db _ => ?_
  have h' : Settled (s.setNode n { s.node n with db := db }) := h.congr rfl
  simp only
  split
  · exact addToQueue_keeps (h'.but n)
  · exact h'.keeps

theorem not_changing_working : ¬ Changing .working := by
  rintro (h | h | h) <;> exact absurd h (by decide)

theorem not_changing_stealing : ¬ Changing .stealing := by
  rintro (h | h | h) <;> exact absurd h (by decide)

/-- `pop_best` changes no state but to the new one. -/
theorem popBest_queue {w : Which} {newState : QueueId} {r : Priorities ℕ π × Option ℕ}
    (h : (s.heaps P t).popBest w newState = some r) (x : ℕ) :
    (r.1.obj x).queue = s.nodeState x ∨ (r.1.obj x).queue = newState := by
  have hpop : ∀ w, (((s.heaps P t).get w).doPop newState).bind
      (fun r₁ => some ((s.heaps P t).put w r₁.1, r₁.2)) = some r →
      (r.1.obj x).queue = s.nodeState x ∨ (r.1.obj x).queue = newState := by
    intro w hw
    obtain ⟨r₁, hr₁, hw⟩ := Option.bind_eq_some_iff.mp hw
    obtain rfl := Option.some.inj hw
    rw [Priorities.obj_put]
    exact Pqueue.doPop_queue hr₁ x
  rw [Priorities.popBest] at h
  split at h
  · obtain rfl := Option.some.inj h
    exact Or.inl rfl
  · exact hpop _ h
  · exact hpop _ h
  · split at h
    · exact hpop _ h
    · exact hpop _ h

theorem popBest_keeps (h : Settled s) : Keeps (popBest P s t) := by
  rw [popBest]
  split
  · exact keeps_error (by decide)
  refine keeps_bind (ofOption_ne_abort _) fun r hr => ?_
  refine (h.of_or not_changing_working fun x => ?_).keeps
  exact popBest_queue (Result.ofOption_eq_ok hr) x

omit [LinearOrder π] in
theorem popNormal_keeps {w : Which} (h : Settled s) : Keeps (popNormal s t w) := by
  rw [popNormal]
  split
  · exact keeps_error (by decide)
  · refine (h.of_or not_changing_working fun x => ?_).keeps
    exact DoubleQueue.popHead_queue .working x

/-- `steal_nodes` changes no node, and no state but to `STATE_STEALING`. -/
theorem nodeState_stealNodes {u max : ℕ} {r : State π × List ℕ}
    (hr : stealNodes P s u max = .ok r) : r.1.node = s.node ∧
      ∀ x, r.1.nodeState x = s.nodeState x ∨ r.1.nodeState x = .stealing := by
  have hsame : (stealStart s u).node = s.node ∧ (stealStart s u).nodeState = s.nodeState :=
    ⟨rfl, rfl⟩
  rw [← hsame.1, ← hsame.2]
  obtain hr | hr | rfl := stealNodes_cases hr
  · obtain ⟨q, hq, hr⟩ := Result.bind_eq_ok hr
    obtain rfl := Except.ok.inj hr
    exact ⟨rfl, DoubleQueue.popTailHalf_queue (Result.ofOption_eq_ok hq)⟩
  · obtain ⟨q, hq, hr⟩ := Result.bind_eq_ok hr
    obtain rfl := Except.ok.inj hr
    refine ⟨rfl, fun x => ?_⟩
    rw [nodeState_putHeap]
    exact Pqueue.popHalf_queue (Result.ofOption_eq_ok hq) x
  · exact ⟨rfl, fun _ => Or.inl rfl⟩

/-- `steal` changes no node, and no state but to `STATE_STEALING`. -/
theorem nodeState_steal {u : ℕ} (hs : steal P s t u = .ok s') : s'.node = s.node ∧
    ∀ x, s'.nodeState x = s.nodeState x ∨ s'.nodeState x = .stealing := by
  rw [steal] at hs
  split at hs
  · exact absurd hs (by simp)
  obtain ⟨r, hr, hs⟩ := Result.bind_eq_ok hs
  obtain rfl := Except.ok.inj hs
  exact nodeState_stealNodes hr

theorem steal_settled {u : ℕ} (h : Settled s) (hs : steal P s t u = .ok s') : Settled s' :=
  h.of_or not_changing_stealing (nodeState_steal hs).2

theorem adopt_keeps (h : Settled s) : Keeps (adopt P s t) := by
  rw [adopt]
  split
  · exact keeps_error (by decide)
  next n rest _ =>
  have h' : Settled (s.setThread t { s.thread t with buffer := rest }) := h.congr rfl
  simp only
  split
  · exact h'.keeps
  split
  · exact moveNodeToNewOwner_keeps (h'.but n)
  · split
    · exact addToQueue_keeps
        ((((edits_makeNodeStatic _ n t).settled h').congr rfl).but n)
    · exact addToQueue_keeps ((h'.congr rfl).but n)

theorem handOver_keeps (h : Settled s) : Keeps (handOver P s t) := by
  refine keeps_bind working_ne_abort fun n _ => ?_
  cases (s.node n).static with
  | none => exact keeps_error (by decide)
  | some newOwner =>
    obtain ⟨hsettled, habort⟩ := moveNodeToNewOwner_keeps (P := P) (t := newOwner) (n := n)
      (s := (s.setOwner n newOwner).removeTemporaryPriority n) ((h.congr rfl).but n)
    refine keeps_bind habort fun s₁ hs₁ => ?_
    have h₁ : Settled (s₁.setCurrent t none) := (hsettled s₁ hs₁).congr rfl
    exact h₁.keeps

omit [LinearOrder π] in
theorem finish_keeps (h : Settled s) : Keeps (finish s t) := by
  refine keeps_bind working_ne_abort fun n _ => ?_
  simp only
  split
  · refine ((h.but n).settle (q := .idle) ?_ fun x => ?_).keeps
    · rintro (hc | hc | hc) <;> exact absurd hc (by decide)
    · by_cases hx : x = n
      · subst hx
        simp [State.nodeState, makeInactive, removeTemporaryPriority, setNode, setCurrent,
          setThread]
      · simp [State.nodeState, makeInactive, removeTemporaryPriority, setNode, setCurrent,
          setThread, hx]
  · have h' : Settled (s.setThread t { s.thread t with phase := .running }) := h.congr rfl
    exact h'.keeps

/-! ## Runs -/

/-- **The call that aborts**: a thread removes the priority of an idle node of another thread. -/
def Forgotten (P : Program π) (s : State π) : Event π → Prop
  | .removeNodePriority t n => s.started = true ∧ P.schedulingMechanism = true ∧
      (s.thread t).currentNode ≠ some n ∧ (s.node n).owner ≠ t ∧ s.nodeState n = .idle
  | _ => False

theorem removeNodePriority_keeps (h : Settled s) (hst : s.started = true)
    (hf : ¬ Forgotten P s (.removeNodePriority t n)) : Keeps (removeNodePriority P s t n) := by
  rw [removeNodePriority]
  split
  · exact h.keeps
  next hon =>
  split
  · have h' : Settled (s.removeTemporaryPriority n) := (edits_level s n _).settled h
    exact h'.keeps
  next hcur =>
  split
  · exact doRemoveNodePriority_keeps h
  next ho =>
  exact doRemoveNodePriorityOther_keeps h fun hidle => hf ⟨hst, by simpa using hon, hcur, ho, hidle⟩

theorem removeNodePriority_abort (hf : Forgotten P s (.removeNodePriority t n)) :
    removeNodePriority P s t n = .error .abort := by
  obtain ⟨-, hon, hcur, ho, hidle⟩ := hf
  rw [removeNodePriority, if_neg (by simp [hon]), if_neg hcur, if_neg ho,
    doRemoveNodePriorityOther]
  simp only [hidle]

theorem setNodePriority_keeps {priority : π} (h : Settled s) :
    Keeps (setNodePriority P s t n priority) := by
  rw [setNodePriority]
  split
  · exact h.keeps
  split
  · exact h.keeps
  split
  · exact doSetNodePriority_keeps h
  · exact doSetNodePriorityOther_keeps h

theorem addNodePriority_keeps {priority : π} (h : Settled s) :
    Keeps (addNodePriority P s t n priority) := by
  rw [addNodePriority]
  split
  · exact h.keeps
  split
  · exact h.keeps
  simp only
  split
  · exact doSetNodePriority_keeps h
  · exact doSetNodePriorityOther_keeps h

theorem setNodeCpu_keeps {newOwner : ℕ} (h : Settled s) : Keeps (setNodeCpu P s t n newOwner) := by
  rw [setNodeCpu]
  split
  · exact h.keeps
  · exact setNodeOwner_keeps h

/-- **Every coordination operation but the forgotten one.** -/
theorem coordinated_keeps (h : Settled s) (hst : s.started = true) {e : Event π}
    (he : e.coordinated.isSome) (hf : ¬ Forgotten P s e) : Keeps (act P s e) := by
  cases e with
  | setNodePriority t n priority => exact setNodePriority_keeps h
  | addNodePriority t n priority => exact addNodePriority_keeps h
  | removeNodePriority t n => exact removeNodePriority_keeps h hst hf
  | setDefaultNodePriority t n priority =>
    show Keeps (setDefaultNodePriority P s n priority)
    rw [setDefaultNodePriority]
    split
    · exact h.keeps
    · exact ((edits_setNode s n _).settled h).keeps
  | scheduleNext t n =>
    show Keeps (scheduleNext P s t n)
    rw [scheduleNext]
    split
    · exact doSetNodePriority_keeps h
    · exact h.keeps
  | setNodeStatic t n => exact setNodeStatic_keeps h
  | setNodeMoving t n => exact setNodeMoving_keeps h
  | setNodeCpu t n newOwner => exact setNodeCpu_keeps h
  | setNodeAffinity t n affinity =>
    show Keeps (setNodeCpu P s t n (s.node affinity).owner)
    exact setNodeCpu_keeps h
  | initNode | synchronize | newWork | popBest | popNormal | takeFacts | runRules | seeNewOwner
  | check | handOver | finish | steal | adopt => exact absurd he (by simp [Event.coordinated])

/-- **A step leaves no node between two queues.** -/
theorem act_settled (h : Settled s) (hst : s.started = true) {e : Event π}
    (hs : act P s e = .ok s') : Settled s' := by
  have hcoord : e.coordinated.isSome → Settled s' := by
    intro he
    refine (coordinated_keeps h hst he fun hf => ?_).settled s' hs
    cases e with
    | removeNodePriority t n =>
      have habort : act P s (.removeNodePriority t n) = .error .abort :=
        removeNodePriority_abort hf
      rw [habort] at hs
      exact absurd hs (by simp)
    | _ => exact hf
  cases e with
  | initNode | synchronize => exact absurd hs (by simp [act])
  | newWork t n w locked => exact (newWork_keeps h).settled s' hs
  | popBest t => exact (popBest_keeps h).settled s' hs
  | popNormal t w => exact (popNormal_keeps h).settled s' hs
  | takeFacts t =>
    obtain ⟨n, db, -, -, -, e⟩ := takeFacts_edits hs
    exact e.settled h
  | runRules t linear matcher =>
    obtain ⟨n, -, -, e⟩ := runRules_edits hs
    exact e.settled h
  | seeNewOwner t =>
    obtain ⟨n, facts, -, -, -, e⟩ := seeNewOwner_edits hs
    exact e.settled h
  | check t =>
    obtain ⟨n, -, hs⟩ := Result.bind_eq_ok hs
    obtain rfl := Except.ok.inj hs
    exact h.congr rfl
  | handOver t => exact (handOver_keeps h).settled s' hs
  | finish t => exact (finish_keeps h).settled s' hs
  | steal t u => exact steal_settled h hs
  | adopt t => exact (adopt_keeps h).settled s' hs
  | setNodePriority | addNodePriority | removeNodePriority | setDefaultNodePriority
  | scheduleNext | setNodeStatic | setNodeMoving | setNodeCpu | setNodeAffinity => exact hcoord rfl

theorem step_settled (h : Settled s) {e : Event π} (hs : step P s e = .ok s') : Settled s' := by
  rcases step_cases hs with ⟨t, n, rfl, -, hs⟩ | ⟨rfl, -, rfl⟩ | ⟨hst, hs⟩
  · exact (initNode_keeps h).settled s' hs
  · exact h.congr rfl
  · exact act_settled h hst hs

theorem reach_settled {allowed : State π → Event π → Prop} (h : Reach P N allowed s) :
    Settled s := by
  induction h with
  | init h =>
    intro x
    rw [h.nodeState x]
    rintro (hc | hc | hc) <;> exact absurd hc (by decide)
  | step _ _ _ hstep ih => exact step_settled ih hstep

theorem step_coordinated {e : Event π} (he : e.coordinated.isSome) :
    step P s e = if s.started = true then act P s e else .error .disabled := by
  cases e with
  | initNode | synchronize => exact absurd he (by simp [Event.coordinated])
  | _ => rfl

/-- **In every state of every run a coordination operation comes to no `abort()`, except for the
forgotten call.** -/
theorem coordinated_ne_abort_iff (h : Reach P N (fun _ _ => True) s) {e : Event π}
    (he : e.coordinated.isSome) : step P s e ≠ .error .abort ↔ ¬ Forgotten P s e := by
  rw [step_coordinated he]
  constructor
  · intro hne hf
    cases e with
    | removeNodePriority t n =>
      rw [if_pos hf.1] at hne
      exact hne (removeNodePriority_abort hf)
    | _ => exact hf
  · intro hf
    split
    · next hst => exact (coordinated_keeps (reach_settled h) hst he hf).abort
    · simp

/-- The second thread removes the priority of a node that waits in a queue of the first. -/
theorem coordinated_ne_abort_waiting : ∃ s,
    run (scheduled false) 1 (fun _ _ => True) start [.initNode 0 1, .synchronize] = some s ∧
      step (scheduled false) s (.removeNodePriority 1 1) ≠ .error .abort := by
  have hend : (run (scheduled false) 1 (fun _ _ => True) start [.initNode 0 1, .synchronize]).map
      (fun s => s.nodeState 1) = some .normalMoving := by decide +kernel
  obtain ⟨s, hrun, hstate⟩ := Option.map_eq_some_iff.mp hend
  refine ⟨s, hrun, (coordinated_ne_abort_iff ((Reach.init initial_start).run hrun) rfl).mpr ?_⟩
  rintro ⟨-, -, -, -, hidle⟩
  exact absurd (hstate.symm.trans hidle) (by decide)

/-- The first thread runs its node until nothing is left, and the second removes the priority of the
node. -/
def foreignIdle : List (Event ℕ) :=
  [.initNode 0 1, .synchronize, .popNormal 0 .moving, .takeFacts 0, .check 0, .finish 0]

/-- **The call that aborts.** -/
theorem not_forall_ne_abort : ¬ ∀ (s : State ℕ) (e : Event ℕ),
    Reach (scheduled false) 1 (fun _ _ => True) s → e.coordinated.isSome →
      step (scheduled false) s e ≠ .error .abort := by
  intro hall
  have hend : (run (scheduled false) 1 (fun _ _ => True) start foreignIdle).map (fun s =>
      (s.started, (s.thread 1).currentNode, (s.node 1).owner, s.nodeState 1)) =
      some (true, none, 0, .idle) := by decide +kernel
  obtain ⟨s, hrun, hs⟩ := Option.map_eq_some_iff.mp hend
  simp only [Prod.mk.injEq] at hs
  obtain ⟨hst, hcur, ho, hidle⟩ := hs
  refine hall s (.removeNodePriority 1 1) ((Reach.init initial_start).run hrun) rfl ?_
  rw [step_coordinated rfl, if_pos hst]
  exact removeNodePriority_abort ⟨hst, rfl, by rw [hcur]; simp, by rw [ho]; decide, hidle⟩

end Coord
end Meld
