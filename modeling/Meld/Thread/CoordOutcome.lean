import Meld.Thread.CoordQueues

/-!
# Operations on one node

An operation on a node changes its record, its state and the queues it leaves and comes to.  The
operations of `coord.cpp` are followed case by case here, for states in which every node is in its
place.

* `Book P N s`: the node that a thread works on, stolen nodes, and the nodes that are nowhere.
* `Inv P N s`: the queues are right, and so is the rest.
* `Edits s s' n r`: only the record of `n` has changed.
* `Outcome P s s' n q r`: what an operation on `n` leaves, with the state `q` and the record `r`.
* `Requeued`, `Reassigned`: the outcomes of the coordination operations.
-/

namespace Meld
namespace Coord

open State

variable {π : Type} [LinearOrder π] {P : Program π} {s s' : State π} {N : ℕ}

/-- A node between two queues. -/
def Changing (q : QueueId) : Prop := q = .prioChange ∨ q = .staticChange ∨ q = .affinityChange

/-- **What holds outside the queues.**  Before the threads have started, all nodes in heaps have the
initial priority. -/
structure Book (P : Program π) (N : ℕ) (s : State π) : Prop where
  bounded : Bounded N s
  settled : ∀ x, ¬ Changing (s.nodeState x)
  current : ∀ t n, (s.thread t).currentNode = some n →
    s.nodeState n = .working ∧ (s.node n).owner = t
  working : ∀ n, s.nodeState n = .working → (s.thread (s.node n).owner).currentNode = some n
  stealing : ∀ n, s.nodeState n = .stealing → ∃ t, n ∈ (s.thread t).buffer
  fresh : s.started = false → ∀ w x, s.nodeState x = (Kind.priority w).number →
    P.initialPriority ≠ P.noPriority ∧ (s.obj P x).priority = P.initialPriority

/-- **The invariant.** -/
structure Inv (P : Program π) (N : ℕ) (s : State π) : Prop where
  queued : ∃ M, Queued P s M
  book : Book P N s

/-! ## Steps on one node -/

/-- Only the node `n`, its state and the queues have changed. -/
structure Handles (s s' : State π) (n : ℕ) : Prop where
  node : ∀ x, x ≠ n → s'.node x = s.node x
  started : s'.started = s.started
  thread : ∀ t, (s.thread t).Same (s'.thread t)
  nodeState : ∀ x, x ≠ n → s'.nodeState x = s.nodeState x

section Handles

variable {n : ℕ}

omit [LinearOrder π] in

omit [LinearOrder π] in
theorem Handles.trans {s'' : State π} (h : Handles s s' n) (h' : Handles s' s'' n) :
    Handles s s'' n :=
  ⟨fun x hx => (h'.node x hx).trans (h.node x hx), h'.started.trans h.started,
    fun t => (h.thread t).trans (h'.thread t),
    fun x hx => (h'.nodeState x hx).trans (h.nodeState x hx)⟩

omit [LinearOrder π] in
theorem Places.handles {q : QueueId} (h : Places s s' [n] q) : Handles s s' n :=
  ⟨fun x _ => by rw [h.node], h.started, h.thread, fun x hx => h.elsewhere x (by simpa using hx)⟩

/-- Only the record of the node `n` has changed, to `r`, and numbers of static nodes. -/
structure Edits (s s' : State π) (n : ℕ) (r : Node π) : Prop where
  node : s'.node = Function.update s.node n r
  link : s'.link = s.link
  started : s'.started = s.started
  thread : ∀ t, (s.thread t).Same (s'.thread t)
  queue : ∀ t k, SameQueue s s' t k

omit [LinearOrder π] in
theorem SameQueue.refl (s : State π) (t : ℕ) (k : Kind) : SameQueue s s t k := by
  cases k <;> rfl

omit [LinearOrder π] in
theorem SameQueue.trans {s'' : State π} {t : ℕ} {k : Kind} (h : SameQueue s s' t k)
    (h' : SameQueue s' s'' t k) : SameQueue s s'' t k := by
  cases k with
  | normal w => exact Eq.trans h' h
  | priority w => exact Eq.trans h' h

omit [LinearOrder π] in
theorem edits_setNode (s : State π) (n : ℕ) (r : Node π) : Edits s (s.setNode n r) n r :=
  ⟨rfl, rfl, rfl, fun _ => Thread.Same.refl _, fun _ _ => SameQueue.refl s _ _⟩

omit [LinearOrder π] in
theorem Edits.refl (s : State π) (n : ℕ) : Edits s s n (s.node n) :=
  ⟨(Function.update_eq_self n s.node).symm, rfl, rfl, fun _ => Thread.Same.refl _,
    fun _ _ => SameQueue.refl s _ _⟩

omit [LinearOrder π] in
theorem Edits.trans {s'' : State π} {r r' : Node π} (h : Edits s s' n r) (h' : Edits s' s'' n r') :
    Edits s s'' n r' := by
  refine ⟨?_, h'.link.trans h.link, h'.started.trans h.started,
    fun t => (h.thread t).trans (h'.thread t), fun t k => (h.queue t k).trans (h'.queue t k)⟩
  rw [h'.node, h.node, Function.update_idem]

omit [LinearOrder π] in
theorem Edits.record {r : Node π} (h : Edits s s' n r) : s'.node n = r := by
  rw [h.node, Function.update_self]

omit [LinearOrder π] in
theorem Edits.nodeState {r : Node π} (h : Edits s s' n r) (x : ℕ) :
    s'.nodeState x = s.nodeState x := by
  rw [State.nodeState, h.link]
  rfl

omit [LinearOrder π] in
theorem Edits.handles {r : Node π} (h : Edits s s' n r) : Handles s s' n :=
  ⟨fun x hx => by rw [h.node, Function.update_of_ne hx], h.started, h.thread,
    fun x _ => h.nodeState x⟩

omit [LinearOrder π] in
/-- A number of static nodes changes. -/
theorem edits_countStatic (t : ℕ) (d : BitVec 64) :
    Edits s (s.countStatic t d) n (s.node n) := by
  refine ⟨(Function.update_eq_self n s.node).symm, rfl, rfl, ?_, ?_⟩
  · intro t'
    by_cases ht : t' = t
    · subst ht
      simp only [countStatic, setThread, Function.update_self]
      exact ⟨rfl, rfl, rfl, rfl⟩
    · simp only [countStatic, setThread, Function.update_of_ne ht]
      exact Thread.Same.refl _
  · intro t' k
    by_cases ht : t' = t
    · subst ht
      cases k <;> simp only [SameQueue, countStatic, setThread, Function.update_self]
    · cases k <;> simp only [SameQueue, countStatic, setThread, Function.update_of_ne ht]

omit [LinearOrder π] in
theorem edits_uncountStatic : Edits s (s.uncountStatic n) n (s.node n) := by
  rw [uncountStatic]
  split
  · exact edits_countStatic _ _
  · exact Edits.refl s n

omit [LinearOrder π] in
theorem edits_makeNodeStatic (s : State π) (n target : ℕ) :
    Edits s (s.makeNodeStatic n target) n { s.node n with static := some target } := by
  have h : Edits s _ n _ := edits_uncountStatic.trans (edits_countStatic target 1)
  have h' := h.trans (edits_setNode _ n { s.node n with static := some target })
  have hnode : ((s.uncountStatic n).countStatic target 1).node n = s.node n :=
    h.record.trans edits_uncountStatic.record
  rw [makeNodeStatic, hnode]
  exact h'

omit [LinearOrder π] in
theorem edits_makeNodeMoving (s : State π) (n : ℕ) :
    Edits s (s.makeNodeMoving n) n { s.node n with static := none } := by
  have h' := edits_uncountStatic.trans
    (edits_setNode (s.uncountStatic n) n { s.node n with static := none })
  have hnode : (s.uncountStatic n).node n = s.node n := edits_uncountStatic.record
  rw [makeNodeMoving, hnode]
  exact h'

/-- The database of a node after `just_moved_buffer`. -/
def movedDb (P : Program π) (db : DbNode) : DbNode :=
  match P.justMoved with
  | some (pred, tpl) => db.innerAddWorkOthers tpl pred .positive 0
  | none => db

omit [LinearOrder π] in
theorem edits_justMovedBuffer (s : State π) (n : ℕ) :
    Edits s (s.justMovedBuffer P n) n { s.node n with db := movedDb P (s.node n).db } := by
  cases hmoved : P.justMoved with
  | none =>
    simp only [justMovedBuffer, movedDb, hmoved]
    exact Edits.refl s n
  | some p =>
    obtain ⟨pred, tpl⟩ := p
    simp only [justMovedBuffer, movedDb, hmoved]
    exact edits_setNode s n _

/-- **What an operation on the node `n` leaves**: its state is `q` and its record `r`. -/
structure Outcome (P : Program π) (s s' : State π) (n : ℕ) (q : QueueId) (r : Node π) : Prop where
  handles : Handles s s' n
  queued : ∃ M, Queued P s' M
  state : s'.nodeState n = q
  record : s'.node n = r

theorem Edits.outcome {M : ℕ → Kind → List ℕ} {r : Node π} (e : Edits s s' n r) (h : Queued P s M)
    (ho : r.owner = (s.node n).owner ∨ Unqueued (s.nodeState n)) :
    Outcome P s s' n (s.nodeState n) r := by
  refine ⟨e.handles, ⟨M, h.congr e.link e.queue ?_⟩, e.nodeState n, e.record⟩
  intro x
  by_cases hx : x = n
  · subst hx
    rw [e.record]
    exact ho
  · exact Or.inl (by rw [e.handles.node x hx])

theorem Outcome.place {s'' : State π} {q q' : QueueId} {r : Node π} (o : Outcome P s s' n q r)
    (hM : ∃ M, Queued P s'' M) (hp : Places s' s'' [n] q') : Outcome P s s'' n q' r :=
  ⟨o.handles.trans hp.handles, hM, hp.self n (List.mem_singleton_self n), by rw [hp.node, o.record]⟩

theorem Outcome.bounded {q : QueueId} {r : Node π} (o : Outcome P s s' n q r) (hb : Bounded N s)
    (hn : 0 < n ∧ n ≤ N) : Bounded N s' := by
  intro x hx
  by_cases hxn : x = n
  · rw [hxn]
    exact hn
  · rw [o.handles.nodeState x hxn] at hx
    exact hb x hx

section Continue

variable {s₁ : State π} {q : QueueId} {r : Node π} {t : ℕ}

theorem Outcome.shift {k k' : Kind} {change : QueueId} (o : Outcome P s s₁ n k.number r)
    (hN : N < 2 ^ 30) (hb : Bounded N s₁) (ho : r.owner = t) (hq : Unqueued change)
    (hs : s₁.shift P t k k' n change = .ok s') : Outcome P s s' n k'.number r := by
  obtain ⟨M, hM⟩ := o.queued
  have hmem : n ∈ M t k := (hM.mem t k n).mpr ⟨by rw [o.record]; exact ho, o.state⟩
  obtain ⟨s₂, heq, hM₂, hp⟩ := hM.shift hN hb hmem k' hq
  rw [heq] at hs
  obtain rfl := Except.ok.inj hs
  exact o.place hM₂ hp

theorem Outcome.moveNode {w : Which} {priority : π}
    (o : Outcome P s s₁ n (Kind.priority w).number r) (hN : N < 2 ^ 30) (hb : Bounded N s₁)
    (ho : r.owner = t) (hs : s₁.moveNode P t w n priority = .ok s') :
    Outcome P s s' n (Kind.priority w).number r := by
  obtain ⟨M, hM⟩ := o.queued
  have hmem : n ∈ M t (.priority w) :=
    (hM.mem t (.priority w) n).mpr ⟨by rw [o.record]; exact ho, o.state⟩
  obtain ⟨s₂, heq, hM₂, hp⟩ := hM.moveNode hN hb hmem priority
  rw [heq] at hs
  obtain rfl := Except.ok.inj hs
  exact o.place hM₂ hp

/-- The queue that is for a node. -/
def Node.kind (P : Program π) (r : Node π) : Kind :=
  if r.hasPriority P then .priority r.which else .normal r.which

theorem Outcome.add {k : Kind} (o : Outcome P s s₁ n q r) (hN : N < 2 ^ 30) (hb : Bounded N s₁)
    (hn : 0 < n ∧ n ≤ N) (hq : Unqueued q) (ho : r.owner = t) (hs : s₁.add P t k n = .ok s') :
    Outcome P s s' n k.number r := by
  obtain ⟨M, hM⟩ := o.queued
  have howner : (s₁.node n).owner = t := by rw [o.record]; exact ho
  obtain ⟨s₂, heq, hM₂, hp⟩ := hM.add hN hb (by rw [o.state]; exact hq) hn howner k
  rw [heq] at hs
  obtain rfl := Except.ok.inj hs
  exact o.place hM₂ hp

theorem Outcome.addToQueue (o : Outcome P s s₁ n q r) (hN : N < 2 ^ 30) (hb : Bounded N s₁)
    (hn : 0 < n ∧ n ≤ N) (hq : Unqueued q) (ho : r.owner = t)
    (hs : s₁.addToQueue P t n = .ok s') : Outcome P s s' n (r.kind P).number r := by
  rw [State.addToQueue, o.record] at hs
  exact o.add hN hb hn hq ho hs

/-- A further change of the record. -/
theorem Outcome.edit {r' : Node π} (o : Outcome P s s₁ n q r) (e : Edits s₁ s' n r')
    (ho : r'.owner = r.owner ∨ Unqueued q) : Outcome P s s' n q r' := by
  obtain ⟨M, hM⟩ := o.queued
  have o' := e.outcome hM (by rw [o.record, o.state]; exact ho)
  exact ⟨o.handles.trans o'.handles, o'.queued, o'.state.trans o.state, o'.record⟩

/-- **`move_node_to_new_owner`**, for a node that has its new owner already. -/
theorem Outcome.moveNodeToNewOwner (o : Outcome P s s₁ n q r) (hN : N < 2 ^ 30) (hb : Bounded N s)
    (hn : 0 < n ∧ n ≤ N) (hq : Unqueued q) (ho : r.owner = t)
    (hs : s₁.moveNodeToNewOwner P n t = .ok s') :
    Outcome P s s' n (Node.kind P r).number { r with db := movedDb P r.db } := by
  have e := edits_justMovedBuffer (P := P) s₁ n
  rw [o.record] at e
  have o' := o.edit e (Or.inl rfl)
  exact o'.addToQueue hN (o'.bounded hb hn) hn hq ho hs

end Continue

/-! ## The rest of the state -/

/-- What may happen to a node outside pops: it keeps its state, or it comes to a queue, and a node
that is worked on does neither change its owner nor come to a queue. -/
def Admits (s : State π) (n : ℕ) (q : QueueId) (r : Node π) : Prop :=
  (q = s.nodeState n ∧ (r.owner = (s.node n).owner ∨ s.nodeState n ≠ .working)) ∨
    (s.nodeState n ≠ .working ∧ ∃ k : Kind, q = k.number)

@[simp] theorem unqueued_idle : Unqueued .idle := fun k => k.number_ne_idle.symm

@[simp] theorem unqueued_working : Unqueued .working := by
  intro k
  rcases k with (_ | _) | (_ | _) <;> decide

@[simp] theorem unqueued_stealing : Unqueued .stealing := by
  intro k
  rcases k with (_ | _) | (_ | _) <;> decide

theorem unqueued_of_changing {q : QueueId} (h : Changing q) : Unqueued q := by
  intro k
  rcases h with rfl | rfl | rfl <;> rcases k with (_ | _) | (_ | _) <;> decide

/-! ## Changes of the queue -/

/-- What an operation leaves that keeps the owner: another record, and perhaps another queue. -/
def Requeued (P : Program π) (s s' : State π) (n : ℕ) (r : Node π) : Prop :=
  ∃ q, Outcome P s s' n q r ∧
    (q = s.nodeState n ∨ s.nodeState n ≠ .working ∧ ∃ k : Kind, q = k.number)

section Requeued

variable {r : Node π} {t : ℕ}

theorem Requeued.admits (h : Requeued P s s' n r) (ho : r.owner = (s.node n).owner) :
    ∃ q, Outcome P s s' n q r ∧ Admits s n q r := by
  obtain ⟨q, o, hq⟩ := h
  refine ⟨q, o, ?_⟩
  rcases hq with hq | hq
  · exact Or.inl ⟨hq, Or.inl ho⟩
  · exact Or.inr hq

/-- Only the record changes. -/
theorem Edits.requeued (e : Edits s s' n r) (I : Inv P N s) (ho : r.owner = (s.node n).owner) :
    Requeued P s s' n r := by
  obtain ⟨M, hM⟩ := I.queued
  exact ⟨_, e.outcome hM (Or.inl ho), Or.inl rfl⟩

/-- After the record the queue changes. -/
theorem Edits.shift {s₁ : State π} {k k' : Kind} {change : QueueId} (e : Edits s s₁ n r)
    (I : Inv P N s) (hN : N < 2 ^ 30) (hn : 0 < n ∧ n ≤ N) (ho : r.owner = (s.node n).owner)
    (hq : Changing change) (hs : s₁.shift P t k k' n change = .ok s')
    (hk : s.nodeState n = k.number) (ht : (s.node n).owner = t) : Requeued P s s' n r := by
  obtain ⟨M, hM⟩ := I.queued
  have o := e.outcome hM (Or.inl ho)
  rw [hk] at o
  refine ⟨_, o.shift hN (o.bounded I.book.bounded hn) (ho.trans ht) (unqueued_of_changing hq) hs,
    Or.inr ⟨?_, k', rfl⟩⟩
  rw [hk]
  exact (unqueued_working k).symm

/-- After the record the place in the heap changes. -/
theorem Edits.moveNode {s₁ : State π} {w : Which} {priority : π} {b : Bool} (e : Edits s s₁ n r)
    (I : Inv P N s) (hN : N < 2 ^ 30) (hn : 0 < n ∧ n ≤ N) (ho : r.owner = (s.node n).owner)
    (hs : (if b then s₁.moveNode P t w n priority else .ok s₁) = .ok s')
    (hk : s.nodeState n = (Kind.priority w).number) (ht : (s.node n).owner = t) :
    Requeued P s s' n r := by
  obtain ⟨M, hM⟩ := I.queued
  have o := e.outcome hM (Or.inl ho)
  cases b with
  | false =>
    obtain rfl := Except.ok.inj hs
    exact ⟨_, o, Or.inl rfl⟩
  | true =>
    rw [hk] at o
    exact ⟨_, o.moveNode hN (o.bounded I.book.bounded hn) (ho.trans ht) hs, Or.inl hk.symm⟩

end Requeued

/-! ## Priorities -/

/-- What a change of priority leaves: another level. -/
def Prioritised (P : Program π) (s s' : State π) (n : ℕ) : Prop :=
  ∃ p, Requeued P s s' n { s.node n with priorityLevel := p }

omit [LinearOrder π] in
theorem edits_level (s : State π) (n : ℕ) (p : π) :
    Edits s (s.setNode n { s.node n with priorityLevel := p }) n
      { s.node n with priorityLevel := p } := edits_setNode s n _

theorem edits_setTemporaryPriorityIf (s : State π) (n : ℕ) (priority : π) :
    ∃ p, Edits s (s.setTemporaryPriorityIf P n priority).1 n
      { s.node n with priorityLevel := p } := by
  simp only [State.setTemporaryPriorityIf, Node.setTemporaryPriorityIf]
  split
  · exact ⟨priority, edits_level s n priority⟩
  · exact ⟨(s.node n).priorityLevel, edits_setNode s n _⟩

theorem doSetNodePriority_prioritised (I : Inv P N s) (hN : N < 2 ^ 30) (hn : 0 < n ∧ n ≤ N)
    {t : ℕ} (ho : (s.node n).owner = t) {priority : π} {forceQueue : Bool}
    (h : doSetNodePriority P s t n priority forceQueue = .ok s') : Prioritised P s s' n := by
  rw [doSetNodePriority] at h
  split at h
  · obtain rfl := Except.ok.inj h
    exact ⟨_, (edits_level s n priority).requeued I rfl⟩
  · obtain ⟨p, e⟩ := edits_setTemporaryPriorityIf (P := P) s n priority
    cases hq : s.nodeState n with
    | idle =>
      simp only [hq] at h
      split at h
      · obtain ⟨M, hM⟩ := I.queued
        have o := e.outcome hM (Or.inl rfl)
        refine ⟨p, _, o.addToQueue hN (o.bounded I.book.bounded hn) hn
          (by rw [hq]; exact unqueued_idle) ho h, Or.inr ⟨by rw [hq]; decide, _, rfl⟩⟩
      · obtain rfl := Except.ok.inj h
        exact ⟨_, e.requeued I rfl⟩
    | working | stealing | prioChange =>
      simp only [hq] at h
      obtain rfl := Except.ok.inj h
      exact ⟨_, e.requeued I rfl⟩
    | staticChange | affinityChange =>
      simp only [hq] at h
      exact absurd h (by simp)
    | normalMoving | normalStatic =>
      simp only [hq] at h
      exact ⟨_, e.shift I hN hn rfl (Or.inl rfl) h hq ho⟩
    | priorityMoving | priorityStatic =>
      simp only [hq] at h
      exact ⟨_, e.moveNode I hN hn rfl h hq ho⟩

theorem doSetNodePriorityOther_prioritised (I : Inv P N s) (hN : N < 2 ^ 30)
    (hn : 0 < n ∧ n ≤ N) {priority : π} (h : doSetNodePriorityOther P s n priority = .ok s') :
    Prioritised P s s' n := by
  rw [doSetNodePriorityOther] at h
  obtain ⟨p, e⟩ := edits_setTemporaryPriorityIf (P := P) s n priority
  cases hq : s.nodeState n with
  | idle | stealing | prioChange =>
    simp only [hq] at h
    obtain rfl := Except.ok.inj h
    exact ⟨_, e.requeued I rfl⟩
  | working =>
    simp only [hq] at h
    obtain rfl := Except.ok.inj h
    exact ⟨_, (Edits.refl s n).requeued I rfl⟩
  | staticChange | affinityChange =>
    simp only [hq] at h
    exact absurd h (by simp)
  | normalMoving | normalStatic =>
    simp only [hq] at h
    exact ⟨_, e.shift I hN hn rfl (Or.inl rfl) h hq rfl⟩
  | priorityMoving | priorityStatic =>
    simp only [hq] at h
    exact ⟨_, e.moveNode I hN hn rfl h hq rfl⟩

theorem doRemoveNodePriority_prioritised (I : Inv P N s) (hN : N < 2 ^ 30) (hn : 0 < n ∧ n ≤ N)
    {t : ℕ} (ho : (s.node n).owner = t) (h : doRemoveNodePriority P s t n = .ok s') :
    Prioritised P s s' n := by
  rw [doRemoveNodePriority] at h
  have e := edits_level s n (s.node n).defaultPriorityLevel
  cases hq : s.nodeState n with
  | idle | working | stealing | normalMoving | normalStatic =>
    simp only [hq] at h
    obtain rfl := Except.ok.inj h
    exact ⟨_, e.requeued I rfl⟩
  | prioChange | staticChange | affinityChange =>
    simp only [hq] at h
    exact absurd h (by simp)
  | priorityMoving | priorityStatic =>
    simp only [hq] at h
    exact ⟨_, e.shift I hN hn rfl (Or.inl rfl) h hq ho⟩

theorem doRemoveNodePriorityOther_prioritised (I : Inv P N s) (hN : N < 2 ^ 30)
    (hn : 0 < n ∧ n ≤ N) (h : doRemoveNodePriorityOther P s n = .ok s') :
    Prioritised P s s' n := by
  rw [doRemoveNodePriorityOther] at h
  have e := edits_level s n (s.node n).defaultPriorityLevel
  cases hq : s.nodeState n with
  | stealing | normalMoving | normalStatic =>
    simp only [hq] at h
    obtain rfl := Except.ok.inj h
    exact ⟨_, e.requeued I rfl⟩
  | working =>
    simp only [hq] at h
    obtain rfl := Except.ok.inj h
    exact ⟨_, (Edits.refl s n).requeued I rfl⟩
  | idle | prioChange | staticChange | affinityChange =>
    simp only [hq] at h
    exact absurd h (by simp)
  | priorityMoving | priorityStatic =>
    simp only [hq] at h
    exact ⟨_, e.shift I hN hn rfl (Or.inl rfl) h hq rfl⟩

/-! ## Static nodes and owners -/

/-- The condition on a call for a queued node: the queue is one of the calling thread. -/
def Local (s : State π) (t n : ℕ) : Prop :=
  (∃ k : Kind, s.nodeState n = k.number) → (s.node n).owner = t

theorem setNodeStatic_requeued (I : Inv P N s) (hN : N < 2 ^ 30) (hn : 0 < n ∧ n ≤ N) {t : ℕ}
    (hlocal : (s.thread t).currentNode = some n ∨ (s.node n).static.isSome ∨ Local s t n)
    (h : setNodeStatic P s t n = .ok s') :
    ∃ st, Requeued P s s' n { s.node n with static := st } := by
  have hsame : Requeued P s s n { s.node n with static := (s.node n).static } :=
    (Edits.refl s n).requeued I rfl
  have e := edits_makeNodeStatic s n t
  rw [setNodeStatic] at h
  split at h
  · obtain rfl := Except.ok.inj h
    exact ⟨_, hsame⟩
  split at h
  · obtain rfl := Except.ok.inj h
    exact ⟨_, e.requeued I rfl⟩
  next hcur =>
  split at h
  · obtain rfl := Except.ok.inj h
    exact ⟨_, hsame⟩
  next hstatic =>
  have hl := (hlocal.resolve_left hcur).resolve_left hstatic
  cases hq : s.nodeState n with
  | idle | working | stealing | normalStatic | priorityStatic =>
    simp only [hq] at h
    obtain rfl := Except.ok.inj h
    exact ⟨_, e.requeued I rfl⟩
  | prioChange | staticChange | affinityChange =>
    simp only [hq] at h
    exact absurd h (by simp)
  | normalMoving =>
    simp only [hq] at h
    exact ⟨_, e.shift I hN hn rfl (Or.inr (Or.inl rfl)) h hq (hl ⟨.normal .moving, hq⟩)⟩
  | priorityMoving =>
    simp only [hq] at h
    exact ⟨_, e.shift I hN hn rfl (Or.inr (Or.inl rfl)) h hq (hl ⟨.priority .moving, hq⟩)⟩

theorem setNodeMoving_requeued (I : Inv P N s) (hN : N < 2 ^ 30) (hn : 0 < n ∧ n ≤ N) {t : ℕ}
    (hlocal : (s.thread t).currentNode = some n ∨ (s.node n).static.isNone ∨ Local s t n)
    (h : setNodeMoving P s t n = .ok s') :
    ∃ st, Requeued P s s' n { s.node n with static := st } := by
  have hsame : Requeued P s s n { s.node n with static := (s.node n).static } :=
    (Edits.refl s n).requeued I rfl
  have e := edits_makeNodeMoving s n
  rw [setNodeMoving] at h
  split at h
  · obtain rfl := Except.ok.inj h
    exact ⟨_, hsame⟩
  split at h
  · obtain rfl := Except.ok.inj h
    exact ⟨_, e.requeued I rfl⟩
  next hcur =>
  split at h
  · obtain rfl := Except.ok.inj h
    exact ⟨_, hsame⟩
  next hmoving =>
  have hl := (hlocal.resolve_left hcur).resolve_left hmoving
  cases hq : s.nodeState n with
  | idle | working | stealing | normalMoving | priorityMoving =>
    simp only [hq] at h
    obtain rfl := Except.ok.inj h
    exact ⟨_, e.requeued I rfl⟩
  | prioChange | staticChange | affinityChange =>
    simp only [hq] at h
    exact absurd h (by simp)
  | normalStatic =>
    simp only [hq] at h
    exact ⟨_, e.shift I hN hn rfl (Or.inr (Or.inl rfl)) h hq (hl ⟨.normal .stati, hq⟩)⟩
  | priorityStatic =>
    simp only [hq] at h
    exact ⟨_, e.shift I hN hn rfl (Or.inr (Or.inl rfl)) h hq (hl ⟨.priority .stati, hq⟩)⟩

/-- **What `set_node_owner` leaves**: the thread works on the node itself, the node is the thread's
already, it is being stolen, it was queued, it is worked on, or it is idle. -/
inductive Reassigned (P : Program π) (s : State π) (t n newOwner : ℕ) :
    QueueId → Node π → Prop where
  | own {db : DbNode} (hcur : (s.thread t).currentNode = some n)
      (hstore : db.store = (s.node n).db.store)
      (hfacts : db.unprocessedFacts = (s.node n).db.unprocessedFacts) :
      Reassigned P s t n newOwner (s.nodeState n)
        { s.node n with static := some newOwner, db := db }
  | stay (hcur : (s.thread t).currentNode ≠ some n) (ho : (s.node n).owner = newOwner) :
      Reassigned P s t n newOwner (s.nodeState n)
        { s.node n with static := some newOwner, db := movedDb P (s.node n).db }
  | stealing (hcur : (s.thread t).currentNode ≠ some n) (ho : (s.node n).owner ≠ newOwner)
      (hq : s.nodeState n = .stealing) :
      Reassigned P s t n newOwner .stealing
        { s.node n with static := some newOwner, owner := newOwner }
  | queued {k k' : Kind} (hcur : (s.thread t).currentNode ≠ some n)
      (ho : (s.node n).owner ≠ newOwner) (hq : s.nodeState n = k.number)
      (hk' : k' = Node.kind P { s.node n with static := some newOwner }) :
      Reassigned P s t n newOwner k'.number
        { s.node n with
          static := some newOwner, owner := newOwner, db := movedDb P (s.node n).db }
  | working (hcur : (s.thread t).currentNode ≠ some n) (ho : (s.node n).owner ≠ newOwner)
      (hq : s.nodeState n = .working) :
      Reassigned P s t n newOwner .working { s.node n with static := some newOwner }
  | idle (hcur : (s.thread t).currentNode ≠ some n) (ho : (s.node n).owner ≠ newOwner)
      (hq : s.nodeState n = .idle) :
      Reassigned P s t n newOwner .idle
        { s.node n with
          static := some newOwner, owner := newOwner, db := movedDb P (s.node n).db }

omit [LinearOrder π] in
theorem addLinearFact_store {Q : WorkProgram} {n n' : DbNode} {tpl : Tuple} {pred : WorkPredicate}
    (h : n.addLinearFact Q tpl pred = some n') :
    n'.store = n.store ∧ n'.unprocessedFacts = n.unprocessedFacts := by
  rw [DbNode.addLinearFact] at h
  obtain ⟨linear, -, h⟩ := Option.bind_eq_some_iff.mp h
  obtain rfl := Option.some.inj h
  exact ⟨rfl, rfl⟩

theorem Result.ofOption_eq_ok {α : Type} {o : Option α} {a : α}
    (h : Result.ofOption o = .ok a) : o = some a := by
  cases o with
  | none => exact absurd h (by simp [Result.ofOption])
  | some b =>
    obtain rfl := Except.ok.inj h
    rfl

theorem Result.bind_eq_ok {α β : Type} {x : Result α} {f : α → Result β} {b : β}
    (h : x >>= f = .ok b) : ∃ a, x = .ok a ∧ f a = .ok b := by
  cases x with
  | error e => exact absurd h (by simp [Bind.bind, Except.bind])
  | ok a => exact ⟨a, rfl, h⟩

omit [LinearOrder π] in
/-- `just_moved` changes the linear store and the matcher only. -/
theorem edits_justMoved {n : ℕ} (h : s.justMoved P n = .ok s') :
    ∃ db : DbNode, Edits s s' n { s.node n with db := db } ∧ db.store = (s.node n).db.store ∧
      db.unprocessedFacts = (s.node n).db.unprocessedFacts := by
  rw [State.justMoved] at h
  split at h
  · obtain ⟨db, hdb, h⟩ := Result.bind_eq_ok h
    obtain rfl := Except.ok.inj h
    exact ⟨db, edits_setNode s n _, addLinearFact_store (Result.ofOption_eq_ok hdb)⟩
  · obtain rfl := Except.ok.inj h
    exact ⟨_, Edits.refl s n, rfl, rfl⟩

/-- The case of a queued node. -/
theorem changeOwner_outcome (I : Inv P N s) (hN : N < 2 ^ 30) (hn : 0 < n ∧ n ≤ N) {t : ℕ}
    {newOwner : ℕ} {k : Kind} (hk : s.nodeState n = k.number) (ht : (s.node n).owner = t)
    (h : changeOwner P (s.makeNodeStatic n newOwner) t k n newOwner = .ok s') :
    Outcome P s s' n (Node.kind P { s.node n with static := some newOwner }).number
      { s.node n with
        static := some newOwner, owner := newOwner, db := movedDb P (s.node n).db } := by
  obtain ⟨M, hM⟩ := I.queued
  have hb := I.book.bounded
  have o := (edits_makeNodeStatic s n newOwner).outcome hM (Or.inl rfl)
  obtain ⟨M₁, hM₁⟩ := o.queued
  have hmem : n ∈ M₁ t k :=
    (hM₁.mem t k n).mpr ⟨by rw [o.record]; exact ht, o.state.trans hk⟩
  have hq : Unqueued .affinityChange := unqueued_of_changing (Or.inr (Or.inr rfl))
  obtain ⟨s₂, hrem, hM₂, hp⟩ := hM₁.remove hN (o.bounded hb hn) hmem hq
  rw [changeOwner] at h
  obtain ⟨r, hr, h⟩ := Result.bind_eq_ok h
  rw [hrem] at hr
  obtain rfl := Except.ok.inj hr
  have o₂ := o.place hM₂ hp
  have e₃ : Edits s₂ (s₂.setOwner n newOwner) n _ := edits_setNode s₂ n _
  rw [o₂.record] at e₃
  exact (o₂.edit e₃ (Or.inr hq)).moveNodeToNewOwner hN hb hn hq rfl h

theorem setNodeOwner_outcome (I : Inv P N s) (hN : N < 2 ^ 30) (hn : 0 < n ∧ n ≤ N) {t : ℕ}
    {newOwner : ℕ} (hlocal : (s.thread t).currentNode = some n ∨ (s.node n).owner = newOwner ∨
      Local s t n) (h : setNodeOwner P s t n newOwner = .ok s') :
    ∃ q r, Outcome P s s' n q r ∧ Reassigned P s t n newOwner q r := by
  obtain ⟨M, hM⟩ := I.queued
  have e := edits_makeNodeStatic s n newOwner
  have o := e.outcome hM (Or.inl rfl)
  rw [setNodeOwner] at h
  split at h
  · next hcur =>
    obtain ⟨s₁, h₁, h⟩ := Result.bind_eq_ok h
    obtain rfl := Except.ok.inj h
    obtain ⟨db, e₁, hstore, hfacts⟩ : ∃ db : DbNode,
        Edits s s₁ n { s.node n with db := db } ∧ db.store = (s.node n).db.store ∧
        db.unprocessedFacts = (s.node n).db.unprocessedFacts := by
      split at h₁
      · exact edits_justMoved h₁
      · obtain rfl := Except.ok.inj h₁
        exact ⟨_, Edits.refl s n, rfl, rfl⟩
    have e₂ := edits_makeNodeStatic s₁ n newOwner
    rw [e₁.record] at e₂
    exact ⟨_, _, (e₁.trans e₂).outcome hM (Or.inl rfl), .own hcur hstore hfacts⟩
  next hcur =>
  have hmoved : ∀ s₁ r, Edits s s₁ n r → (r.owner = (s.node n).owner ∨ Unqueued (s.nodeState n)) →
      Outcome P s (s₁.justMovedBuffer P n) n (s.nodeState n) { r with db := movedDb P r.db } := by
    intro s₁ r e₁ ho
    have e₂ := edits_justMovedBuffer (P := P) s₁ n
    rw [e₁.record] at e₂
    exact (e₁.outcome hM ho).edit e₂ (Or.inl rfl)
  split at h
  · next howner =>
    obtain rfl := Except.ok.inj h
    exact ⟨_, _, hmoved _ _ e (Or.inl rfl), .stay hcur howner⟩
  next howner =>
  have hl := (hlocal.resolve_left hcur).resolve_left howner
  have e' : Edits s ((s.makeNodeStatic n newOwner).setOwner n newOwner) n
      { s.node n with static := some newOwner, owner := newOwner } := by
    have e₁ := edits_setNode (s.makeNodeStatic n newOwner) n
      { (s.makeNodeStatic n newOwner).node n with owner := newOwner }
    rw [e.record] at e₁
    rw [setOwner, e.record]
    exact e.trans e₁
  cases hq : s.nodeState n with
  | stealing =>
    simp only [hq] at h
    obtain rfl := Except.ok.inj h
    have o' := e'.outcome hM (Or.inr (by rw [hq]; exact unqueued_stealing))
    rw [hq] at o'
    exact ⟨_, _, o', .stealing hcur howner hq⟩
  | working =>
    simp only [hq] at h
    obtain rfl := Except.ok.inj h
    rw [hq] at o
    exact ⟨_, _, o, .working hcur howner hq⟩
  | idle =>
    simp only [hq] at h
    obtain rfl := Except.ok.inj h
    have o' := hmoved _ _ e' (Or.inr (by rw [hq]; exact unqueued_idle))
    rw [hq] at o'
    exact ⟨_, _, o', .idle hcur howner hq⟩
  | prioChange | staticChange | affinityChange =>
    simp only [hq] at h
    exact absurd h (by simp)
  | normalMoving =>
    simp only [hq] at h
    have hk : s.nodeState n = (Kind.normal .moving).number := hq
    exact ⟨_, _, changeOwner_outcome I hN hn hk (hl ⟨_, hk⟩) h, .queued hcur howner hk rfl⟩
  | normalStatic =>
    simp only [hq] at h
    have hk : s.nodeState n = (Kind.normal .stati).number := hq
    exact ⟨_, _, changeOwner_outcome I hN hn hk (hl ⟨_, hk⟩) h, .queued hcur howner hk rfl⟩
  | priorityMoving =>
    simp only [hq] at h
    have hk : s.nodeState n = (Kind.priority .moving).number := hq
    exact ⟨_, _, changeOwner_outcome I hN hn hk (hl ⟨_, hk⟩) h, .queued hcur howner hk rfl⟩
  | priorityStatic =>
    simp only [hq] at h
    have hk : s.nodeState n = (Kind.priority .stati).number := hq
    exact ⟨_, _, changeOwner_outcome I hN hn hk (hl ⟨_, hk⟩) h, .queued hcur howner hk rfl⟩

theorem Reassigned.admits {t newOwner : ℕ} {q : QueueId} {r : Node π}
    (h : Reassigned P s t n newOwner q r) : Admits s n q r := by
  cases h with
  | own hcur hstore hfacts => exact Or.inl ⟨rfl, Or.inl rfl⟩
  | stay hcur ho => exact Or.inl ⟨rfl, Or.inl rfl⟩
  | stealing hcur ho hq => exact Or.inl ⟨hq.symm, Or.inr (by rw [hq]; decide)⟩
  | queued hcur ho hq hk' =>
    exact Or.inr ⟨by rw [hq]; exact (unqueued_working _).symm, _, rfl⟩
  | working hcur ho hq => exact Or.inl ⟨hq.symm, Or.inl rfl⟩
  | idle hcur ho hq => exact Or.inl ⟨hq.symm, Or.inr (by rw [hq]; decide)⟩

end Handles

end Coord
end Meld
