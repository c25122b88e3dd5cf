import Meld.Thread.CoordAborts

/-!
# Nodes whose facts are not looked at

A tuple that comes to a node while another thread runs it waits in the temporary store of the node.
Whoever leaves it there sets `unprocessed_facts`, so that the thread that runs the node does not let
it go, and puts the node into a queue if it is idle.  `just_moved_buffer`, by which a node is told
that it has come to another thread, does neither.  After most of the calls the node is in a queue
anyway, but not when `set_node_owner` finds it idle, or at the new owner already.

* `Waiting`, `Attended`: tuples wait in a node; no node with waiting tuples is idle or without the
  flag.
* `Refills`: what a step does to the databases of the nodes, in runs in which nothing is known of
  the queues.
* `Attentive P s e`: the condition on the steps that leave a `JUST_MOVED` fact.
* `step_attended`: a step under this condition keeps `Attended`.
* `reach_attended`: so does a run, and the nodes are in queues, in the buffers of thieves or worked
  on if also the calls for queued nodes come from their owners.
* `not_forall_attended`: a node that is idle, with a tuple that waits.
-/

namespace Meld

/-! ## Tuples that wait -/

namespace DbNode

/-- A tuple waits in the temporary store: a linear one, a persistent one or an action. -/
def Waiting (P : WorkProgram) (db : DbNode) : Prop :=
  (∃ i < P.linearPredicates.length, db.store.incoming i ≠ []) ∨
    db.store.incomingPersistentTuples ≠ [] ∨ db.store.incomingActionTuples ≠ []

variable {P : WorkProgram} {n n' : DbNode}

theorem waiting_congr (h : n'.store = n.store) : Waiting P n' ↔ Waiting P n := by
  rw [Waiting, Waiting, h]

theorem innerAddWorkMyself_facts {tpl : Tuple} {pred : WorkPredicate} {dir : Direction}
    {depth : ℕ} (h : n.innerAddWorkMyself P tpl pred dir depth = some n') :
    n'.unprocessedFacts = n.unprocessedFacts := by
  rw [innerAddWorkMyself] at h
  split at h
  · obtain rfl := Option.some.inj h
    rfl
  split at h
  · obtain rfl := Option.some.inj h
    rfl
  · exact (Coord.addLinearFact_store h).2

theorem addItemMyself_facts {i : BufferItem} (h : n.addItemMyself P i = some n') :
    n'.unprocessedFacts = n.unprocessedFacts := by
  rw [addItemMyself] at h
  split at h
  · exact absurd h.symm (Option.some_ne_none _)
  split at h
  · obtain rfl := Option.some.inj h
    rfl
  · obtain ⟨linear, -, h⟩ := Option.bind_eq_some_iff.mp h
    obtain rfl := Option.some.inj h
    rfl

theorem foldlM_addItemMyself_facts {b : BufferNode} (h : b.foldlM (addItemMyself P) n = some n') :
    n'.unprocessedFacts = n.unprocessedFacts := by
  induction b generalizing n with
  | nil =>
    obtain rfl := Option.some.inj h
    rfl
  | cons i b ih =>
    rw [List.foldlM_cons] at h
    obtain ⟨n₁, hn₁, h⟩ := Option.bind_eq_some_iff.mp h
    rw [ih h, addItemMyself_facts hn₁]

theorem innerAddWorkOthers_facts (tpl : Tuple) (pred : WorkPredicate) (dir : Direction)
    (depth : ℕ) :
    (n.innerAddWorkOthers tpl pred dir depth).unprocessedFacts = n.unprocessedFacts := by
  rw [innerAddWorkOthers]
  split
  · rfl
  · split <;> rfl

theorem addItemOthers_facts (i : BufferItem) :
    (n.addItemOthers i).unprocessedFacts = n.unprocessedFacts := by
  rw [addItemOthers]
  split
  · rfl
  · split <;> rfl

theorem foldl_addItemOthers_facts (b : BufferNode) :
    (b.foldl addItemOthers n).unprocessedFacts = n.unprocessedFacts := by
  induction b generalizing n with
  | nil => rfl
  | cons i b ih => rw [List.foldl_cons, ih, addItemOthers_facts]

/-- **A delivery sets the flag.** -/
theorem run_facts {d : Delivery} {w : Work} (hd : d = .myself w ∨ d = .others w)
    (h : d.run P n = some n') : n'.unprocessedFacts = true := by
  obtain rfl | rfl := hd
  · cases w with
    | tuple tpl pred dir depth => exact innerAddWorkMyself_facts h
    | buffer b => exact foldlM_addItemMyself_facts h
  · cases w with
    | tuple tpl pred dir depth =>
      obtain rfl := Option.some.inj h
      exact innerAddWorkOthers_facts tpl pred dir depth
    | buffer b =>
      obtain rfl := Option.some.inj h
      exact foldl_addItemOthers_facts b

/-- One round of `process_incoming_tuples` empties its list and leaves the others. -/
theorem processIncoming_incoming {i : ℕ} (h : n.processIncoming P i = some n') :
    n'.store.incoming = Function.update n.store.incoming i [] := by
  rw [processIncoming] at h
  split at h
  · next hempty =>
    obtain rfl := Option.some.inj h
    rw [← List.isEmpty_iff.mp hempty, Function.update_eq_self]
  · obtain ⟨pred, -, h⟩ := Option.bind_eq_some_iff.mp h
    obtain ⟨linear, -, h⟩ := Option.bind_eq_some_iff.mp h
    obtain rfl := Option.some.inj h
    rfl

theorem foldlM_processIncoming_incoming {is : List ℕ}
    (h : is.foldlM (processIncoming P) n = some n') :
    ∀ i, n.store.incoming i = [] ∨ i ∈ is → n'.store.incoming i = [] := by
  induction is generalizing n with
  | nil =>
    obtain rfl := Option.some.inj h
    simp
  | cons j is ih =>
    rw [List.foldlM_cons] at h
    obtain ⟨n₁, hn₁, hrest⟩ := Option.bind_eq_some_iff.mp h
    have hupdate := processIncoming_incoming hn₁
    rintro i (hi | hi)
    · refine ih hrest i (Or.inl ?_)
      rw [hupdate]
      by_cases hij : i = j
      · rw [hij, Function.update_self]
      · rwa [Function.update_of_ne hij]
    · obtain rfl | hi := List.mem_cons.mp hi
      · exact ih hrest i (Or.inl (by rw [hupdate, Function.update_self]))
      · exact ih hrest i (Or.inr hi)

/-- Nothing waits in a node whose facts have been taken. -/
theorem not_waiting_taken (h : n.processIncomingTuples P = some n') :
    ¬ Waiting P { n' with
      store := { n'.store with incomingPersistentTuples := [], incomingActionTuples := [] }
      unprocessedFacts := false } := by
  rintro (⟨i, hi, hne⟩ | hne | hne)
  · exact hne (foldlM_processIncoming_incoming h i (Or.inr (List.mem_range.mpr hi)))
  · exact hne rfl
  · exact hne rfl

end DbNode

namespace Coord

open State DbNode

variable {π : Type} [LinearOrder π] {P : Program π} {s s' s'' : State π} {N n t : ℕ}

omit [LinearOrder π] in
theorem movedDb_facts (db : DbNode) :
    (movedDb P db).unprocessedFacts = db.unprocessedFacts := by
  rw [movedDb]
  split
  · exact innerAddWorkOthers_facts _ _ _ _
  · rfl

omit [LinearOrder π] in
theorem movedDb_of_none (h : P.justMoved = none) (db : DbNode) : movedDb P db = db := by
  simp only [movedDb, h]

/-- **Tuples that wait are attended to**: the node has its flag set, and it is not idle. -/
def Attended (P : Program π) (s : State π) : Prop :=
  ∀ n, Waiting P.work (s.node n).db →
    (s.node n).db.unprocessedFacts = true ∧ s.nodeState n ≠ .idle

/-! ## What a step does to the databases -/

/-- Of all databases that of the node `n` alone may have changed, to `db`, and no node has become
idle. -/
structure Refills (s s' : State π) (n : ℕ) (db : DbNode) : Prop where
  self : (s'.node n).db = db
  others : ∀ x, x ≠ n → (s'.node x).db = (s.node x).db
  idle : ∀ x, s'.nodeState x = .idle → s.nodeState x = .idle

/-- No database has changed. -/
abbrev Untouched (s s' : State π) (n : ℕ) : Prop := Refills s s' n (s.node n).db

omit [LinearOrder π] in
theorem Refills.trans {db db' : DbNode} (h : Refills s s' n db) (h' : Refills s' s'' n db') :
    Refills s s'' n db' :=
  ⟨h'.self, fun x hx => (h'.others x hx).trans (h.others x hx), fun x hx => h.idle x (h'.idle x hx)⟩

omit [LinearOrder π] in
theorem Refills.untouched {db : DbNode} (h : Refills s s' n db) (h' : Untouched s' s'' n) :
    Refills s s'' n db := by
  have hdb := h.trans h'
  rwa [h.self] at hdb

omit [LinearOrder π] in
theorem Edits.refills {r : Node π} (e : Edits s s' n r) : Refills s s' n r.db := by
  refine ⟨by rw [e.record], fun x hx => ?_, fun x hx => ?_⟩
  · rw [e.node, Function.update_of_ne hx]
  · rwa [e.nodeState] at hx

omit [LinearOrder π] in
/-- The nodes are the same, and a state is new only if it is not `STATE_IDLE`. -/
theorem untouched_of_or (hnode : s'.node = s.node) {q : ℕ → QueueId} (hq : ∀ x, q x ≠ .idle)
    (hor : ∀ x, s'.nodeState x = s.nodeState x ∨ s'.nodeState x = q x) : Untouched s s' n := by
  refine ⟨by rw [hnode], fun x _ => by rw [hnode], fun x hx => ?_⟩
  obtain h | h := hor x
  · rwa [h] at hx
  · exact absurd (h.symm.trans hx) (hq x)

omit [LinearOrder π] in
theorem untouched_congr (hnode : s'.node = s.node) (hlink : s'.link = s.link) :
    Untouched s s' n :=
  untouched_of_or (q := fun _ => .working) hnode (fun _ => by decide) fun x =>
    Or.inl (by rw [State.nodeState, State.nodeState, hlink])

theorem add_untouched {k : Kind} (h : s.add P t k n = .ok s') :
    Untouched s s' n ∧ s'.nodeState n ≠ .idle := by
  obtain ⟨hnode, hstate⟩ := nodeState_add h
  constructor
  · refine untouched_of_or (q := fun _ => k.number) hnode (fun _ => k.number_ne_idle) fun x => ?_
    rw [hstate]
    split
    · exact Or.inr rfl
    · exact Or.inl rfl
  · rw [hstate, if_pos rfl]
    exact k.number_ne_idle

theorem addToQueue_untouched (h : s.addToQueue P t n = .ok s') :
    Untouched s s' n ∧ s'.nodeState n ≠ .idle := add_untouched h

/-- A node that comes to a queue of another thread is told so. -/
theorem moveNodeToNewOwner_refills (h : s.moveNodeToNewOwner P n t = .ok s') :
    Refills s s' n (movedDb P (s.node n).db) ∧ s'.nodeState n ≠ .idle := by
  obtain ⟨hu, hidle⟩ := addToQueue_untouched h
  exact ⟨(edits_justMovedBuffer (P := P) s n).refills.untouched hu, hidle⟩

theorem remove_untouched {k : Kind} {change : QueueId} (hc : change ≠ .idle)
    {r : State π × Bool} (h : s.remove P t k n change = .ok r) : Untouched s r.1 n := by
  obtain ⟨hnode, ⟨-, hstate⟩ | ⟨-, hstate⟩⟩ := nodeState_remove h
  · refine untouched_of_or (q := fun _ => change) hnode (fun _ => hc) fun x => ?_
    rw [hstate]
    split
    · exact Or.inr rfl
    · exact Or.inl rfl
  · exact untouched_of_or (q := fun _ => change) hnode (fun _ => hc) fun x => Or.inl (hstate x)

/-! ## Coordination -/

/-- A call that touches no database. -/
def Calm (s : State π) (n : ℕ) (x : Result (State π)) : Prop := ∀ s', x = .ok s' → Untouched s s' n

omit [LinearOrder π] in
theorem Refills.calm (h : Untouched s s' n) : Calm s n (.ok s') := by
  intro s'' hs
  obtain rfl := Except.ok.inj hs
  exact h

omit [LinearOrder π] in
theorem calm_error {f : Fault} : Calm s n (.error f) := fun s' hs => absurd hs (by simp)

omit [LinearOrder π] in
/-- A call after a step that touches no database. -/
theorem Refills.calm_after {x : Result (State π)} (h : Untouched s s' n) (hx : Calm s' n x) :
    Calm s n x := fun _ hs => h.untouched (hx _ hs)

theorem shift_calm {k k' : Kind} {change : QueueId} (hc : change ≠ .idle) :
    Calm s n (s.shift P t k k' n change) := by
  intro s' h
  obtain ⟨r, hr, h⟩ := Result.bind_eq_ok h
  have hrem := remove_untouched hc hr
  split at h
  · exact hrem.untouched (add_untouched h).1
  · obtain rfl := Except.ok.inj h
    exact hrem

theorem moveNode_calm {w : Which} {priority : π} {b : Bool} :
    Calm s n (if b then s.moveNode P t w n priority else .ok s) := by
  cases b with
  | false => exact (Edits.refl s n).refills.calm
  | true =>
    intro s' h
    obtain ⟨hnode, hstate⟩ := nodeState_moveNode h
    exact untouched_of_or (q := fun _ => .working) hnode (fun _ => by decide) fun x =>
      Or.inl (hstate x)

theorem addToQueue_calm : Calm s n (s.addToQueue P t n) := fun _ h => (addToQueue_untouched h).1

omit [LinearOrder π] in
theorem Edits.untouched {r : Node π} (e : Edits s s' n r) (hdb : r.db = (s.node n).db) :
    Untouched s s' n := by
  have h := e.refills
  rwa [hdb] at h

theorem doSetNodePriority_calm {priority : π} {forceQueue : Bool} :
    Calm s n (doSetNodePriority P s t n priority forceQueue) := by
  rw [doSetNodePriority]
  split
  · exact ((edits_level s n priority).untouched rfl).calm
  obtain ⟨p, e⟩ := edits_setTemporaryPriorityIf (P := P) s n priority
  have h' : Untouched s (s.setTemporaryPriorityIf P n priority).1 n := e.untouched rfl
  cases s.nodeState n with
  | stealing | working | prioChange => exact h'.calm
  | priorityMoving | priorityStatic => exact h'.calm_after moveNode_calm
  | normalMoving | normalStatic => exact h'.calm_after (shift_calm (by decide))
  | idle =>
    cases forceQueue with
    | false => exact h'.calm
    | true => exact h'.calm_after addToQueue_calm
  | staticChange | affinityChange => exact calm_error

theorem doSetNodePriorityOther_calm {priority : π} :
    Calm s n (doSetNodePriorityOther P s n priority) := by
  rw [doSetNodePriorityOther]
  obtain ⟨p, e⟩ := edits_setTemporaryPriorityIf (P := P) s n priority
  have h' : Untouched s (s.setTemporaryPriorityIf P n priority).1 n := e.untouched rfl
  cases s.nodeState n with
  | stealing | idle | prioChange => exact h'.calm
  | working => exact ((Edits.refl s n).untouched rfl).calm
  | priorityMoving | priorityStatic => exact h'.calm_after moveNode_calm
  | normalMoving | normalStatic => exact h'.calm_after (shift_calm (by decide))
  | staticChange | affinityChange => exact calm_error

theorem removeNodePriority_calm : Calm s n (removeNodePriority P s t n) := by
  have hsame : Untouched s s n := (Edits.refl s n).untouched rfl
  have h' : Untouched s (s.removeTemporaryPriority n) n := (edits_level s n _).untouched rfl
  rw [removeNodePriority]
  split
  · exact hsame.calm
  split
  · exact h'.calm
  split
  · rw [doRemoveNodePriority]
    cases s.nodeState n with
    | stealing | working | idle | normalMoving | normalStatic => exact h'.calm
    | priorityMoving | priorityStatic => exact h'.calm_after (shift_calm (by decide))
    | prioChange | staticChange | affinityChange => exact calm_error
  · rw [doRemoveNodePriorityOther]
    cases s.nodeState n with
    | stealing | normalMoving | normalStatic => exact h'.calm
    | working => exact hsame.calm
    | priorityMoving | priorityStatic => exact h'.calm_after (shift_calm (by decide))
    | idle | prioChange | staticChange | affinityChange => exact calm_error

theorem setNodePriority_calm {priority : π} : Calm s n (setNodePriority P s t n priority) := by
  have hsame : Untouched s s n := (Edits.refl s n).untouched rfl
  rw [setNodePriority]
  split
  · exact hsame.calm
  split
  · exact hsame.calm
  split
  · exact doSetNodePriority_calm
  · exact doSetNodePriorityOther_calm

theorem addNodePriority_calm {priority : π} : Calm s n (addNodePriority P s t n priority) := by
  have hsame : Untouched s s n := (Edits.refl s n).untouched rfl
  rw [addNodePriority]
  split
  · exact hsame.calm
  split
  · exact hsame.calm
  simp only
  split
  · exact doSetNodePriority_calm
  · exact doSetNodePriorityOther_calm

theorem setNodeStatic_calm : Calm s n (setNodeStatic P s t n) := by
  have hsame : Untouched s s n := (Edits.refl s n).untouched rfl
  have h' : Untouched s (s.makeNodeStatic n t) n := (edits_makeNodeStatic s n t).untouched rfl
  rw [setNodeStatic]
  split
  · exact hsame.calm
  split
  · exact h'.calm
  split
  · exact hsame.calm
  cases s.nodeState n with
  | stealing | normalStatic | priorityStatic | idle | working => exact h'.calm
  | normalMoving | priorityMoving => exact h'.calm_after (shift_calm (by decide))
  | prioChange | staticChange | affinityChange => exact calm_error

theorem setNodeMoving_calm : Calm s n (setNodeMoving P s t n) := by
  have hsame : Untouched s s n := (Edits.refl s n).untouched rfl
  have h' : Untouched s (s.makeNodeMoving n) n := (edits_makeNodeMoving s n).untouched rfl
  rw [setNodeMoving]
  split
  · exact hsame.calm
  split
  · exact h'.calm
  split
  · exact hsame.calm
  cases s.nodeState n with
  | stealing | normalMoving | priorityMoving | idle | working => exact h'.calm
  | normalStatic | priorityStatic => exact h'.calm_after (shift_calm (by decide))
  | prioChange | staticChange | affinityChange => exact calm_error

/-- `set_node_owner` calls `just_moved_buffer` unless the thread works on the node itself, or
another thread does, or the node is being stolen. -/
def OwnerBuffers (s : State π) (t n newOwner : ℕ) : Prop :=
  (s.thread t).currentNode ≠ some n ∧
    ((s.node n).owner = newOwner ∨ s.nodeState n ≠ .stealing ∧ s.nodeState n ≠ .working)

theorem changeOwner_refills {k : Kind} {newOwner : ℕ}
    (h : changeOwner P s t k n newOwner = .ok s') :
    Refills s s' n (movedDb P (s.node n).db) := by
  obtain ⟨r, hr, h⟩ := Result.bind_eq_ok h
  have hrem : Untouched s r.1 n := remove_untouched (by decide) hr
  split at h
  · have howner : Untouched r.1 (r.1.setOwner n newOwner) n :=
      (edits_setNode r.1 n _).untouched rfl
    have hmoved := (moveNodeToNewOwner_refills h).1
    rw [(hrem.untouched howner).self] at hmoved
    exact (hrem.untouched howner).trans hmoved
  · exact absurd h (by simp)

/-- **What `set_node_owner` does to the database of the node**: the store stays, with its flag, or
it gets the fact `JUST_MOVED`. -/
theorem setNodeOwner_refills {newOwner : ℕ} (h : setNodeOwner P s t n newOwner = .ok s') :
    ∃ db, Refills s s' n db ∧
      (db.store = (s.node n).db.store ∧ db.unprocessedFacts = (s.node n).db.unprocessedFacts ∨
        OwnerBuffers s t n newOwner ∧ db = movedDb P (s.node n).db) := by
  rw [setNodeOwner] at h
  split at h
  · obtain ⟨s₁, hs₁, h⟩ := Result.bind_eq_ok h
    obtain rfl := Except.ok.inj h
    obtain ⟨db, e, hstore, hfacts⟩ : ∃ db : DbNode, Edits s s₁ n { s.node n with db := db } ∧
        db.store = (s.node n).db.store ∧
        db.unprocessedFacts = (s.node n).db.unprocessedFacts := by
      split at hs₁
      · exact edits_justMoved hs₁
      · obtain rfl := Except.ok.inj hs₁
        exact ⟨_, Edits.refl s n, rfl, rfl⟩
    refine ⟨db, e.refills.untouched ?_, Or.inl ⟨hstore, hfacts⟩⟩
    exact (edits_makeNodeStatic s₁ n newOwner).untouched rfl
  next hcur =>
  simp only at h
  have hstatic : Untouched s (s.makeNodeStatic n newOwner) n :=
    (edits_makeNodeStatic s n newOwner).untouched rfl
  have howner : Untouched s ((s.makeNodeStatic n newOwner).setOwner n newOwner) n :=
    hstatic.untouched ((edits_setNode _ n _).untouched rfl)
  have hmoved : ∀ s₁ : State π, Untouched s s₁ n →
      Refills s (s₁.justMovedBuffer P n) n (movedDb P (s.node n).db) := by
    intro s₁ hu
    have hm := (edits_justMovedBuffer (P := P) s₁ n).refills
    rw [hu.self] at hm
    exact hu.trans hm
  have hqueued : ∀ k, changeOwner P (s.makeNodeStatic n newOwner) t k n newOwner = .ok s' →
      Refills s s' n (movedDb P (s.node n).db) := by
    intro k hk
    have hm := changeOwner_refills hk
    rw [hstatic.self] at hm
    exact hstatic.trans hm
  split at h
  · next ho =>
    obtain rfl := Except.ok.inj h
    exact ⟨_, hmoved _ hstatic, Or.inr ⟨⟨hcur, Or.inl ho⟩, rfl⟩⟩
  cases hq : s.nodeState n with
  | stealing =>
    simp only [hq] at h
    obtain rfl := Except.ok.inj h
    exact ⟨_, howner, Or.inl ⟨rfl, rfl⟩⟩
  | working =>
    simp only [hq] at h
    obtain rfl := Except.ok.inj h
    exact ⟨_, hstatic, Or.inl ⟨rfl, rfl⟩⟩
  | idle =>
    simp only [hq] at h
    obtain rfl := Except.ok.inj h
    exact ⟨_, hmoved _ howner, Or.inr ⟨⟨hcur, Or.inr (by rw [hq]; decide)⟩, rfl⟩⟩
  | normalStatic | normalMoving | priorityMoving | priorityStatic =>
    simp only [hq] at h
    exact ⟨_, hqueued _ h, Or.inr ⟨⟨hcur, Or.inr (by rw [hq]; decide)⟩, rfl⟩⟩
  | prioChange | staticChange | affinityChange =>
    simp only [hq] at h
    exact absurd h (by simp)

/-! ## Steps -/

instance (t n newOwner : ℕ) : Decidable (OwnerBuffers s t n newOwner) :=
  inferInstanceAs (Decidable (_ ∧ (_ ∨ _)))

/-- The node in whose temporary store a step leaves a `JUST_MOVED` fact. -/
def buffered (P : Program π) (s : State π) : Event π → Option ℕ
  | .setNodeCpu t n newOwner =>
    if P.schedulingMechanism = true ∧ OwnerBuffers s t n newOwner then some n else none
  | .setNodeAffinity t n affinity =>
    if P.schedulingMechanism = true ∧ OwnerBuffers s t n (s.node affinity).owner then some n
    else none
  | .handOver t => (s.thread t).currentNode
  | .adopt t =>
    match (s.thread t).buffer with
    | [] => none
    | n :: _ =>
      if s.nodeState n = .stealing ∧ (s.node n).static.isSome ∧
        (s.node n).owner ≠ (s.thread t).target then some n else none
  | _ => none

/-- **The condition on a step**: a node that is told that it has moved has its flag set, and it is
not idle when this is all that happens to it. -/
def Attentive (P : Program π) (s : State π) (e : Event π) : Prop :=
  P.justMoved.isSome → ∀ n ∈ buffered P s e,
    (s.node n).db.unprocessedFacts = true ∧ (e.coordinated = some n → s.nodeState n ≠ .idle)

instance (e : Event π) : Decidable (Attentive P s e) :=
  inferInstanceAs (Decidable (_ → ∀ n ∈ buffered P s e, _ ∧ (_ → _)))

omit [LinearOrder π] in
/-- **A step that refills the database of one node**, which is attended to afterwards. -/
theorem Attended.refills (h : Attended P s) {db : DbNode} (hr : Refills s s' n db)
    (hn : Waiting P.work db → db.unprocessedFacts = true ∧ s'.nodeState n ≠ .idle) :
    Attended P s' := by
  intro x hx
  by_cases hxn : x = n
  · subst hxn
    rw [hr.self] at hx ⊢
    exact hn hx
  · rw [hr.others x hxn] at hx ⊢
    obtain ⟨hfacts, hidle⟩ := h x hx
    exact ⟨hfacts, fun hc => hidle (hr.idle x hc)⟩

omit [LinearOrder π] in
theorem Attended.same (h : Attended P s) {db : DbNode} (hr : Refills s s' n db)
    (hstore : db.store = (s.node n).db.store)
    (hfacts : db.unprocessedFacts = (s.node n).db.unprocessedFacts) : Attended P s' := by
  refine h.refills hr fun hw => ?_
  obtain ⟨hset, hidle⟩ := h n ((waiting_congr hstore).mp hw)
  exact ⟨hfacts.trans hset, fun hc => hidle (hr.idle n hc)⟩

omit [LinearOrder π] in
theorem Attended.calm (h : Attended P s) {x : Result (State π)} (hx : Calm s n x)
    (hs : x = .ok s') : Attended P s' := h.same (hx s' hs) rfl rfl

omit [LinearOrder π] in
/-- A node is told that it has moved. -/
theorem Attended.moved (h : Attended P s) (hr : Refills s s' n (movedDb P (s.node n).db))
    (hn : P.justMoved.isSome →
      (s.node n).db.unprocessedFacts = true ∧ s'.nodeState n ≠ .idle) : Attended P s' := by
  cases hm : P.justMoved with
  | none =>
    rw [movedDb_of_none hm] at hr
    exact h.same hr rfl rfl
  | some p =>
    obtain ⟨hfacts, hidle⟩ := hn (by rw [hm]; rfl)
    exact h.refills hr fun _ => ⟨(movedDb_facts _).trans hfacts, hidle⟩

theorem setNodeCpu_attended {newOwner : ℕ} (h : Attended P s)
    (hok : P.justMoved.isSome → P.schedulingMechanism = true → OwnerBuffers s t n newOwner →
      (s.node n).db.unprocessedFacts = true ∧ s.nodeState n ≠ .idle)
    (hs : setNodeCpu P s t n newOwner = .ok s') : Attended P s' := by
  rw [setNodeCpu] at hs
  split at hs
  · obtain rfl := Except.ok.inj hs
    exact h
  · next hon =>
    obtain ⟨db, hr, ⟨hstore, hfacts⟩ | ⟨hbuf, rfl⟩⟩ := setNodeOwner_refills hs
    · exact h.same hr hstore hfacts
    · refine h.moved hr fun hm => ?_
      obtain ⟨hset, hidle⟩ := hok hm (by simpa using hon) hbuf
      exact ⟨hset, fun hc => hidle (hr.idle n hc)⟩

theorem initNode_attended (h : Attended P s) (hs : initNode P s t n = .ok s') :
    Attended P s' := by
  rw [initNode] at hs
  split at hs
  · exact absurd hs (by simp)
  obtain ⟨db, -, hs⟩ := Result.bind_eq_ok hs
  simp only at hs
  obtain ⟨s₁, hs₁⟩ : ∃ s₁, s₁ = s.setNode n
    { s.node n with owner := t, db := { db with unprocessedFacts := true } } := ⟨_, rfl⟩
  have e : Edits s s₁ n { s.node n with owner := t, db := { db with unprocessedFacts := true } } :=
    hs₁ ▸ edits_setNode s n _
  rw [← hs₁] at hs
  split at hs
  · obtain ⟨hu, hidle⟩ := add_untouched hs
    exact h.refills (e.refills.untouched hu) fun _ => ⟨rfl, hidle⟩
  · obtain rfl := Except.ok.inj hs
    have hstate : ∀ x, (s₁.putHeap P t .moving (initialFastInsert ((s₁.heaps P t).get .moving) n
        P.initialPriority)).nodeState x =
          if x = n then (Kind.priority .moving).number else s₁.nodeState x := by
      intro x
      rw [nodeState_putHeap, initialFastInsert, Pqueue.pushBack_queue, Pqueue.setQueue_queue,
        Pqueue.setPriority_queue]
      rfl
    refine h.refills (e.refills.untouched (untouched_of_or (q := fun _ => .priorityMoving) rfl
      (fun _ => by decide) fun x => ?_)) fun _ => ⟨rfl, ?_⟩
    · rw [hstate]
      split
      · exact Or.inr rfl
      · exact Or.inl rfl
    · rw [hstate, if_pos rfl]
      decide

theorem newWork_attended {w : Work} {locked : Bool} (h : Attended P s)
    (hs : newWork P s t n w locked = .ok s') : Attended P s' := by
  rw [newWork] at hs
  obtain ⟨db, hdb, hs⟩ := Result.bind_eq_ok hs
  have hset : db.unprocessedFacts = true := by
    refine run_facts (w := w) ?_ (Result.ofOption_eq_ok hdb)
    split
    · exact Or.inl rfl
    · exact Or.inr rfl
  have hr := (edits_setNode s n { s.node n with db := db }).refills
  simp only at hs
  split at hs
  · obtain ⟨hu, hidle⟩ := addToQueue_untouched hs
    exact h.refills (hr.untouched hu) fun _ => ⟨hset, hidle⟩
  · next hidle =>
    obtain rfl := Except.ok.inj hs
    exact h.refills hr fun _ => ⟨hset, hidle⟩

theorem popBest_calm : Calm s n (popBest P s t) := by
  intro s' hs
  rw [popBest] at hs
  split at hs
  · exact absurd hs (by simp)
  obtain ⟨r, hr, hs⟩ := Result.bind_eq_ok hs
  obtain rfl := Except.ok.inj hs
  refine untouched_of_or (q := fun _ => .working) rfl (fun _ => by decide) fun x => ?_
  exact popBest_queue (Result.ofOption_eq_ok hr) x

omit [LinearOrder π] in
theorem popNormal_calm {w : Which} : Calm s n (popNormal s t w) := by
  intro s' hs
  rw [popNormal] at hs
  split at hs
  · exact absurd hs (by simp)
  · obtain rfl := Except.ok.inj hs
    exact untouched_of_or (q := fun _ => .working) rfl (fun _ => by decide) fun x =>
      DoubleQueue.popHead_queue .working x

theorem steal_calm {u : ℕ} : Calm s n (steal P s t u) := by
  intro s' hs
  obtain ⟨hnode, hstate⟩ := nodeState_steal hs
  exact untouched_of_or (q := fun _ => .stealing) hnode (fun _ => by decide) hstate

omit [LinearOrder π] in
theorem takeFacts_attended (h : Attended P s) (hs : takeFacts P s t = .ok s') :
    Attended P s' := by
  obtain ⟨n, db, -, -, hdb, e⟩ := takeFacts_edits hs
  exact h.refills e.refills fun hw => absurd hw (not_waiting_taken hdb)

omit [LinearOrder π] in
theorem seeNewOwner_attended (h : Attended P s) (hs : seeNewOwner s t = .ok s') :
    Attended P s' := by
  obtain ⟨n, facts, -, -, hfacts, e⟩ := seeNewOwner_edits hs
  refine h.refills e.refills fun hw => ?_
  obtain ⟨hset, hidle⟩ := h n ((waiting_congr rfl).mp hw)
  exact ⟨hfacts hset, fun hc => hidle (e.refills.idle n hc)⟩

omit [LinearOrder π] in
theorem check_calm : Calm s n (check s t) := by
  intro s' hs
  rw [check] at hs
  obtain ⟨m, -, hs⟩ := Result.bind_eq_ok hs
  obtain rfl := Except.ok.inj hs
  exact untouched_congr rfl rfl

theorem handOver_attended (h : Attended P s)
    (hok : P.justMoved.isSome → ∀ n, (s.thread t).currentNode = some n →
      (s.node n).db.unprocessedFacts = true)
    (hs : handOver P s t = .ok s') : Attended P s' := by
  rw [handOver] at hs
  obtain ⟨n, hn, hs⟩ := Result.bind_eq_ok hs
  obtain ⟨-, hcur⟩ := working_ok hn
  cases hstatic : (s.node n).static with
  | none => simp only [hstatic] at hs; exact absurd hs (by simp)
  | some newOwner =>
    simp only [hstatic] at hs
    obtain ⟨s₁, hs₁, hs⟩ := Result.bind_eq_ok hs
    obtain rfl := Except.ok.inj hs
    have hset : Untouched s (s.setOwner n newOwner) n := (edits_setNode s n _).untouched rfl
    have howner : Untouched s ((s.setOwner n newOwner).removeTemporaryPriority n) n :=
      hset.untouched ((edits_setNode _ n _).untouched rfl)
    obtain ⟨hmoved, hidle⟩ := moveNodeToNewOwner_refills hs₁
    rw [howner.self] at hmoved
    have hcurrent : Untouched s₁ (s₁.setCurrent t none) n := untouched_congr rfl rfl
    exact h.moved ((howner.trans hmoved).untouched hcurrent) fun hm => ⟨hok hm n hcur, hidle⟩

omit [LinearOrder π] in
/-- A node that becomes idle has no waiting tuples, since its flag is not set. -/
theorem finish_attended (h : Attended P s) (hs : finish s t = .ok s') : Attended P s' := by
  rw [finish] at hs
  obtain ⟨n, -, hs⟩ := Result.bind_eq_ok hs
  split at hs
  · next hfacts =>
    obtain rfl := Except.ok.inj hs
    have hdb : ∀ x, ((((makeInactive s n).removeTemporaryPriority n).setCurrent t none).node x).db =
        (s.node x).db := by
      intro x
      by_cases hx : x = n
      · subst hx
        simp [makeInactive, removeTemporaryPriority, Node.removeTemporaryPriority, setNode,
          setCurrent, setThread]
      · simp [makeInactive, removeTemporaryPriority, setNode, setCurrent, setThread, hx]
    intro x hx
    rw [hdb] at hx ⊢
    obtain ⟨hset, hidle⟩ := h x hx
    refine ⟨hset, ?_⟩
    have hxn : x ≠ n := by
      rintro rfl
      exact hfacts hset
    simpa [State.nodeState, makeInactive, removeTemporaryPriority, setNode, setCurrent, setThread,
      hxn] using hidle
  · obtain rfl := Except.ok.inj hs
    exact h.same (n := n) (untouched_congr rfl rfl) rfl rfl

theorem adopt_attended (h : Attended P s) (hok : Attentive P s (.adopt t))
    (hs : adopt P s t = .ok s') : Attended P s' := by
  rw [adopt] at hs
  split at hs
  · exact absurd hs (by simp)
  next n rest hbuf =>
  simp only at hs
  obtain ⟨s₁, hs₁⟩ : ∃ s₁, s₁ = s.setThread t { s.thread t with buffer := rest } := ⟨_, rfl⟩
  have hu : Untouched s s₁ n := hs₁ ▸ untouched_congr rfl rfl
  have hnode : s₁.node n = s.node n := by rw [hs₁]; rfl
  have hstate : s₁.nodeState n = s.nodeState n := by rw [hs₁]; rfl
  rw [← hs₁] at hs
  split at hs
  · obtain rfl := Except.ok.inj hs
    exact h.same hu rfl rfl
  next hstealing =>
  split at hs
  · next hstatic =>
    obtain ⟨hmoved, hidle⟩ := moveNodeToNewOwner_refills hs
    rw [hu.self] at hmoved
    refine h.moved (hu.trans hmoved) fun hm => ⟨(hok hm n ?_).1, hidle⟩
    rw [hnode] at hstatic
    rw [hstate, not_not] at hstealing
    simp only [buffered, hbuf, Option.mem_def]
    rw [if_pos ⟨hstealing, hstatic⟩]
  · have hadded : ∀ s₂ : State π, Untouched s₁ s₂ n →
        (s₂.setOwner n t).addToQueue P t n = .ok s' → Attended P s' := by
      intro s₂ hu₂ hs
      have howner : Untouched s₂ (s₂.setOwner n t) n := (edits_setNode s₂ n _).untouched rfl
      obtain ⟨hq, -⟩ := addToQueue_untouched hs
      exact h.same (((hu.untouched hu₂).untouched howner).untouched hq) rfl rfl
    split at hs
    · exact hadded _ ((edits_makeNodeStatic s₁ n t).untouched rfl) hs
    · exact hadded _ ((Edits.refl s₁ n).untouched rfl) hs

/-- **One step under the condition.** -/
theorem act_attended (h : Attended P s) {e : Event π} (hok : Attentive P s e)
    (hs : act P s e = .ok s') : Attended P s' := by
  cases e with
  | initNode t n => exact absurd hs (by simp [act])
  | synchronize => exact absurd hs (by simp [act])
  | newWork t n w locked => exact newWork_attended h hs
  | popBest t => exact h.calm (n := 0) popBest_calm hs
  | popNormal t w => exact h.calm (n := 0) popNormal_calm hs
  | takeFacts t => exact takeFacts_attended h hs
  | runRules t linear matcher =>
    obtain ⟨n, -, -, e⟩ := runRules_edits hs
    exact h.same e.refills rfl rfl
  | seeNewOwner t => exact seeNewOwner_attended h hs
  | check t => exact h.calm (n := 0) check_calm hs
  | handOver t => exact handOver_attended h (fun hm n hn => (hok hm n hn).1) hs
  | finish t => exact finish_attended h hs
  | steal t u => exact h.calm (n := 0) steal_calm hs
  | adopt t => exact adopt_attended h hok hs
  | setNodePriority t n priority => exact h.calm setNodePriority_calm hs
  | addNodePriority t n priority => exact h.calm addNodePriority_calm hs
  | removeNodePriority t n => exact h.calm removeNodePriority_calm hs
  | setDefaultNodePriority t n priority =>
    have hs : setDefaultNodePriority P s n priority = .ok s' := hs
    rw [setDefaultNodePriority] at hs
    split at hs
    · obtain rfl := Except.ok.inj hs
      exact h
    · obtain rfl := Except.ok.inj hs
      exact h.same (edits_setNode s n _).refills rfl rfl
  | scheduleNext t n =>
    have hs : scheduleNext P s t n = .ok s' := hs
    rw [scheduleNext] at hs
    split at hs
    · exact h.calm doSetNodePriority_calm hs
    · obtain rfl := Except.ok.inj hs
      exact h
  | setNodeStatic t n => exact h.calm setNodeStatic_calm hs
  | setNodeMoving t n => exact h.calm setNodeMoving_calm hs
  | setNodeCpu t n newOwner =>
    refine setNodeCpu_attended h (fun hm hon hbuf => ?_) hs
    obtain ⟨hset, hidle⟩ := hok hm n (if_pos ⟨hon, hbuf⟩)
    exact ⟨hset, hidle rfl⟩
  | setNodeAffinity t n affinity =>
    have hs : setNodeCpu P s t n (s.node affinity).owner = .ok s' := hs
    refine setNodeCpu_attended h (fun hm hon hbuf => ?_) hs
    obtain ⟨hset, hidle⟩ := hok hm n (if_pos ⟨hon, hbuf⟩)
    exact ⟨hset, hidle rfl⟩

theorem step_attended (h : Attended P s) {e : Event π} (hok : Attentive P s e)
    (hs : step P s e = .ok s') : Attended P s' := by
  rcases step_cases hs with ⟨t, n, rfl, -, hs⟩ | ⟨rfl, -, rfl⟩ | ⟨-, hs⟩
  · exact initNode_attended h hs
  · exact h
  · exact act_attended h hok hs

omit [LinearOrder π] in
theorem Initial.attended (h : Initial s) : Attended P s := by
  intro n hw
  obtain ⟨hincoming, hpersistent, haction⟩ := h.waiting n
  obtain ⟨i, -, hne⟩ | hne | hne := hw
  · exact absurd (hincoming i) hne
  · exact absurd hpersistent hne
  · exact absurd haction hne

/-! ## Runs -/

/-- By its state a node is queued, being stolen or worked on. -/
def Busy (q : QueueId) : Prop := (∃ k : Kind, q = k.number) ∨ q = .stealing ∨ q = .working

theorem busy_of_not_changing {q : QueueId} (hq : ¬ Changing q) (hidle : q ≠ .idle) : Busy q := by
  cases q with
  | normalMoving => exact Or.inl ⟨.normal .moving, rfl⟩
  | normalStatic => exact Or.inl ⟨.normal .stati, rfl⟩
  | priorityMoving => exact Or.inl ⟨.priority .moving, rfl⟩
  | priorityStatic => exact Or.inl ⟨.priority .stati, rfl⟩
  | stealing => exact Or.inr (Or.inl rfl)
  | working => exact Or.inr (Or.inr rfl)
  | idle => exact absurd rfl hidle
  | prioChange => exact absurd (Or.inl rfl) hq
  | staticChange => exact absurd (Or.inr (Or.inl rfl)) hq
  | affinityChange => exact absurd (Or.inr (Or.inr rfl)) hq

/-- A run under a condition is a run under a weaker one. -/
theorem Reach.mono {allowed allowed' : State π → Event π → Prop}
    (hallowed : ∀ s e, allowed s e → allowed' s e) (h : Reach P N allowed s) :
    Reach P N allowed' s := by
  induction h with
  | init h => exact .init h
  | step _ hnode hok hstep ih => exact ih.step hnode (hallowed _ _ hok) hstep

theorem Reach.attended {allowed : State π → Event π → Prop}
    (hallowed : ∀ s e, allowed s e → Attentive P s e) (h : Reach P N allowed s) :
    Attended P s := by
  induction h with
  | init h => exact h.attended
  | step _ _ hok hstep ih => exact step_attended ih (hallowed _ _ hok) hstep

/-- The node is in a queue of its owner, in the buffer of a thief, or its owner works on it. -/
def InPlace (s : State π) (n : ℕ) : Prop :=
  (∃ M k, WellQueued s M ∧ n ∈ M (s.node n).owner k) ∨ (∃ t, n ∈ (s.thread t).buffer) ∨
    (s.thread (s.node n).owner).currentNode = some n

theorem Inv.inPlace (I : Inv P N s) (hN : N < 2 ^ 30) (h : Busy (s.nodeState n)) :
    InPlace s n := by
  obtain ⟨k, hk⟩ | hq | hq := h
  · obtain ⟨M, hM⟩ := I.wellQueued hN
    obtain ⟨t, ht⟩ := hM.queued hk
    exact Or.inl ⟨M, k, hM, hM.owner ht ▸ ht⟩
  · exact Or.inr (Or.inl (I.book.stealing n hq))
  · exact Or.inr (Or.inr (I.book.working n hq))

/-- **In every state of a run under the condition, a node in which tuples wait has its flag set and
is queued, being stolen or worked on by its state**; and it is in a queue of its owner, in the
buffer of a thief or the node its owner works on, if also the calls for queued nodes come from their
owners. -/
theorem reach_attended (P : Program π) (N : ℕ) :
    (∀ s, Reach P N (Attentive P) s → ∀ n, Waiting P.work (s.node n).db →
      (s.node n).db.unprocessedFacts = true ∧ Busy (s.nodeState n)) ∧
    (N < 2 ^ 30 → ∀ s, Reach P N (fun s e => Attentive P s e ∧ OwnQueue P s e) s →
      ∀ n, Waiting P.work (s.node n).db → InPlace s n) := by
  have hbusy : ∀ (allowed : State π → Event π → Prop), (∀ s e, allowed s e → Attentive P s e) →
      ∀ s, Reach P N allowed s → ∀ n, Waiting P.work (s.node n).db →
        (s.node n).db.unprocessedFacts = true ∧ Busy (s.nodeState n) := by
    intro allowed hallowed s h n hw
    obtain ⟨hfacts, hidle⟩ := h.attended hallowed n hw
    exact ⟨hfacts, busy_of_not_changing (reach_settled h n) hidle⟩
  refine ⟨hbusy _ fun _ _ hok => hok, fun hN s h n hw => ?_⟩
  exact (h.inv hN fun _ _ hok => hok.2).inPlace hN (hbusy _ (fun _ _ hok => hok.1) s h n hw).2

/-- The first thread lets its node go, and the second sends a fact to it, which has to wait.  The
first takes the node again, and the second gives it to itself meanwhile. -/
def attendedCalls : List (Event ℕ) :=
  [.initNode 0 1, .synchronize, .popNormal 0 .moving, .takeFacts 0, .check 0, .finish 0,
    .newWork 1 1 (.tuple [] ⟨1, true, false, false, ⟨1, false, 0⟩⟩ .positive 0) false,
    .popNormal 0 .moving, .setNodeCpu 1 1 1, .check 0, .handOver 0]

theorem reach_attended_handed : ∃ s,
    run (scheduled true) 1 (fun s e => Attentive (scheduled true) s e ∧
        OwnQueue (scheduled true) s e) start attendedCalls = some s ∧
      (s.node 1).db.store.incoming 1 = [[], []] ∧
      ((s.node 1).db.unprocessedFacts = true ∧ Busy (s.nodeState 1)) ∧ InPlace s 1 := by
  have hend : (run (scheduled true) 1 (fun s e => Attentive (scheduled true) s e ∧
      OwnQueue (scheduled true) s e) start attendedCalls).map
        (fun s => (s.node 1).db.store.incoming 1) = some [[], []] := by decide +kernel
  obtain ⟨s, hrun, hincoming⟩ := Option.map_eq_some_iff.mp hend
  have hw : Waiting (scheduled true).work (s.node 1).db :=
    Or.inl ⟨1, by decide, by rw [hincoming]; decide⟩
  have hboth := (Reach.init initial_start).run hrun
  have hflagged := hboth.mono fun _ _ hok => hok.1
  obtain ⟨hflag, hplace⟩ := reach_attended (scheduled true) 1
  exact ⟨s, hrun, hincoming, hflag s hflagged 1 hw, hplace (by decide) s hboth 1 hw⟩

/-- The first thread lets its node go and sends it to the second. -/
def movedIdle : List (Event ℕ) :=
  [.initNode 0 1, .synchronize, .popNormal 0 .moving, .takeFacts 0, .check 0, .finish 0,
    .setNodeCpu 0 1 1]

/-- **A tuple that nobody looks at** waits in a node that is idle and whose flag is not set. -/
theorem not_forall_attended : ¬ ∀ s : State ℕ, Reach (scheduled true) 1 (fun _ _ => True) s →
    ∀ n, Waiting (scheduled true).work (s.node n).db →
      (s.node n).db.unprocessedFacts = true ∧ Busy (s.nodeState n) := by
  intro hall
  have hend : (run (scheduled true) 1 (fun _ _ => True) start movedIdle).map (fun s =>
      ((s.node 1).db.store.incoming 1, (s.node 1).db.unprocessedFacts, s.nodeState 1)) =
      some ([[]], false, .idle) := by decide +kernel
  obtain ⟨s, hrun, hs⟩ := Option.map_eq_some_iff.mp hend
  simp only [Prod.mk.injEq] at hs
  obtain ⟨hincoming, hfacts, -⟩ := hs
  have hw : Waiting (scheduled true).work (s.node 1).db :=
    Or.inl ⟨1, by decide, by rw [hincoming]; decide⟩
  obtain ⟨hset, -⟩ := hall s ((Reach.init initial_start).run hrun) 1 hw
  rw [hfacts] at hset
  exact absurd hset (by decide)

end Coord
end Meld
