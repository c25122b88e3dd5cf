import Meld.Thread.CoordAborts

/-!
# The retry loop of `set_node_owner`

A queued node is given to another thread by taking it out of its queue.  `set_node_owner` tries this
again and again while it holds the lock of the node, and the queue it tries is the one of the
calling thread, whoever owns the node.  A list gives away every node with its number.  A heap does
not when it is empty, and since the node is locked, nobody changes its state: the next round is the
same one.

`setNodeOwner` has the end of the loop built in, here it is followed round by round.

* `ownerRound`, `ownerLoop`, `setNodeOwnerRounds`: the loop, with a bound on its rounds.
* `setNodeOwnerRounds_eq`: whatever the bound is, this is `setNodeOwner`.
* `Stuck s t n newOwner`: the calls that stay in the loop.
* `setNodeOwner_ends_iff`: in every state of every run these are the only ones.
-/

namespace Meld
namespace Coord

open State

variable {π : Type} [LinearOrder π] (P : Program π)

/-- The removal in one round for a queued node, with `done`. -/
def tryChangeOwner (s : State π) (t : ℕ) (k : Kind) (n newOwner : ℕ) :
    Result (State π × Bool) := do
  let r ← s.remove P t k n .affinityChange
  if r.2 then do
    let s' ← (r.1.setOwner n newOwner).moveNodeToNewOwner P n newOwner
    .ok (s', true)
  else .ok (r.1, false)

/-- One round of the loop of `set_node_owner`: the state after it, and `done`. -/
def ownerRound (s : State π) (t n newOwner : ℕ) : Result (State π × Bool) :=
  match s.nodeState n with
  | .stealing => .ok (s.setOwner n newOwner, true)
  | .normalStatic => tryChangeOwner P s t (.normal .stati) n newOwner
  | .normalMoving => tryChangeOwner P s t (.normal .moving) n newOwner
  | .priorityMoving => tryChangeOwner P s t (.priority .moving) n newOwner
  | .priorityStatic => tryChangeOwner P s t (.priority .stati) n newOwner
  | .working => .ok (s, true)
  | .idle => .ok ((s.setOwner n newOwner).justMovedBuffer P n, true)
  | .prioChange | .staticChange | .affinityChange => .error .abort

/-- The loop of `set_node_owner`, in which no other thread takes a step.  It is given up after a
number of rounds. -/
def ownerLoop (t n newOwner : ℕ) : ℕ → State π → Result (State π)
  | 0, _ => .error .hang
  | rounds + 1, s => do
    let r ← ownerRound P s t n newOwner
    if r.2 then .ok r.1 else ownerLoop t n newOwner rounds r.1

/-- `set_node_owner`, with at most this many rounds of the loop. -/
def setNodeOwnerRounds (rounds : ℕ) (s : State π) (t n newOwner : ℕ) : Result (State π) :=
  if (s.thread t).currentNode = some n then do
    let s ← (if newOwner = t then s.justMoved P n else .ok s)
    .ok (s.makeNodeStatic n newOwner)
  else
    let r := s.makeNodeStatic n newOwner
    if (s.node n).owner = newOwner then .ok (r.justMovedBuffer P n)
    else ownerLoop P t n newOwner rounds r

/-- **The calls that stay in the loop**: the node is in a heap, and the heap of this kind of the
calling thread is empty. -/
def Stuck (s : State π) (t n newOwner : ℕ) : Prop :=
  (s.thread t).currentNode ≠ some n ∧ (s.node n).owner ≠ newOwner ∧
    ∃ w, s.nodeState n = (Kind.priority w).number ∧ (s.thread t).prios w = []

variable {P} {s s' : State π} {t n newOwner N : ℕ}

/-- Writing back one heap that did not change. -/
theorem putHeap_self (w : Which) : s.putHeap P t w ((s.heaps P t).get w) = s := by
  rw [putHeap, Priorities.put_get, putHeaps_self]

/-- **A removal that fails** leaves everything as it is, and the queue was an empty heap. -/
theorem remove_false {k : Kind} {change : QueueId} (hstate : s.nodeState n = k.number)
    (h : s.remove P t k n change = .ok (s', false)) :
    s' = s ∧ ∃ w, k = .priority w ∧ (s.thread t).prios w = [] := by
  cases k with
  | normal w =>
    have hnumber : ((s.normal t w).link n).queue = (s.normal t w).queueNumber := hstate
    simp [State.remove, DoubleQueue.remove, hnumber] at h
  | priority w =>
    have hnumber : (((s.heaps P t).get w).obj n).queue = ((s.heaps P t).get w).queueNumber :=
      hstate
    obtain ⟨r, hr, h⟩ := Result.bind_eq_ok h
    have hr := Result.ofOption_eq_ok hr
    simp only [Except.ok.injEq, Prod.mk.injEq] at h
    obtain ⟨rfl, hr2⟩ := h
    rw [Pqueue.remove] at hr
    split at hr
    · next hempty =>
      obtain rfl := Option.some.inj hr
      refine ⟨putHeap_self w, w, rfl, ?_⟩
      rw [Priorities.heap_get, heap_heaps] at hempty
      exact List.isEmpty_iff.mp hempty
    · rw [if_neg (not_not.mpr hnumber)] at hr
      obtain ⟨q, -, hq⟩ := Option.bind_eq_some_iff.mp hr
      obtain rfl := Option.some.inj hq
      cases hr2

/-- A removal from an empty heap fails. -/
theorem remove_of_nil {w : Which} {change : QueueId} (h : (s.thread t).prios w = []) :
    s.remove P t (.priority w) n change = .ok (s, false) := by
  have hempty : ((s.heaps P t).get w).heap.isEmpty = true := by
    rw [Priorities.heap_get, heap_heaps, h]
    rfl
  show (Result.ofOption (((s.heaps P t).get w).remove n change) >>= fun r =>
    .ok (s.putHeap P t w r.1, r.2)) = _
  rw [Pqueue.remove, if_pos hempty]
  show Except.ok (s.putHeap P t w ((s.heaps P t).get w), false) = _
  rw [putHeap_self]

/-- A round without success is one that hangs. -/
theorem tryChangeOwner_false {k : Kind} (newOwner : ℕ) (hstate : s.nodeState n = k.number)
    (h : s.remove P t k n .affinityChange = .ok (s', false)) :
    tryChangeOwner P s t k n newOwner = .ok (s, false) ∧
      changeOwner P s t k n newOwner = .error .hang := by
  obtain ⟨rfl, -⟩ := remove_false hstate h
  rw [tryChangeOwner, changeOwner, h]
  exact ⟨rfl, rfl⟩

/-- Any other round is the last one. -/
theorem tryChangeOwner_true {k : Kind} (newOwner : ℕ)
    (h : ∀ s', s.remove P t k n .affinityChange ≠ .ok (s', false)) :
    tryChangeOwner P s t k n newOwner =
      (changeOwner P s t k n newOwner).map fun s' => (s', true) := by
  rw [tryChangeOwner, changeOwner]
  rcases hr : s.remove P t k n .affinityChange with f | ⟨r, b⟩
  · rfl
  · cases b with
    | false => exact absurd hr (h r)
    | true =>
      show ((r.setOwner n newOwner).moveNodeToNewOwner P n newOwner >>= fun s' =>
          Except.ok (s', true)) =
        ((r.setOwner n newOwner).moveNodeToNewOwner P n newOwner).map fun s' => (s', true)
      rcases (r.setOwner n newOwner).moveNodeToNewOwner P n newOwner with f | s₁ <;> rfl

/-- **A round for a queued node** is followed by the same round or by none. -/
theorem ownerLoop_queued {k : Kind} (hstate : s.nodeState n = k.number)
    (hround : ownerRound P s t n newOwner = tryChangeOwner P s t k n newOwner) (rounds : ℕ) :
    ownerLoop P t n newOwner (rounds + 1) s = changeOwner P s t k n newOwner := by
  by_cases hr : ∃ s', s.remove P t k n .affinityChange = .ok (s', false)
  · obtain ⟨s', hr⟩ := hr
    obtain ⟨htry, hhang⟩ := tryChangeOwner_false newOwner hstate hr
    rw [hhang]
    induction rounds with
    | zero =>
      rw [ownerLoop, hround, htry]
      rfl
    | succ rounds ih =>
      rw [ownerLoop, hround, htry]
      exact ih
  · have htry := tryChangeOwner_true newOwner (not_exists.mp hr)
    rw [ownerLoop, hround, htry]
    rcases changeOwner P s t k n newOwner with f | s₁ <;> rfl

/-- **The loop round by round is the function**, whatever the bound on the rounds is. -/
theorem setNodeOwnerRounds_eq (rounds : ℕ) :
    setNodeOwnerRounds P (rounds + 1) s t n newOwner = setNodeOwner P s t n newOwner := by
  rw [setNodeOwnerRounds, setNodeOwner]
  split
  · rfl
  simp only
  split
  · rfl
  have hkeep : (s.makeNodeStatic n newOwner).nodeState n = s.nodeState n :=
    (edits_makeNodeStatic s n newOwner).nodeState n
  have hqueued : ∀ {k : Kind}, s.nodeState n = k.number →
      ownerRound P (s.makeNodeStatic n newOwner) t n newOwner =
        tryChangeOwner P (s.makeNodeStatic n newOwner) t k n newOwner →
      ownerLoop P t n newOwner (rounds + 1) (s.makeNodeStatic n newOwner) =
        changeOwner P (s.makeNodeStatic n newOwner) t k n newOwner := fun hstate hround =>
    ownerLoop_queued (hkeep.trans hstate) hround rounds
  cases hstate : s.nodeState n with
  | normalStatic | normalMoving | priorityMoving | priorityStatic =>
    refine hqueued hstate ?_
    rw [ownerRound, hkeep, hstate]
  | stealing | working | idle | prioChange | staticChange | affinityChange =>
    rw [ownerLoop, ownerRound, hkeep, hstate]
    rfl

theorem ok_ne_hang {α : Type} {a : α} : (.ok a : Result α) ≠ .error .hang := by
  intro h
  cases h

/-- An access that may be wild does not hang. -/
theorem bind_ofOption_ne_hang {α β : Type} {o : Option α} {f : α → β} :
    (Result.ofOption o >>= fun a => (.ok (f a) : Result β)) ≠ .error .hang := by
  cases o with
  | none => exact fun h => absurd (Except.error.inj h) (by decide)
  | some a => exact ok_ne_hang

theorem add_ne_hang {k : Kind} : s.add P t k n ≠ .error .hang := by
  cases k with
  | normal w => exact ok_ne_hang
  | priority w => exact bind_ofOption_ne_hang

theorem remove_ne_hang {k : Kind} {change : QueueId} :
    s.remove P t k n change ≠ .error .hang := by
  cases k with
  | normal w => exact ok_ne_hang
  | priority w => exact bind_ofOption_ne_hang

omit [LinearOrder π] in
theorem justMoved_ne_hang : s.justMoved P n ≠ .error .hang := by
  rw [State.justMoved]
  split
  · exact bind_ofOption_ne_hang
  · exact ok_ne_hang

/-- **The case of a queued node** hangs exactly on an empty heap. -/
theorem changeOwner_hang_iff {k : Kind} (hstate : s.nodeState n = k.number) :
    changeOwner P s t k n newOwner = .error .hang ↔
      ∃ w, k = .priority w ∧ (s.thread t).prios w = [] := by
  constructor
  · intro h
    by_cases hr : ∃ s', s.remove P t k n .affinityChange = .ok (s', false)
    · obtain ⟨s', hr⟩ := hr
      exact (remove_false hstate hr).2
    · exfalso
      rw [changeOwner] at h
      rcases hr' : s.remove P t k n .affinityChange with f | ⟨r, b⟩
      · rw [hr'] at h
        have hf : (.error f : Result (State π)) = .error .hang := h
        rw [Except.error.inj hf] at hr'
        exact remove_ne_hang hr'
      · cases b with
        | false => exact hr ⟨r, hr'⟩
        | true =>
          rw [hr'] at h
          exact add_ne_hang h
  · rintro ⟨w, rfl, hnil⟩
    exact (tryChangeOwner_false newOwner hstate (remove_of_nil hnil)).2

/-- The call hangs exactly if it is stuck. -/
theorem setNodeOwner_hang_iff :
    setNodeOwner P s t n newOwner = .error .hang ↔ Stuck s t n newOwner := by
  have e := edits_makeNodeStatic s n newOwner
  have hkeep : (s.makeNodeStatic n newOwner).nodeState n = s.nodeState n := e.nodeState n
  have hprios : ∀ w, ((s.makeNodeStatic n newOwner).thread t).prios w = (s.thread t).prios w :=
    fun w => e.queue t (.priority w)
  rw [setNodeOwner]
  split
  next hcur =>
    refine iff_of_false ?_ fun hs => hs.1 hcur
    split
    · rcases hm : s.justMoved P n with f | s₁
      · rintro h
        have hf : (.error f : Result (State π)) = .error .hang := h
        rw [Except.error.inj hf] at hm
        exact justMoved_ne_hang hm
      · exact ok_ne_hang
    · exact ok_ne_hang
  next hcur =>
  simp only
  split
  next ho => exact iff_of_false ok_ne_hang fun hs => hs.2.1 ho
  next ho =>
  have hqueued : ∀ {k : Kind}, s.nodeState n = k.number →
      (changeOwner P (s.makeNodeStatic n newOwner) t k n newOwner = .error .hang ↔
        Stuck s t n newOwner) := by
    intro k hk
    rw [changeOwner_hang_iff (hkeep.trans hk)]
    constructor
    · rintro ⟨w, rfl, hnil⟩
      exact ⟨hcur, ho, w, hk, (hprios w).symm.trans hnil⟩
    · rintro ⟨-, -, w, hw, hnil⟩
      exact ⟨w, Kind.number_inj (hk.symm.trans hw), (hprios w).trans hnil⟩
  have helse : (∀ w, s.nodeState n ≠ (Kind.priority w).number) → ¬ Stuck s t n newOwner := by
    rintro hne ⟨-, -, w, hw, -⟩
    exact hne w hw
  cases hstate : s.nodeState n with
  | normalStatic | normalMoving | priorityMoving | priorityStatic => exact hqueued hstate
  | stealing | working | idle =>
    refine iff_of_false ok_ne_hang (helse fun w => ?_)
    rw [hstate]
    cases w <;> decide
  | prioChange | staticChange | affinityChange =>
    refine iff_of_false (fun h => absurd (Except.error.inj h) (by decide)) (helse fun w => ?_)
    rw [hstate]
    cases w <;> decide

/-- A call that is stuck has not come to an end after any number of rounds. -/
theorem Stuck.hang (h : Stuck s t n newOwner) (rounds : ℕ) :
    setNodeOwnerRounds P rounds s t n newOwner = .error .hang := by
  cases rounds with
  | zero =>
    rw [setNodeOwnerRounds, if_neg h.1]
    simp only
    rw [if_neg h.2.1, ownerLoop]
  | succ rounds =>
    rw [setNodeOwnerRounds_eq]
    exact setNodeOwner_hang_iff.mpr h

/-- **In every state of every run the retry loop ends after finitely many rounds**, and not in the
branch that is not meant to be reached, exactly if the call is not stuck. -/
theorem setNodeOwner_ends_iff (h : Reach P N (fun _ _ => True) s) :
    (∃ rounds, setNodeOwnerRounds P rounds s t n newOwner ≠ .error .hang ∧
        setNodeOwnerRounds P rounds s t n newOwner ≠ .error .abort) ↔
      ¬ Stuck s t n newOwner := by
  constructor
  · rintro ⟨rounds, hhang, -⟩ hs
    exact hhang (hs.hang rounds)
  · intro hs
    refine ⟨1, ?_, ?_⟩
    · rw [setNodeOwnerRounds_eq]
      exact fun hhang => hs (setNodeOwner_hang_iff.mp hhang)
    · rw [setNodeOwnerRounds_eq]
      exact (setNodeOwner_keeps (reach_settled h)).abort

/-- The first thread sends a node of its heap to the second. -/
theorem setNodeOwner_ends_own : ∃ s,
    run (scheduled false) 1 (fun _ _ => True) start
        [.initNode 0 1, .synchronize, .setNodePriority 0 1 5] = some s ∧
      ∃ rounds, setNodeOwnerRounds (scheduled false) rounds s 0 1 1 ≠ .error .hang ∧
        setNodeOwnerRounds (scheduled false) rounds s 0 1 1 ≠ .error .abort := by
  have hend : (run (scheduled false) 1 (fun _ _ => True) start
      [.initNode 0 1, .synchronize, .setNodePriority 0 1 5]).map
      (fun s => (s.nodeState 1, (s.thread 0).prios .moving)) = some (.priorityMoving, [1]) := by
    decide +kernel
  obtain ⟨s, hrun, hs⟩ := Option.map_eq_some_iff.mp hend
  simp only [Prod.mk.injEq] at hs
  obtain ⟨hstate, hprios⟩ := hs
  refine ⟨s, hrun, (setNodeOwner_ends_iff ((Reach.init initial_start).run hrun)).mpr ?_⟩
  rintro ⟨-, -, w, hw, hnil⟩
  rw [hstate] at hw
  cases w with
  | moving => exact absurd (hprios.symm.trans hnil) (by decide)
  | stati => exact absurd hw (by decide)

/-- **The call that never returns**: the second thread, which has no node with a priority, sends a
node of the heap of the first to a third one. -/
theorem not_forall_setNodeOwner_ends : ¬ ∀ (s : State ℕ) (t n newOwner : ℕ),
    Reach (scheduled false) 1 (fun _ _ => True) s → 0 < n ∧ n ≤ 1 →
      ∃ rounds, setNodeOwnerRounds (scheduled false) rounds s t n newOwner ≠ .error .hang ∧
        setNodeOwnerRounds (scheduled false) rounds s t n newOwner ≠ .error .abort := by
  intro hall
  have hend : (run (scheduled false) 1 (fun _ _ => True) start
      [.initNode 0 1, .synchronize, .setNodePriority 0 1 5]).map (fun s =>
      (s.nodeState 1, (s.thread 1).prios .moving, (s.thread 1).currentNode, (s.node 1).owner)) =
      some (.priorityMoving, [], none, 0) := by decide +kernel
  obtain ⟨s, hrun, hs⟩ := Option.map_eq_some_iff.mp hend
  simp only [Prod.mk.injEq] at hs
  obtain ⟨hstate, hprios, hcur, ho⟩ := hs
  have hstuck : Stuck s 1 1 2 :=
    ⟨by rw [hcur]; exact nofun, by rw [ho]; decide, .moving, hstate, hprios⟩
  obtain ⟨rounds, hhang, -⟩ := hall s 1 1 2 ((Reach.init initial_start).run hrun) (by decide)
  exact hhang (hstuck.hang rounds)

end Coord
end Meld
