import Meld.Queue.SharedHeaps
import Meld.Thread.Coord

/-!
# The queues of all threads

The queues are right when every one of them is a proper list or heap and a node is in a queue
exactly if it belongs to its thread and carries its number.  An operation of a queue touches the
links of its members and of the node it is called with, and these are in no other queue.

* `Has P s t k l`: the queue `k` of the thread `t` has the members `l`.
* `Queued P s M`: every queue has the members `M t k`, and these are the nodes of the thread with
  the number of the queue.
* `Places s s' n q`: from `s` to `s'` only queues have changed, and only the state of `n`, to `q`.
* `Queued.add`, `Queued.remove`, `Queued.moveNode`, `Queued.shift`, `Queued.popNormal`, ...: the
  operations.
-/

namespace Meld
namespace Coord

open State

variable {π : Type} [LinearOrder π] {P : Program π} {s s' : State π}

/-- A state that is not the number of a queue. -/
def Unqueued (q : QueueId) : Prop := ∀ k : Kind, q ≠ k.number

theorem Kind.number_inj {k k' : Kind} (h : k.number = k'.number) : k = k' := by
  rcases k with w | w <;> rcases k' with w' | w' <;> rcases w with _ | _ <;>
    rcases w' with _ | _ <;> first | rfl | exact absurd h (by decide)

theorem Kind.number_ne_idle (k : Kind) : k.number ≠ .idle := by
  rcases k with (_ | _) | (_ | _) <;> decide

/-- **The members of a queue.** -/
def Has (P : Program π) (s : State π) (t : ℕ) (k : Kind) (l : List ℕ) : Prop :=
  match k with
  | .normal w => (s.normal t w).Holds l
  | .priority w => (s.thread t).prios w = l ∧ ((s.heaps P t).get w).Shaped

/-- The queue has not been written. -/
def SameQueue (s s' : State π) (t : ℕ) : Kind → Prop
  | .normal w => (s'.thread t).queues w = (s.thread t).queues w
  | .priority w => (s'.thread t).prios w = (s.thread t).prios w

omit [LinearOrder π] in
@[simp] theorem heap_heaps (t : ℕ) (w : Which) : (s.heaps P t).heap w = (s.thread t).prios w := by
  cases w <;> rfl

/-- The members carry the number of the queue. -/
theorem Has.nodeState {t : ℕ} {k : Kind} {l : List ℕ} (h : Has P s t k l) {x : ℕ} (hx : x ∈ l) :
    s.nodeState x = k.number := by
  cases k with
  | normal w => exact DoubleQueue.Holds.queue h x hx
  | priority w =>
    obtain ⟨rfl, hs⟩ := h
    refine hs.queue x ?_
    rw [Priorities.heap_get, heap_heaps]
    exact hx

theorem Has.nodup {t : ℕ} {k : Kind} {l : List ℕ} (h : Has P s t k l) : l.Nodup := by
  cases k with
  | normal w => exact DoubleQueue.Holds.nodup h
  | priority w =>
    obtain ⟨rfl, hs⟩ := h
    have hnodup := hs.placed.nodup
    rwa [Priorities.heap_get, heap_heaps] at hnodup

/-- A heap is a matter of its members. -/
theorem shaped_congr {q q' : Pqueue ℕ π} (h : q.Shaped) (hnum : q'.queueNumber = q.queueNumber)
    (htyp : q'.typ = q.typ) (hheap : q'.heap = q.heap)
    (hobj : ∀ x ∈ q.heap, q'.obj x = q.obj x) : q'.Shaped := by
  have hkeys : q'.keys = q.keys := by
    funext i
    simp only [Pqueue.keys, hheap]
    cases hx : q.heap[i]? with
    | none => rfl
    | some x => simp only [Option.map_some, hobj x (List.mem_of_getElem? hx)]
  refine ⟨?_, ?_, ?_⟩
  · rw [hkeys, htyp, hheap]
    exact h.ordered
  · intro i x hx
    rw [hheap] at hx
    rw [hobj x (List.mem_of_getElem? hx)]
    exact h.placed i x hx
  · intro x hx
    rw [hheap] at hx
    rw [hobj x hx, hnum]
    exact h.queue x hx

/-- A queue is a matter of its own fields and of the links of its members. -/
theorem Has.congr {t : ℕ} {k : Kind} {l : List ℕ} (h : Has P s t k l) (hq : SameQueue s s' t k)
    (hlink : ∀ x ∈ l, s'.link x = s.link x) : Has P s' t k l := by
  cases k with
  | normal w =>
    have hq' : (s'.thread t).queues w = (s.thread t).queues w := hq
    refine DoubleQueue.Holds.congr h rfl ?_ ?_ ?_ hlink
    · simp only [State.normal, hq']
    · simp only [State.normal, hq']
    · simp only [State.normal, hq']
  | priority w =>
    obtain ⟨rfl, hs⟩ := h
    refine ⟨hq, shaped_congr hs rfl rfl ?_ ?_⟩
    · rw [Priorities.heap_get, Priorities.heap_get, heap_heaps, heap_heaps]
      exact hq
    · intro x hx
      rw [Priorities.heap_get, heap_heaps] at hx
      simp only [Priorities.obj_get, heaps, State.obj, hlink x hx]

/-! ## All queues -/

/-- **The queues are right**: the members of a queue are the nodes of its thread that carry its
number. -/
structure Queued (P : Program π) (s : State π) (M : ℕ → Kind → List ℕ) : Prop where
  has : ∀ t k, Has P s t k (M t k)
  mem : ∀ t k x, x ∈ M t k ↔ (s.node x).owner = t ∧ s.nodeState x = k.number

section Queued

variable {M : ℕ → Kind → List ℕ} {t : ℕ} {k : Kind} {x : ℕ}

/-- A node is in one queue at most. -/
theorem Queued.unique (h : Queued P s M) {t' : ℕ} {k' : Kind} (hx : x ∈ M t k)
    (hx' : x ∈ M t' k') : t' = t ∧ k' = k := by
  obtain ⟨ht, hk⟩ := (h.mem t k x).mp hx
  obtain ⟨ht', hk'⟩ := (h.mem t' k' x).mp hx'
  exact ⟨ht'.symm.trans ht, Kind.number_inj (hk'.symm.trans hk)⟩

theorem Queued.notMem (h : Queued P s M) (hx : Unqueued (s.nodeState x)) : x ∉ M t k :=
  fun hm => hx k ((h.mem t k x).mp hm).2

/-- Fields other than links and queues may change, except the owner of a queued node. -/
theorem Queued.congr (h : Queued P s M) (hlink : s'.link = s.link)
    (hqueue : ∀ t k, SameQueue s s' t k)
    (howner : ∀ x, (s'.node x).owner = (s.node x).owner ∨ Unqueued (s.nodeState x)) :
    Queued P s' M := by
  refine ⟨fun t k => (h.has t k).congr (hqueue t k) fun x _ => by rw [hlink], ?_⟩
  intro t k x
  have hstate : s'.nodeState x = s.nodeState x := by rw [State.nodeState, hlink]; rfl
  rw [h.mem t k x, hstate]
  rcases howner x with ho | hu
  · rw [ho]
  · exact iff_of_false (fun hc => hu k hc.2) fun hc => hu k hc.2

/-- **An operation on one queue**: its new members are `l`.  A node that comes was in no queue, and
one that goes has a state outside the queues. -/
theorem Queued.update (h : Queued P s M) {l : List ℕ} (hhas : Has P s' t k l)
    (hsame : ∀ t' k', (t' = t → k' ≠ k) → SameQueue s s' t' k')
    (hnode : s'.node = s.node)
    (hlink : ∀ x, x ∉ l → x ∉ M t k → s'.link x = s.link x)
    (hcome : ∀ x ∈ l, x ∉ M t k → (s.node x).owner = t ∧ Unqueued (s.nodeState x))
    (hgone : ∀ x ∈ M t k, x ∉ l → Unqueued (s'.nodeState x)) :
    Queued P s' (Function.update M t (Function.update (M t) k l)) := by
  obtain ⟨M', hM'⟩ : ∃ M', M' = Function.update M t (Function.update (M t) k l) := ⟨_, rfl⟩
  have hself : M' t k = l := by rw [hM']; simp
  have hother : ∀ t' k', (t' = t → k' ≠ k) → M' t' k' = M t' k' := by
    intro t' k' hne
    rw [hM']
    by_cases ht : t' = t
    · subst ht
      simp [hne rfl]
    · simp [ht]
  have howner : ∀ x ∈ l, (s.node x).owner = t := by
    intro x hx
    by_cases hm : x ∈ M t k
    · exact ((h.mem t k x).mp hm).1
    · exact (hcome x hx hm).1
  rw [← hM']
  -- a node that is touched is in no other queue, neither before nor afterwards
  have hapart : ∀ t' k' x, (t' = t → k' ≠ k) → x ∈ M t' k' → x ∉ l ∧ x ∉ M t k := by
    intro t' k' x hne hx
    have hnot : x ∉ M t k := fun hm => (fun hu => hne hu.1 hu.2) (h.unique hm hx)
    refine ⟨fun hl => ?_, hnot⟩
    exact (hcome x hl hnot).2 k' ((h.mem t' k' x).mp hx).2
  refine ⟨?_, ?_⟩
  · intro t' k'
    by_cases heq : t' = t ∧ k' = k
    · obtain ⟨rfl, rfl⟩ := heq
      rw [hself]
      exact hhas
    · have hne : t' = t → k' ≠ k := fun ht hk => heq ⟨ht, hk⟩
      rw [hother t' k' hne]
      refine (h.has t' k').congr (hsame t' k' hne) ?_
      intro x hx
      obtain ⟨hl, hm⟩ := hapart t' k' x hne hx
      exact hlink x hl hm
  · intro t' k' x
    rw [hnode]
    by_cases hl : x ∈ l
    · have hstate := hhas.nodeState hl
      have ho := howner x hl
      by_cases heq : t' = t ∧ k' = k
      · obtain ⟨rfl, rfl⟩ := heq
        rw [hself]
        exact iff_of_true hl ⟨ho, hstate⟩
      · have hne : t' = t → k' ≠ k := fun ht hk => heq ⟨ht, hk⟩
        rw [hother t' k' hne]
        refine iff_of_false (fun hx => (hapart t' k' x hne hx).1 hl) ?_
        rintro ⟨ht, hk⟩
        exact heq ⟨ht.symm.trans ho, Kind.number_inj (hk.symm.trans hstate)⟩
    · by_cases hm : x ∈ M t k
      · refine iff_of_false ?_ fun hc => hgone x hm hl k' hc.2
        intro hx
        by_cases heq : t' = t ∧ k' = k
        · obtain ⟨rfl, rfl⟩ := heq
          rw [hself] at hx
          exact hl hx
        · have hne : t' = t → k' ≠ k := fun ht hk => heq ⟨ht, hk⟩
          rw [hother t' k' hne] at hx
          exact (hapart t' k' x hne hx).2 hm
      · have hstate : s'.nodeState x = s.nodeState x := by
          rw [State.nodeState, hlink x hl hm]
          rfl
        rw [hstate, ← h.mem t' k' x]
        by_cases heq : t' = t ∧ k' = k
        · obtain ⟨rfl, rfl⟩ := heq
          rw [hself]
          exact iff_of_false hl hm
        · rw [hother t' k' fun ht hk => heq ⟨ht, hk⟩]

end Queued

/-! ## Reading after writing -/

section Access

variable {t : ℕ} {w : Which}

/-- The fields of a thread that belong to no queue. -/
structure Thread.Same (a b : Thread) : Prop where
  currentNode : b.currentNode = a.currentNode
  phase : b.phase = a.phase
  target : b.target = a.target
  buffer : b.buffer = a.buffer

theorem Thread.Same.refl (a : Thread) : a.Same a := ⟨rfl, rfl, rfl, rfl⟩

theorem Thread.Same.trans {a b c : Thread} (h : a.Same b) (h' : b.Same c) : a.Same c :=
  ⟨h'.currentNode.trans h.currentNode, h'.phase.trans h.phase, h'.target.trans h.target,
    h'.buffer.trans h.buffer⟩

/-- Only one queue and the links have been written. -/
structure Touched (s s' : State π) (t : ℕ) (k : Kind) : Prop where
  node : s'.node = s.node
  started : s'.started = s.started
  thread : ∀ t', (s.thread t').Same (s'.thread t')
  queue : ∀ t' k', (t' = t → k' ≠ k) → SameQueue s s' t' k'

omit [LinearOrder π] in
theorem touched_putNormal {q : DoubleQueue} :
    Touched s (s.putNormal t w q) t (.normal w) := by
  refine ⟨rfl, rfl, ?_, ?_⟩
  · intro t'
    by_cases ht : t' = t
    · subst ht
      simp only [putNormal, setThread, Function.update_self]
      exact ⟨rfl, rfl, rfl, rfl⟩
    · simp only [putNormal, setThread, Function.update_of_ne ht]
      exact Thread.Same.refl _
  · intro t' k' hne
    by_cases ht : t' = t
    · subst ht
      cases k' with
      | normal w' =>
        have hw : w' ≠ w := by
          rintro rfl
          exact hne rfl rfl
        simp only [SameQueue, putNormal, setThread, Function.update_self,
          Function.update_of_ne hw]
      | priority w' => simp only [SameQueue, putNormal, setThread, Function.update_self]
    · cases k' with
      | normal w' => simp only [SameQueue, putNormal, setThread, Function.update_of_ne ht]
      | priority w' => simp only [SameQueue, putNormal, setThread, Function.update_of_ne ht]

omit [LinearOrder π] in
@[simp] theorem link_putNormal {q : DoubleQueue} : (s.putNormal t w q).link = q.link := rfl

omit [LinearOrder π] in
theorem normal_putNormal {q : DoubleQueue} (hnum : q.queueNumber = (Kind.normal w).number) :
    (s.putNormal t w q).normal t w = q := by
  simp only [State.normal, putNormal, setThread, Function.update_self, ← hnum]

omit [LinearOrder π] in
/-- The heap that was written. -/
theorem heap_put (H : Priorities ℕ π) (q : Pqueue ℕ π) (w w' : Which) :
    (H.put w q).heap w' = if w' = w then q.heap else H.heap w' := by
  cases w <;> cases w' <;> rfl

theorem touched_putHeap {q : Pqueue ℕ π} :
    Touched s (s.putHeap P t w q) t (.priority w) := by
  refine ⟨rfl, rfl, ?_, ?_⟩
  · intro t'
    by_cases ht : t' = t
    · subst ht
      simp only [putHeap, putHeaps, setThread, Function.update_self]
      exact ⟨rfl, rfl, rfl, rfl⟩
    · simp only [putHeap, putHeaps, setThread, Function.update_of_ne ht]
      exact Thread.Same.refl _
  · intro t' k' hne
    by_cases ht : t' = t
    · subst ht
      cases k' with
      | normal w' => simp only [SameQueue, putHeap, putHeaps, setThread, Function.update_self]
      | priority w' =>
        have hw : w' ≠ w := by
          rintro rfl
          exact hne rfl rfl
        simp only [SameQueue, putHeap, putHeaps, setThread, Function.update_self, heap_put,
          if_neg hw, heap_heaps]
    · cases k' with
      | normal w' => simp only [SameQueue, putHeap, putHeaps, setThread, Function.update_of_ne ht]
      | priority w' =>
        simp only [SameQueue, putHeap, putHeaps, setThread, Function.update_of_ne ht]

theorem obj_putHeap {q : Pqueue ℕ π} : (s.putHeap P t w q).obj P = q.obj := by
  funext n
  have hobj : ((s.heaps P t).put w q).obj = q.obj := Priorities.obj_put
  simp only [State.obj, putHeap, putHeaps, hobj, writeObj]
  split
  · next h => rw [← h]
  · rw [P.ofBits_bits]

theorem prios_putHeap {q : Pqueue ℕ π} : ((s.putHeap P t w q).thread t).prios w = q.heap := by
  simp only [putHeap, putHeaps, setThread, Function.update_self, heap_put, if_true]

/-- The links that a heap has not written. -/
theorem link_putHeap {q : Pqueue ℕ π} {n : ℕ} (h : q.obj n = s.obj P n) :
    (s.putHeap P t w q).link n = s.link n := by
  have hobj : ((s.heaps P t).put w q).obj = q.obj := Priorities.obj_put
  simp only [putHeap, putHeaps, hobj, h, writeObj, State.obj, if_true]

theorem get_putHeap {q : Pqueue ℕ π} (hnum : q.queueNumber = Priorities.queueNumber w)
    (htyp : q.typ = P.typ) : ((s.putHeap P t w q).heaps P t).get w = q := by
  obtain ⟨num, typ, heap, obj⟩ := q
  simp only at hnum htyp
  simp only [Priorities.get, heap_heaps, prios_putHeap, hnum, htyp]
  congr 1
  exact obj_putHeap

end Access

/-! ## Operations -/

/-- **Only queues have changed**, and only the states of the nodes `m`, to `q`. -/
structure Places (s s' : State π) (m : List ℕ) (q : QueueId) : Prop where
  node : s'.node = s.node
  started : s'.started = s.started
  thread : ∀ t, (s.thread t).Same (s'.thread t)
  elsewhere : ∀ x, x ∉ m → s'.nodeState x = s.nodeState x
  self : ∀ x ∈ m, s'.nodeState x = q

omit [LinearOrder π] in
theorem Places.trans {s'' : State π} {m : List ℕ} {q q' : QueueId} (h : Places s s' m q)
    (h' : Places s' s'' m q') : Places s s'' m q' :=
  ⟨h'.node.trans h.node, h'.started.trans h.started, fun t => (h.thread t).trans (h'.thread t),
    fun x hx => (h'.elsewhere x hx).trans (h.elsewhere x hx), h'.self⟩

section Operations

variable {M : ℕ → Kind → List ℕ} {t : ℕ} {k : Kind} {x : ℕ}

/-- An operation on one queue, after which its members are `l`.  The nodes that come or go are among
`m`. -/
theorem Queued.operate (h : Queued P s M) (hto : Touched s s' t k) {l m : List ℕ} {q : QueueId}
    (hhas : Has P s' t k l) (hlink : ∀ x, x ∉ l → x ∉ M t k → s'.link x = s.link x)
    (hm : ∀ x ∈ m, s'.nodeState x = q)
    (hcome : ∀ x ∈ l, x ∉ M t k → x ∈ m ∧ (s.node x).owner = t ∧ Unqueued (s.nodeState x))
    (hgone : ∀ x ∈ M t k, x ∉ l → x ∈ m ∧ Unqueued q) :
    (∃ M', Queued P s' M') ∧ Places s s' m q := by
  refine ⟨⟨_, h.update hhas hto.queue hto.node hlink (fun x hx hn => (hcome x hx hn).2) ?_⟩,
    hto.node, hto.started, hto.thread, ?_, hm⟩
  · intro x hx hl
    obtain ⟨hxm, hq⟩ := hgone x hx hl
    rw [hm x hxm]
    exact hq
  · intro x hxm
    by_cases hl : x ∈ l
    · have hx : x ∈ M t k := by
        by_contra hn
        exact hxm (hcome x hl hn).1
      rw [hhas.nodeState hl, (h.has t k).nodeState hx]
    · have hx : x ∉ M t k := fun hx => hxm (hgone x hx hl).1
      rw [State.nodeState, hlink x hl hx]
      rfl

/-- Nodes that are anywhere are numbered from `1` to `N`. -/
def Bounded (N : ℕ) (s : State π) : Prop := ∀ x, s.nodeState x ≠ .idle → 0 < x ∧ x ≤ N

theorem length_le_of_bounded {N : ℕ} {l : List ℕ} (hnodup : l.Nodup)
    (hl : ∀ y ∈ l, 0 < y ∧ y ≤ N) : l.length ≤ N := by
  have hsub : l ⊆ List.range' 1 N := by
    intro y hy
    rw [List.mem_range'_1]
    have := hl y hy
    omega
  have hle := (hnodup.subperm hsub).length_le
  rwa [List.length_range'] at hle

theorem Queued.bounded (h : Queued P s M) {N : ℕ} (hb : Bounded N s) :
    ∀ y ∈ M t k, 0 < y ∧ y ≤ N := by
  intro y hy
  refine hb y ?_
  rw [((h.mem t k y).mp hy).2]
  exact k.number_ne_idle

theorem Queued.length_lt (h : Queued P s M) {N : ℕ} (hN : N < 2 ^ 30) (hb : Bounded N s) :
    (M t k).length < 1073741824 :=
  lt_of_le_of_lt (length_le_of_bounded (h.has t k).nodup (h.bounded hb)) hN

/-- **A node comes to a queue of its owner.** -/
theorem Queued.add (h : Queued P s M) {N : ℕ} (hN : N < 2 ^ 30) (hb : Bounded N s)
    (hx : Unqueued (s.nodeState x)) (hxN : 0 < x ∧ x ≤ N) (ho : (s.node x).owner = t) (k : Kind) :
    ∃ s', s.add P t k x = .ok s' ∧ (∃ M', Queued P s' M') ∧ Places s s' [x] k.number := by
  have hnot : x ∉ M t k := h.notMem hx
  have hcome : ∀ y, y ∈ x :: M t k → y ∉ M t k →
      y ∈ [x] ∧ (s.node y).owner = t ∧ Unqueued (s.nodeState y) := by
    intro y hy hn
    rcases List.mem_cons.mp hy with rfl | hy
    · exact ⟨List.mem_singleton_self y, ho, hx⟩
    · exact absurd hy hn
  cases k with
  | normal w =>
    have hholds : (s.normal t w).Holds (M t (.normal w)) := h.has t (.normal w)
    obtain ⟨hpush, helse⟩ := hholds.pushTail hnot hxN.1.ne'
    have hhas : Has P (s.putNormal t w ((s.normal t w).pushTail x)) t (.normal w)
        (M t (.normal w) ++ [x]) := by
      show (State.normal _ t w).Holds _
      rw [normal_putNormal rfl]
      exact hpush
    refine ⟨_, rfl, h.operate touched_putNormal hhas ?_ ?_ ?_ ?_⟩
    · intro y hyl hyM
      refine helse y hyM ?_
      rintro rfl
      exact hyl (List.mem_append_right _ (List.mem_singleton_self y))
    · intro y hy
      exact hhas.nodeState (List.mem_append_right _ hy)
    · intro y hy hn
      refine hcome y ?_ hn
      rcases List.mem_append.mp hy with hy | hy
      · exact List.mem_cons_of_mem x hy
      · rw [List.mem_singleton.mp hy]
        exact List.mem_cons_self
    · intro y hy hn
      exact absurd (List.mem_append_left [x] hy) hn
  | priority w =>
    obtain ⟨hprios, hshaped⟩ : _ ∧ _ := h.has t (.priority w)
    have hlen : (M t (.priority w)).length + 1 < 1073741824 := by
      have hle : (x :: M t (.priority w)).length ≤ N := by
        refine length_le_of_bounded (List.nodup_cons.mpr ⟨hnot, (h.has t _).nodup⟩) ?_
        intro y hy
        rcases List.mem_cons.mp hy with rfl | hy
        · exact hxN
        · exact h.bounded hb y hy
      rw [List.length_cons] at hle
      omega
    have hheap : ((s.heaps P t).get w).heap = M t (.priority w) := by
      rw [Priorities.heap_get, heap_heaps, hprios]
    obtain ⟨q, hq, hqs, hperm, htouch⟩ := Pqueue.insert_shaped hshaped
      (Kind.priority w).number_ne_idle (by rw [hheap]; exact hlen) (hx (.priority w))
      ((s.node x).getPriority P)
    rw [hheap] at hperm htouch
    have hget := get_putHeap (s := s) (P := P) (t := t) (w := w) htouch.queueNumber htouch.typ
    have hhas : Has P (s.putHeap P t w q) t (.priority w) q.heap := by
      refine ⟨prios_putHeap, ?_⟩
      rw [hget]
      exact hqs
    refine ⟨s.putHeap P t w q, ?_, h.operate touched_putHeap hhas ?_ ?_ ?_ ?_⟩
    · simp only [State.add, hq]
      rfl
    · intro y hyl _
      refine link_putHeap (htouch.elsewhere y ?_)
      rwa [← hperm.mem_iff]
    · intro y hy
      rw [List.mem_singleton.mp hy]
      exact hhas.nodeState (hperm.mem_iff.mpr List.mem_cons_self)
    · intro y hy hn
      exact hcome y (hperm.mem_iff.mp hy) hn
    · intro y hy hn
      exact absurd (hperm.mem_iff.mpr (List.mem_cons_of_mem x hy)) hn

/-- Members leave a list. -/
theorem Queued.leaveNormal (h : Queued P s M) {w : Which} {q : DoubleQueue} {m l : List ℕ}
    {newState : QueueId} (hleave : DoubleQueue.Leaves (s.normal t w) q m l newState)
    (hperm : (m ++ l).Perm (M t (.normal w))) (hq : Unqueued newState) :
    (∃ M', Queued P (s.putNormal t w q) M') ∧ Places s (s.putNormal t w q) m newState := by
  have hhas : Has P (s.putNormal t w q) t (.normal w) l := by
    show (State.normal _ t w).Holds _
    rw [normal_putNormal hleave.queueNumber]
    exact hleave.holds
  refine h.operate touched_putNormal hhas ?_ hleave.queue ?_ ?_
  · intro y hyl hyM
    refine hleave.elsewhere y (fun hym => hyM ?_) hyl
    exact hperm.mem_iff.mp (List.mem_append_left l hym)
  · intro y hy hn
    exact absurd (hperm.mem_iff.mp (List.mem_append_right m hy)) hn
  · intro y hy hn
    rcases List.mem_append.mp (hperm.mem_iff.mpr hy) with hym | hyl
    · exact ⟨hym, hq⟩
    · exact absurd hyl hn

theorem Queued.heap_eq (h : Queued P s M) (t : ℕ) (w : Which) :
    ((s.heaps P t).get w).heap = M t (.priority w) := by
  obtain ⟨hprios, -⟩ : _ ∧ _ := h.has t (.priority w)
  rw [Priorities.heap_get, heap_heaps, hprios]

theorem Queued.shaped (h : Queued P s M) (t : ℕ) (w : Which) :
    ((s.heaps P t).get w).Shaped :=
  (h.has t (.priority w)).2

theorem Queued.heap_length_lt (h : Queued P s M) {N : ℕ} (hN : N < 2 ^ 30) (hb : Bounded N s)
    (t : ℕ) (w : Which) : ((s.heaps P t).get w).heap.length < 1073741824 := by
  rw [h.heap_eq t w]
  exact h.length_lt hN hb

/-- Members leave a heap. -/
theorem Queued.leaveHeap (h : Queued P s M) {w : Which} {q : Pqueue ℕ π} {m : List ℕ}
    {newState : QueueId} (hpart : Pqueue.Parted ((s.heaps P t).get w) q m newState)
    (hq : Unqueued newState) :
    (∃ M', Queued P (s.putHeap P t w q) M') ∧ Places s (s.putHeap P t w q) m newState := by
  have hheap := h.heap_eq t w
  have hperm := hpart.perm
  have htouch := hpart.touches
  rw [hheap] at hperm htouch
  have hhas : Has P (s.putHeap P t w q) t (.priority w) q.heap := by
    refine ⟨prios_putHeap, ?_⟩
    rw [get_putHeap htouch.queueNumber htouch.typ]
    exact hpart.shaped
  refine h.operate touched_putHeap hhas ?_ ?_ ?_ ?_
  · intro y _ hyM
    exact link_putHeap (htouch.elsewhere y hyM)
  · intro y hy
    show ((s.putHeap P t w q).obj P y).queue = newState
    rw [obj_putHeap]
    exact hpart.queue y hy
  · intro y hy hn
    exact absurd (hperm.mem_iff.mp (List.mem_append_right m hy)) hn
  · intro y hy hn
    rcases List.mem_append.mp (hperm.mem_iff.mpr hy) with hym | hyl
    · exact ⟨hym, hq⟩
    · exact absurd hyl hn

/-- **A node leaves a queue of its owner.** -/
theorem Queued.remove (h : Queued P s M) {N : ℕ} (hN : N < 2 ^ 30) (hb : Bounded N s)
    (hx : x ∈ M t k) {newState : QueueId} (hq : Unqueued newState) :
    ∃ s', s.remove P t k x newState = .ok (s', true) ∧ (∃ M', Queued P s' M') ∧
      Places s s' [x] newState := by
  cases k with
  | normal w =>
    obtain ⟨xs, ys, hl⟩ := List.append_of_mem hx
    have hholds : (s.normal t w).Holds (xs ++ x :: ys) := by
      rw [← hl]
      exact h.has t (.normal w)
    obtain ⟨htrue, hleave⟩ := hholds.remove newState
    refine ⟨s.putNormal t w ((s.normal t w).remove x newState).1, ?_, h.leaveNormal hleave ?_ hq⟩
    · simp only [State.remove, htrue]
    · have hmiddle : (xs ++ x :: ys).Perm (x :: (xs ++ ys)) := List.perm_middle
      rw [hl]
      exact hmiddle.symm
  | priority w =>
    obtain ⟨q, hrem, hpart⟩ := Pqueue.remove_shaped (h.shaped t w)
      (Kind.priority w).number_ne_idle (h.heap_length_lt hN hb t w)
      (by rw [h.heap_eq t w]; exact hx) (hq (.priority w))
    refine ⟨s.putHeap P t w q, ?_, h.leaveHeap hpart hq⟩
    simp only [State.remove, hrem]
    rfl

/-- **A node gets another place in its heap.** -/
theorem Queued.moveNode (h : Queued P s M) {N : ℕ} (hN : N < 2 ^ 30) (hb : Bounded N s)
    {w : Which} (hx : x ∈ M t (.priority w)) (priority : π) :
    ∃ s', s.moveNode P t w x priority = .ok s' ∧ (∃ M', Queued P s' M') ∧
      Places s s' [x] (Kind.priority w).number := by
  obtain ⟨q, hmove, hqs, hperm, htouch⟩ := Pqueue.moveNode_shaped (h.shaped t w)
    (Kind.priority w).number_ne_idle (h.heap_length_lt hN hb t w)
    (by rw [h.heap_eq t w]; exact hx) priority
  rw [h.heap_eq t] at hperm htouch
  have hhas : Has P (s.putHeap P t w q) t (.priority w) q.heap := by
    refine ⟨prios_putHeap, ?_⟩
    rw [get_putHeap htouch.queueNumber htouch.typ]
    exact hqs
  refine ⟨s.putHeap P t w q, ?_, h.operate touched_putHeap hhas ?_ ?_ ?_ ?_⟩
  · simp only [State.moveNode, hmove]
    rfl
  · intro y _ hyM
    exact link_putHeap (htouch.elsewhere y hyM)
  · intro y hy
    rw [List.mem_singleton.mp hy]
    exact hhas.nodeState (hperm.mem_iff.mpr hx)
  · intro y hy hn
    exact absurd (hperm.mem_iff.mp hy) hn
  · intro y hy hn
    exact absurd (hperm.mem_iff.mpr hy) hn

omit [LinearOrder π] in
theorem Places.bounded {N : ℕ} {m : List ℕ} {q : QueueId} (h : Places s s' m q)
    (hb : Bounded N s) (hm : ∀ y ∈ m, 0 < y ∧ y ≤ N) : Bounded N s' := by
  intro y hy
  by_cases hym : y ∈ m
  · exact hm y hym
  · rw [h.elsewhere y hym] at hy
    exact hb y hy

/-- **From one queue of its owner to another.** -/
theorem Queued.shift (h : Queued P s M) {N : ℕ} (hN : N < 2 ^ 30) (hb : Bounded N s)
    (hx : x ∈ M t k) (k' : Kind) {change : QueueId} (hq : Unqueued change) :
    ∃ s', s.shift P t k k' x change = .ok s' ∧ (∃ M', Queued P s' M') ∧
      Places s s' [x] k'.number := by
  have hxN := h.bounded hb x hx
  obtain ⟨s₁, hrem, ⟨M₁, h₁⟩, hp₁⟩ := h.remove hN hb hx hq
  have hstate := hp₁.self x (List.mem_singleton_self x)
  have ho : (s₁.node x).owner = t := by
    rw [hp₁.node]
    exact ((h.mem t k x).mp hx).1
  obtain ⟨s₂, hadd, hM₂, hp₂⟩ := h₁.add hN
    (hp₁.bounded hb fun y hy => by rw [List.mem_singleton.mp hy]; exact hxN)
    (by rw [hstate]; exact hq) hxN ho k'
  refine ⟨s₂, ?_, hM₂, hp₁.trans hp₂⟩
  simp only [State.shift, hrem]
  exact hadd

/-! ## Pops -/

/-- The first node of a list is taken. -/
theorem Queued.popHead (h : Queued P s M) {w : Which} {newState : QueueId} (hq : Unqueued newState) :
    (M t (.normal w) = [] ∧ (s.normal t w).popHead newState = (s.normal t w, 0)) ∨
    ∃ x ∈ M t (.normal w), ((s.normal t w).popHead newState).2 = x ∧ x ≠ 0 ∧
      (∃ M', Queued P (s.putNormal t w ((s.normal t w).popHead newState).1) M') ∧
      Places s (s.putNormal t w ((s.normal t w).popHead newState).1) [x] newState := by
  have hholds : (s.normal t w).Holds (M t (.normal w)) := h.has t (.normal w)
  cases hl : M t (.normal w) with
  | nil =>
    refine Or.inl ⟨rfl, ?_⟩
    rw [DoubleQueue.popHead, if_pos (hholds.head_eq_zero.mpr hl)]
  | cons x ys =>
    rw [hl] at hholds
    obtain ⟨hpop, hleave⟩ := hholds.popHead newState
    refine Or.inr ⟨x, List.mem_cons_self, hpop, hholds.ne_zero List.mem_cons_self,
      h.leaveNormal hleave ?_ hq⟩
    rw [hl]
    exact List.Perm.refl _

/-- Half of a list is taken. -/
theorem Queued.stealNormal (h : Queued P s M) {N : ℕ} (hN : N < 2 ^ 30) (hb : Bounded N s)
    (max : ℕ) :
    ∃ s' m, stealNormal s t max = .ok (s', m) ∧ (∀ y ∈ m, y ∈ M t (.normal .moving)) ∧
      (∃ M', Queued P s' M') ∧ Places s s' m .stealing := by
  have hholds : (s.normal t .moving).Holds (M t (.normal .moving)) := h.has t (.normal .moving)
  have hlen : (M t (.normal .moving)).length < 2 ^ 64 :=
    lt_trans (h.length_lt hN hb) (by decide)
  obtain ⟨q, hpop, hleave⟩ := hholds.popTailHalf hlen max .stealing
  have hq : Unqueued .stealing := by
    intro k
    rcases k with (_ | _) | (_ | _) <;> decide
  refine ⟨s.putNormal t .moving q, _, ?_, ?_, h.leaveNormal hleave ?_ hq⟩
  · simp only [Coord.stealNormal, hpop]
    rfl
  · intro y hy
    exact List.mem_of_mem_take hy
  · rw [List.take_append_drop]

/-- Half of a heap is taken. -/
theorem Queued.stealPriority (h : Queued P s M) {N : ℕ} (hN : N < 2 ^ 30) (hb : Bounded N s)
    (max : ℕ) :
    ∃ s' m, stealPriority P s t max = .ok (s', m) ∧ (∀ y ∈ m, y ∈ M t (.priority .moving)) ∧
      (∃ M', Queued P s' M') ∧ Places s s' m .stealing := by
  have hq : Unqueued .stealing := by
    intro k
    rcases k with (_ | _) | (_ | _) <;> decide
  obtain ⟨q, m, hpop, hpart⟩ := Pqueue.popHalf_shaped (h.shaped t .moving)
    (Kind.priority .moving).number_ne_idle (h.heap_length_lt hN hb t .moving) max
    (hq (.priority .moving))
  refine ⟨s.putHeap P t .moving q, m, ?_, ?_, h.leaveHeap hpart hq⟩
  · simp only [Coord.stealPriority, hpop]
    rfl
  · intro y hy
    have hmem := hpart.perm.mem_iff.mp (List.mem_append_left _ hy)
    rwa [h.heap_eq t] at hmem

/-- The best node of both heaps is taken. -/
theorem Queued.popBest (h : Queued P s M) {N : ℕ} (hN : N < 2 ^ 30) (hb : Bounded N s)
    {newState : QueueId} (hq : Unqueued newState) :
    (s.heaps P t).popBest .moving newState = some (s.heaps P t, none) ∨
    ∃ w x q, x ∈ M t (.priority w) ∧
      (s.heaps P t).popBest .moving newState = some ((s.heaps P t).put w q, some x) ∧
      (∃ M', Queued P (s.putHeap P t w q) M') ∧ Places s (s.putHeap P t w q) [x] newState := by
  have hpop : ∀ w x rest, (s.heaps P t).heap w = x :: rest →
      ∃ q, ((s.heaps P t).get w).doPop newState = some (q, some x) ∧ x ∈ M t (.priority w) ∧
        (∃ M', Queued P (s.putHeap P t w q) M') ∧ Places s (s.putHeap P t w q) [x] newState := by
    intro w x rest hheap
    have hM : M t (.priority w) = x :: rest := by rw [← h.heap_eq t w]; exact hheap
    obtain ⟨q, hdo, hpart⟩ := Pqueue.pop_shaped (h.shaped t w) (Kind.priority w).number_ne_idle
      (h.heap_length_lt hN hb t w) hheap (hq (.priority w))
    exact ⟨q, hdo, by rw [hM]; exact List.mem_cons_self, h.leaveHeap hpart hq⟩
  rw [Priorities.popBest]
  cases hm : (s.heaps P t).heap .moving with
  | nil =>
    cases hs : (s.heaps P t).heap (Priorities.other .moving) with
    | nil => exact Or.inl rfl
    | cons y ys =>
      obtain ⟨q, hdo, hmem, hrest⟩ := hpop _ y ys hs
      refine Or.inr ⟨_, y, q, hmem, ?_, hrest⟩
      simp only [hdo, Option.bind_eq_bind, Option.bind_some]
  | cons x xs =>
    obtain ⟨q, hdo, hmem, hrest⟩ := hpop _ x xs hm
    cases hs : (s.heaps P t).heap (Priorities.other .moving) with
    | nil =>
      refine Or.inr ⟨_, x, q, hmem, ?_, hrest⟩
      simp only [hdo, Option.bind_eq_bind, Option.bind_some]
    | cons y ys =>
      obtain ⟨q', hdo', hmem', hrest'⟩ := hpop _ y ys hs
      refine Or.inr ?_
      simp only [hdo, hdo', Option.bind_eq_bind, Option.bind_some]
      split
      · exact ⟨_, x, q, hmem, rfl, hrest⟩
      · exact ⟨_, y, q', hmem', rfl, hrest'⟩

end Operations

end Coord
end Meld
