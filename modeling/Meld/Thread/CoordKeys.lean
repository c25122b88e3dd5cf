import Meld.Queue.HeapKeys
import Meld.Thread.CoordInvariant

/-!
# Keys and priorities

A node in a heap is sorted by a key that the heap keeps in the node, while `get_priority` is derived
from two other fields: the temporary priority, or the default one if there is no temporary one.  An
operation that changes one of these fields has to move the node.

* `InHeap`, `InList`: the kind of queue that a node is in.
* `Suits P L s n`: in a heap, the key of the node is its priority; in a list it has no priority, if
  this is asked for by `L`.
* `KeepsKeys`: the other nodes in heaps keep their keys.
* `Traced`: an `Outcome` that keeps the keys, with the operations on queues one after the other.
* `Suited`: what an operation leaves that changes only some nodes, with queues that suit them.
-/

namespace Meld
namespace Coord

open State

variable {π : Type} [LinearOrder π] {P : Program π} {s s' s₁ : State π} {N n t : ℕ} {L : Prop}

/-- The node is in a heap. -/
def InHeap (s : State π) (n : ℕ) : Prop := ∃ w, s.nodeState n = (Kind.priority w).number

/-- The node is in a list. -/
def InList (s : State π) (n : ℕ) : Prop := ∃ w, s.nodeState n = (Kind.normal w).number

/-- **The queue of a node suits its priority**: in a heap, the key is the priority, and in a list
there is none. -/
structure Suits (P : Program π) (L : Prop) (s : State π) (n : ℕ) : Prop where
  heap : InHeap s n → (s.obj P n).priority = (s.node n).getPriority P
  list : L → InList s n → (s.node n).getPriority P = P.noPriority

/-- The nodes outside `m` that are in heaps keep their keys. -/
def KeepsKeys (P : Program π) (s s' : State π) (m : List ℕ) : Prop :=
  ∀ x, x ∉ m → InHeap s x → (s'.obj P x).priority = (s.obj P x).priority

omit [LinearOrder π] in
theorem not_inHeap (h : Unqueued (s.nodeState n)) : ¬ InHeap s n := fun ⟨_, hw⟩ => h _ hw

omit [LinearOrder π] in
theorem not_inList (h : Unqueued (s.nodeState n)) : ¬ InList s n := fun ⟨_, hw⟩ => h _ hw

/-- A node in no queue suits whatever its priority. -/
theorem suits_of_unqueued (h : Unqueued (s.nodeState n)) : Suits P L s n :=
  ⟨fun hh => absurd hh (not_inHeap h), fun _ hl => absurd hl (not_inList h)⟩

omit [LinearOrder π] in
theorem inHeap_congr (h : s'.nodeState n = s.nodeState n) : InHeap s' n ↔ InHeap s n := by
  rw [InHeap, InHeap, h]

omit [LinearOrder π] in
theorem inList_congr (h : s'.nodeState n = s.nodeState n) : InList s' n ↔ InList s n := by
  rw [InList, InList, h]

omit [LinearOrder π] in
theorem keepsKeys_of_link {m : List ℕ} (h : ∀ x, x ∉ m → s'.link x = s.link x) :
    KeepsKeys P s s' m := by
  intro x hx _
  simp only [State.obj, h x hx]

omit [LinearOrder π] in
theorem KeepsKeys.trans {s'' : State π} {m : List ℕ} (h : KeepsKeys P s s' m)
    (hstate : ∀ x, x ∉ m → s'.nodeState x = s.nodeState x) (h' : KeepsKeys P s' s'' m) :
    KeepsKeys P s s'' m := fun x hx hheap =>
  (h' x hx ((inHeap_congr (hstate x hx)).mpr hheap)).trans (h x hx hheap)

/-! ## The operations on queues -/

section Operations

variable {M : ℕ → Kind → List ℕ} {k : Kind} {x : ℕ} {w : Which}

/-- A node in a heap is in no list. -/
theorem Queued.notMem_normal (h : Queued P s M) (hx : InHeap s x) : x ∉ M t (.normal w) := by
  intro hm
  obtain ⟨v, hv⟩ := hx
  exact absurd (Kind.number_inj (hv.symm.trans ((h.mem t _ x).mp hm).2)) (by simp)

/-- An operation on a list reaches no node in a heap. -/
theorem Queued.keeps_putNormal (h : Queued P s M) {q : DoubleQueue} {m : List ℕ}
    (hlink : ∀ y, y ∉ m → y ∉ M t (.normal w) → q.link y = s.link y) :
    KeepsKeys P s (s.putNormal t w q) m := by
  intro y hy hheap
  simp only [State.obj, link_putNormal, hlink y hy (h.notMem_normal hheap)]

theorem keeps_putHeap {q : Pqueue ℕ π} {m : List ℕ}
    (hq : ∀ y, y ∉ m → (q.obj y).priority = (s.obj P y).priority) :
    KeepsKeys P s (s.putHeap P t w q) m := by
  intro y hy _
  rw [obj_putHeap]
  exact hq y hy

theorem Queued.keeps_remove (h : Queued P s M) {newState : QueueId} (hx : x ∈ M t k)
    {r : State π × Bool} (hr : s.remove P t k x newState = .ok r) : KeepsKeys P s r.1 [x] := by
  cases k with
  | normal w =>
    obtain rfl := Except.ok.inj hr
    obtain ⟨xs, ys, hl⟩ := List.append_of_mem hx
    have hholds : (s.normal t w).Holds (xs ++ x :: ys) := by
      rw [← hl]
      exact h.has t (.normal w)
    refine h.keeps_putNormal fun y hy hyM => (hholds.remove newState).2.elsewhere y hy ?_
    rw [hl] at hyM
    exact fun hxs => hyM ((List.Sublist.append_left (List.sublist_cons_self x ys) xs).subset hxs)
  | priority w =>
    obtain ⟨q, hq, hr⟩ := Result.bind_eq_ok hr
    obtain rfl := Except.ok.inj hr
    exact keeps_putHeap fun y _ => Pqueue.remove_priority (Result.ofOption_eq_ok hq) y

/-- A node that comes to a heap has its priority as key. -/
theorem Queued.keeps_add (h : Queued P s M) (hx : Unqueued (s.nodeState x)) (hx0 : x ≠ 0)
    (hs : s.add P t k x = .ok s') :
    KeepsKeys P s s' [x] ∧
      ∀ w, k = .priority w → (s'.obj P x).priority = (s.node x).getPriority P := by
  cases k with
  | normal w =>
    obtain rfl := Except.ok.inj hs
    have hholds : (s.normal t w).Holds (M t (.normal w)) := h.has t (.normal w)
    obtain ⟨-, helse⟩ := hholds.pushTail (h.notMem hx) hx0
    refine ⟨h.keeps_putNormal fun y hy hyM => helse y hyM (mt List.mem_singleton.mpr hy), ?_⟩
    intro v hv
    cases hv
  | priority w =>
    obtain ⟨q, hq, hs⟩ := Result.bind_eq_ok hs
    obtain rfl := Except.ok.inj hs
    have hprio := Pqueue.insert_priority (Result.ofOption_eq_ok hq)
    refine ⟨keeps_putHeap fun y hy => ?_, fun v _ => ?_⟩
    · rw [hprio y, if_neg (mt List.mem_singleton.mpr hy)]
      rfl
    · rw [obj_putHeap, hprio x, if_pos rfl]

theorem Queued.keeps_moveNode (h : Queued P s M) (hx : x ∈ M t (.priority w)) {priority : π}
    (hs : s.moveNode P t w x priority = .ok s') :
    KeepsKeys P s s' [x] ∧ (s'.obj P x).priority = priority := by
  obtain ⟨q, hq, hs⟩ := Result.bind_eq_ok hs
  obtain rfl := Except.ok.inj hs
  have hprio := Pqueue.moveNode_priority (Result.ofOption_eq_ok hq)
    (by rw [h.heap_eq t w]; exact hx) (h.has t (.priority w) |>.nodeState hx)
  refine ⟨keeps_putHeap fun y hy => ?_, ?_⟩
  · rw [hprio y, if_neg (mt List.mem_singleton.mpr hy)]
    rfl
  · rw [obj_putHeap, hprio x, if_pos rfl]

end Operations

/-! ## One after the other -/

/-- An outcome that keeps the keys of the other nodes. -/
structure Traced (P : Program π) (s s' : State π) (n : ℕ) (q : QueueId) (r : Node π) : Prop
    extends Outcome P s s' n q r where
  keys : KeepsKeys P s s' [n]

section Traced

variable {q : QueueId} {r r' : Node π} {k k' : Kind} {M : ℕ → Kind → List ℕ}

theorem Edits.traced (e : Edits s s' n r) (h : Queued P s M)
    (ho : r.owner = (s.node n).owner ∨ Unqueued (s.nodeState n)) :
    Traced P s s' n (s.nodeState n) r :=
  ⟨e.outcome h ho, keepsKeys_of_link fun x _ => by rw [e.link]⟩

/-- A further step on the same node. -/
theorem Traced.next (o : Traced P s s₁ n q r) {q' : QueueId} (o' : Outcome P s s' n q' r')
    (hkeys : KeepsKeys P s₁ s' [n]) : Traced P s s' n q' r' :=
  ⟨o', o.keys.trans (fun x hx => o.handles.nodeState x (mt List.mem_singleton.mpr hx)) hkeys⟩

theorem Traced.edit (o : Traced P s s₁ n q r) (e : Edits s₁ s' n r')
    (ho : r'.owner = r.owner ∨ Unqueued q) : Traced P s s' n q r' :=
  o.next (o.toOutcome.edit e ho) (keepsKeys_of_link fun x _ => by rw [e.link])

theorem Traced.remove (o : Traced P s s₁ n k.number r) (hN : N < 2 ^ 30) (hb : Bounded N s₁)
    (ho : r.owner = t) {change : QueueId} (hq : Unqueued change) {o' : State π × Bool}
    (hs : s₁.remove P t k n change = .ok o') : o'.2 = true ∧ Traced P s o'.1 n change r := by
  obtain ⟨M, hM⟩ := o.queued
  have hmem : n ∈ M t k := (hM.mem t k n).mpr ⟨by rw [o.record]; exact ho, o.state⟩
  have hkeys := hM.keeps_remove hmem hs
  obtain ⟨s₂, heq, hM₂, hp⟩ := hM.remove hN hb hmem hq
  rw [heq] at hs
  obtain rfl := Except.ok.inj hs
  exact ⟨rfl, o.next (o.toOutcome.place hM₂ hp) hkeys⟩

theorem Traced.add (o : Traced P s s₁ n q r) (hN : N < 2 ^ 30) (hb : Bounded N s₁)
    (hn : 0 < n ∧ n ≤ N) (hq : Unqueued q) (ho : r.owner = t) (hs : s₁.add P t k n = .ok s') :
    Traced P s s' n k.number r ∧
      ∀ w, k = .priority w → (s'.obj P n).priority = r.getPriority P := by
  obtain ⟨M, hM⟩ := o.queued
  obtain ⟨hkeys, hkey⟩ := hM.keeps_add (by rw [o.state]; exact hq) hn.1.ne' hs
  rw [o.record] at hkey
  exact ⟨o.next (o.toOutcome.add hN hb hn hq ho hs) hkeys, hkey⟩

theorem Traced.bounded (o : Traced P s s₁ n q r) (hb : Bounded N s) (hn : 0 < n ∧ n ≤ N) :
    Bounded N s₁ := o.toOutcome.bounded hb hn

theorem Traced.shift (o : Traced P s s₁ n k.number r) (hN : N < 2 ^ 30) (hb : Bounded N s)
    (hn : 0 < n ∧ n ≤ N) (ho : r.owner = t) {change : QueueId} (hq : Unqueued change)
    (hs : s₁.shift P t k k' n change = .ok s') :
    Traced P s s' n k'.number r ∧
      ∀ w, k' = .priority w → (s'.obj P n).priority = r.getPriority P := by
  obtain ⟨o', hrem, hs⟩ := Result.bind_eq_ok hs
  obtain ⟨htrue, ot⟩ := o.remove hN (o.bounded hb hn) ho hq hrem
  rw [if_pos htrue] at hs
  exact ot.add hN (ot.bounded hb hn) hn hq ho hs

theorem Traced.moveNode {w : Which} {priority : π} (o : Traced P s s₁ n (Kind.priority w).number r)
    (hN : N < 2 ^ 30) (hb : Bounded N s₁) (ho : r.owner = t)
    (hs : s₁.moveNode P t w n priority = .ok s') :
    Traced P s s' n (Kind.priority w).number r ∧ (s'.obj P n).priority = priority := by
  obtain ⟨M, hM⟩ := o.queued
  have hmem : n ∈ M t (.priority w) :=
    (hM.mem t (.priority w) n).mpr ⟨by rw [o.record]; exact ho, o.state⟩
  obtain ⟨hkeys, hkey⟩ := hM.keeps_moveNode hmem hs
  exact ⟨o.next (o.toOutcome.moveNode hN hb ho hs) hkeys, hkey⟩

end Traced

/-! ## Queues that suit -/

/-- **What an operation on the nodes `m` leaves**: the other nodes are as they were, and the queues
of these suit their priorities. -/
structure Suited (P : Program π) (L : Prop) (s s' : State π) (m : List ℕ) : Prop where
  started : s'.started = s.started
  node : ∀ x, x ∉ m → s'.node x = s.node x
  nodeState : ∀ x, x ∉ m → s'.nodeState x = s.nodeState x
  keys : KeepsKeys P s s' m
  suits : ∀ x ∈ m, Suits P L s' x

section Suited

variable {m : List ℕ} {q : QueueId} {r r' : Node π} {k : Kind}

/-- All queues suit if they did before. -/
theorem Suited.all (h : Suited P L s s' m) (hs : ∀ x, Suits P L s x) (x : ℕ) : Suits P L s' x := by
  by_cases hx : x ∈ m
  · exact h.suits x hx
  · refine ⟨fun hheap => ?_, fun hl hlist => ?_⟩
    · have hheap := (inHeap_congr (h.nodeState x hx)).mp hheap
      rw [h.keys x hx hheap, h.node x hx]
      exact (hs x).heap hheap
    · rw [h.node x hx]
      exact (hs x).list hl ((inList_congr (h.nodeState x hx)).mp hlist)

/-- Neither nodes nor links change. -/
theorem suited_of_eq (hst : s'.started = s.started) (hnode : s'.node = s.node)
    (hlink : s'.link = s.link) : Suited P L s s' [] :=
  ⟨hst, fun _ _ => by rw [hnode], fun _ _ => by rw [State.nodeState, hlink]; rfl,
    keepsKeys_of_link fun _ _ => by rw [hlink], fun _ hx => absurd hx List.not_mem_nil⟩

/-- Fields of threads do not matter. -/
theorem Suited.setThread {u : Thread} (h : Suited P L s s' m) : Suited P L s (s'.setThread t u) m :=
  ⟨h.started, h.node, h.nodeState, h.keys, fun x hx => ⟨(h.suits x hx).heap, (h.suits x hx).list⟩⟩

theorem Traced.suited_of (o : Traced P s s' n q r) (h : Suits P L s' n) : Suited P L s s' [n] := by
  refine ⟨o.handles.started, fun x hx => ?_, fun x hx => ?_, o.keys, fun x hx => ?_⟩
  · exact o.handles.node x (mt List.mem_singleton.mpr hx)
  · exact o.handles.nodeState x (mt List.mem_singleton.mpr hx)
  · rw [List.mem_singleton.mp hx]
    exact h

/-- The node has come to a queue. -/
theorem Traced.suited (o : Traced P s s' n k.number r)
    (hheap : ∀ w, k = .priority w → (s'.obj P n).priority = r.getPriority P)
    (hlist : L → ∀ w, k = .normal w → r.getPriority P = P.noPriority) : Suited P L s s' [n] := by
  refine o.suited_of ⟨?_, ?_⟩
  · rintro ⟨w, hw⟩
    rw [o.record]
    exact hheap w (Kind.number_inj (o.state.symm.trans hw))
  · rintro hl ⟨w, hw⟩
    rw [o.record]
    exact hlist hl w (Kind.number_inj (o.state.symm.trans hw))

/-- The node is in no queue. -/
theorem Traced.suited_unqueued (o : Traced P s s' n q r) (hq : Unqueued q) :
    Suited P L s s' [n] :=
  o.suited_of (suits_of_unqueued (by rw [o.state]; exact hq))

/-- **`add_to_queue`** puts a node where it belongs. -/
theorem Traced.suited_addToQueue (o : Traced P s s₁ n q r) (hN : N < 2 ^ 30) (hb : Bounded N s)
    (hn : 0 < n ∧ n ≤ N) (hq : Unqueued q) (ho : r.owner = t)
    (hs : s₁.addToQueue P t n = .ok s') : Suited P L s s' [n] := by
  rw [State.addToQueue, o.record] at hs
  obtain ⟨o', hkey⟩ := o.add hN (o.bounded hb hn) hn hq ho hs
  refine o'.suited hkey fun _ w hw => ?_
  split at hw
  · cases hw
  · next hno => simpa [Node.hasPriority] using hno

theorem Traced.suited_moveNodeToNewOwner (o : Traced P s s₁ n q r) (hN : N < 2 ^ 30)
    (hb : Bounded N s) (hn : 0 < n ∧ n ≤ N) (hq : Unqueued q) (ho : r.owner = t)
    (hs : s₁.moveNodeToNewOwner P n t = .ok s') : Suited P L s s' [n] := by
  have e := edits_justMovedBuffer (P := P) s₁ n
  rw [o.record] at e
  exact (o.edit e (Or.inl rfl)).suited_addToQueue hN hb hn hq ho hs

/-- Only the record of the node changes. -/
theorem Edits.suited (e : Edits s s' n r)
    (hheap : InHeap s n → (s.obj P n).priority = r.getPriority P)
    (hlist : L → InList s n → r.getPriority P = P.noPriority) : Suited P L s s' [n] := by
  refine ⟨e.started, fun x hx => ?_, fun x _ => e.nodeState x,
    keepsKeys_of_link fun x _ => by rw [e.link], fun x hx => ?_⟩
  · exact e.handles.node x (mt List.mem_singleton.mpr hx)
  · obtain rfl := List.mem_singleton.mp hx
    refine ⟨fun h => ?_, fun hl h => ?_⟩
    · rw [e.record, State.obj, e.link]
      exact hheap ((inHeap_congr (e.nodeState x)).mp h)
    · rw [e.record]
      exact hlist hl ((inList_congr (e.nodeState x)).mp h)

/-- The priority of the node stays. -/
theorem Edits.suited_same (e : Edits s s' n r) (hs : Suits P L s n)
    (hr : r.getPriority P = (s.node n).getPriority P) : Suited P L s s' [n] :=
  e.suited (fun h => (hs.heap h).trans hr.symm) fun hl h => hr.trans (hs.list hl h)

theorem Edits.suited_unqueued (e : Edits s s' n r) (hq : Unqueued (s.nodeState n)) :
    Suited P L s s' [n] :=
  e.suited (fun h => absurd h (not_inHeap hq)) fun _ h => absurd h (not_inList hq)

end Suited

end Coord
end Meld
