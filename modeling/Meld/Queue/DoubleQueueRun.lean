import Mathlib.Data.List.Perm.Subperm
import Meld.Lib.Agree
import Meld.Queue.DoubleQueue

/-!
# Queues that share the fields of their members

The normal queues of all threads link the same objects, through the same fields, and several queues
have the same number.  Between two memberships the fields of an object belong to somebody else:
`next` and `prev` lie in a union with the position and the priority of a heap, and another queue or
another operation leaves its own number behind.

A queue knows its members by their number alone.  `remove` therefore takes an object of another
queue with this number, or one whose number is a leftover, for a member: it unlinks it, counts it out
and says so.

* `QueuePool`, `poolMachine`: the queues of the program, with the operations and with writes to the
  fields of objects that are in no queue.
* `QueueLists`, `listMachine`: the same operations on lists.
* `Represents`: each queue is its list, no object is in two of them, and every object has the number
  it should have.
* `queue_operations_iff`: the queues are the lists after every part of a sequence of operations
  exactly if each `remove` is called for a member or for an object with another number.
-/

namespace Meld

/-- Queues over the same objects.  Their numbers never change. -/
structure QueuePool (ι : Type*) where
  head : ι → ℕ
  tail : ι → ℕ
  total : ι → BitVec 64
  link : ℕ → QueueLink

/-- The operations.  `write` is a change of the fields by somebody else. -/
inductive QueueOp (ι : Type*)
  | pushTail (i : ι) (x : ℕ)
  | popHead (i : ι) (newState : QueueId)
  | popTail (i : ι) (newState : QueueId)
  | popTailHalf (i : ι) (max : ℕ) (newState : QueueId)
  | remove (i : ι) (x : ℕ) (newState : QueueId)
  | write (x : ℕ) (link : QueueLink)

/-- The results: an object or the null pointer, the buffer of `pop_tail_half`, or whether an object
was removed. -/
inductive QueueResult
  | none
  | popped (x : ℕ)
  | buffer (xs : List ℕ)
  | removed (b : Bool)
  deriving DecidableEq

namespace QueuePool

variable {ι : Type*} [DecidableEq ι]

/-- The constructors of all queues, over objects with any fields. -/
def empty (link : ℕ → QueueLink) : QueuePool ι where
  head _ := 0
  tail _ := 0
  total _ := 0
  link := link

/-- One of the queues. -/
def queue (number : ι → QueueId) (p : QueuePool ι) (i : ι) : DoubleQueue where
  queueNumber := number i
  head := p.head i
  tail := p.tail i
  total := p.total i
  link := p.link

/-- A queue after an operation. -/
def put (p : QueuePool ι) (i : ι) (q : DoubleQueue) : QueuePool ι where
  head := Function.update p.head i q.head
  tail := Function.update p.tail i q.tail
  total := Function.update p.total i q.total
  link := q.link

/-- One operation on the queues.  It fails if it reads through the null pointer. -/
def step (number : ι → QueueId) (p : QueuePool ι) :
    QueueOp ι → Option (QueueResult × QueuePool ι)
  | .pushTail i x => some (.none, p.put i ((p.queue number i).pushTail x))
  | .popHead i newState =>
    let r := (p.queue number i).popHead newState
    some (.popped r.2, p.put i r.1)
  | .popTail i newState =>
    let r := (p.queue number i).popTail newState
    some (.popped r.2, p.put i r.1)
  | .popTailHalf i max newState =>
    ((p.queue number i).popTailHalf max newState).map fun r => (.buffer r.2, p.put i r.1)
  | .remove i x newState =>
    let r := (p.queue number i).remove x newState
    some (.removed r.2, p.put i r.1)
  | .write x link => some (.none, { p with link := Function.update p.link x link })

end QueuePool

/-- The lists that the queues should be, and the number that each object should have. -/
structure QueueLists (ι : Type*) where
  list : ι → List ℕ
  state : ℕ → QueueId

namespace QueueLists

variable {ι : Type*} [DecidableEq ι]

/-- No object is in a queue. -/
def empty (link : ℕ → QueueLink) : QueueLists ι where
  list _ := []
  state x := (link x).queue

/-- The list of a queue changes, and some objects get a number. -/
def put (t : QueueLists ι) (i : ι) (l m : List ℕ) (s : QueueId) : QueueLists ι where
  list := Function.update t.list i l
  state x := if x ∈ m then s else t.state x

/-- One operation on the lists: `remove` does nothing unless the object is in the list. -/
def step (number : ι → QueueId) (t : QueueLists ι) : QueueOp ι → QueueResult × QueueLists ι
  | .pushTail i x => (.none, t.put i (t.list i ++ [x]) [x] (number i))
  | .popHead i newState =>
    (.popped ((t.list i).headD 0), t.put i (t.list i).tail ((t.list i).take 1) newState)
  | .popTail i newState =>
    (.popped ((t.list i).getLastD 0),
      t.put i (t.list i).dropLast (t.list i).getLast?.toList newState)
  | .popTailHalf i max newState =>
    let half := min max ((t.list i).length / 2)
    (.buffer ((t.list i).take half), t.put i ((t.list i).drop half) ((t.list i).take half) newState)
  | .remove i x newState =>
    if x ∈ t.list i then (.removed true, t.put i ((t.list i).erase x) [x] newState)
    else (.removed false, t)
  | .write x link => (.none, { t with state := Function.update t.state x link.queue })

end QueueLists

namespace QueuePool

variable {ι : Type*} [DecidableEq ι]

/-- The queues as a machine. -/
def poolMachine (number : ι → QueueId) : Machine (QueueOp ι) QueueResult (QueuePool ι) :=
  ⟨step number⟩

/-- The lists as a machine.  No operation fails. -/
def listMachine (number : ι → QueueId) : Machine (QueueOp ι) QueueResult (QueueLists ι) :=
  ⟨fun t op => some (t.step number op)⟩

/-- What the callers keep to: they push objects (words that are not null) that are in no queue, and
only the fields of such objects are written from outside. -/
def Legal (t : QueueLists ι) : QueueOp ι → Prop
  | .pushTail _ x => x ≠ 0 ∧ x < 2 ^ 64 ∧ ∀ j, x ∉ t.list j
  | .write x _ => ∀ j, x ∉ t.list j
  | _ => True

/-- An object that `remove` is called for is a member, or has another number than the queue. -/
def RemoveSeesMember (number : ι → QueueId) (t : QueueLists ι) : QueueOp ι → Prop
  | .remove i x _ => x ∈ t.list i ∨ t.state x ≠ number i
  | _ => True

/-- **The queues are the lists.** -/
structure Represents (number : ι → QueueId) (p : QueuePool ι) (t : QueueLists ι) : Prop where
  holds : ∀ i, (p.queue number i).Holds (t.list i)
  disjoint : ∀ {i j x}, x ∈ t.list i → x ∈ t.list j → i = j
  word : ∀ {i x}, x ∈ t.list i → x < 2 ^ 64
  state : ∀ x, (p.link x).queue = t.state x

variable {number : ι → QueueId} {p : QueuePool ι} {t : QueueLists ι} {i : ι} {x : ℕ}
  {newState : QueueId}

omit [DecidableEq ι] in
/-- At the start all queues are empty, and the fields of the objects do not matter. -/
theorem represents_empty (number : ι → QueueId) (link : ℕ → QueueLink) :
    Represents number (QueuePool.empty link) (QueueLists.empty link) :=
  ⟨fun _ => DoubleQueue.holds_nil rfl rfl rfl, fun h => absurd h List.not_mem_nil,
    fun h => absurd h List.not_mem_nil, fun _ => rfl⟩

omit [DecidableEq ι] in
/-- A list of different addresses has fewer than `2 ^ 64` members. -/
theorem Represents.length_lt (h : Represents number p t) (i : ι) : (t.list i).length < 2 ^ 64 := by
  have hsub : 0 :: t.list i ⊆ List.range (2 ^ 64) := by
    intro x hx
    rw [List.mem_range]
    rcases List.mem_cons.mp hx with rfl | hx
    · exact Nat.two_pow_pos 64
    · exact h.word hx
  have hnodup : (0 :: t.list i).Nodup := List.nodup_cons.mpr ⟨(h.holds i).null, (h.holds i).nodup⟩
  have hlen := (List.subperm_of_subset hnodup hsub).length_le
  rwa [List.length_range] at hlen

/-- **One queue changes**, and the others are as they were if their members are. -/
theorem Represents.put (h : Represents number p t) {q' : DoubleQueue} {l m : List ℕ} {s : QueueId}
    (hnum : q'.queueNumber = number i) (hholds : q'.Holds l) (hword : ∀ x ∈ l, x < 2 ^ 64)
    (hout : ∀ j, j ≠ i → ∀ x ∈ t.list j, x ∉ l ∧ q'.link x = p.link x)
    (hstate : ∀ x, (q'.link x).queue = if x ∈ m then s else t.state x) :
    Represents number (p.put i q') (t.put i l m s) := by
  have hlist : (t.put i l m s).list i = l := by simp [QueueLists.put]
  have hother : ∀ {j}, j ≠ i → (t.put i l m s).list j = t.list j := by
    intro j hj
    simp [QueueLists.put, hj]
  constructor
  · intro j
    by_cases hj : j = i
    · subst hj
      rw [hlist]
      refine hholds.congr hnum.symm ?_ ?_ ?_ fun _ _ => rfl
      · exact Function.update_self j q'.head p.head
      · exact Function.update_self j q'.tail p.tail
      · exact Function.update_self j q'.total p.total
    · rw [hother hj]
      refine (h.holds j).congr rfl ?_ ?_ ?_ fun x hx => (hout j hj x hx).2
      · exact Function.update_of_ne hj q'.head p.head
      · exact Function.update_of_ne hj q'.tail p.tail
      · exact Function.update_of_ne hj q'.total p.total
  · intro j k x hxj hxk
    by_cases hj : j = i <;> by_cases hk : k = i
    · rw [hj, hk]
    · rw [hj, hlist] at hxj
      rw [hother hk] at hxk
      exact absurd hxj (hout k hk x hxk).1
    · rw [hk, hlist] at hxk
      rw [hother hj] at hxj
      exact absurd hxk (hout j hj x hxj).1
    · rw [hother hj] at hxj
      rw [hother hk] at hxk
      exact h.disjoint hxj hxk
  · intro j x hx
    by_cases hj : j = i
    · rw [hj, hlist] at hx
      exact hword x hx
    · rw [hother hj] at hx
      exact h.word hx
  · exact hstate

/-- **Members leave a queue.** -/
theorem Represents.leaves (h : Represents number p t) {q' : DoubleQueue} {l m : List ℕ}
    (hq : DoubleQueue.Leaves (p.queue number i) q' m l newState)
    (hperm : (m ++ l).Perm (t.list i)) :
    Represents number (p.put i q') (t.put i l m newState) := by
  have hmem : ∀ {x}, x ∈ m ∨ x ∈ l ↔ x ∈ t.list i := List.mem_append.symm.trans hperm.mem_iff
  have hdisj : ∀ {x}, x ∈ m → x ∉ l := fun hm hl =>
    List.disjoint_of_nodup_append (hperm.nodup_iff.mpr (h.holds i).nodup) hm hl
  refine h.put hq.queueNumber hq.holds (fun x hx => h.word (hmem.mp (Or.inr hx))) ?_ ?_
  · intro j hj x hx
    have hxi : x ∉ t.list i := fun hxi => hj (h.disjoint hx hxi)
    exact ⟨fun hl => hxi (hmem.mp (Or.inr hl)),
      hq.elsewhere x (fun hm => hxi (hmem.mp (Or.inl hm))) fun hl => hxi (hmem.mp (Or.inr hl))⟩
  · intro x
    by_cases hm : x ∈ m
    · rw [if_pos hm, hq.queue x hm]
    rw [if_neg hm]
    by_cases hl : x ∈ l
    · -- a member that stays has the number of the queue before and behind
      rw [hq.holds.queue x hl, hq.queueNumber, ← h.state x]
      exact ((h.holds i).queue x (hmem.mp (Or.inr hl))).symm
    · rw [hq.elsewhere x hm hl]
      exact h.state x

/-- An operation that does nothing. -/
theorem Represents.put_self (h : Represents number p t) (s : QueueId) :
    Represents number (p.put i (p.queue number i)) (t.put i (t.list i) [] s) :=
  h.leaves ⟨rfl, h.holds i, fun _ hx => absurd hx List.not_mem_nil, fun _ _ _ => rfl⟩
    (List.Perm.refl _)

omit [DecidableEq ι] in
theorem put_queue [DecidableEq ι] : p.put i (p.queue number i) = p := by
  simp only [put, queue, Function.update_eq_self]

/-! ## One operation -/

section Operations

open DoubleQueue

/-- **`push_tail`** of an object in no queue. -/
theorem Represents.pushTail (h : Represents number p t) (hx0 : x ≠ 0) (hx : x < 2 ^ 64)
    (hin : ∀ j, x ∉ t.list j) :
    Represents number (p.put i ((p.queue number i).pushTail x))
      (t.put i (t.list i ++ [x]) [x] (number i)) := by
  obtain ⟨hholds, hother⟩ := (h.holds i).pushTail (hin i) hx0
  have hne : ∀ {j y}, y ∈ t.list j → y ≠ x := by
    rintro j y hy rfl
    exact hin j hy
  refine h.put rfl hholds ?_ ?_ ?_
  · intro y hy
    rcases List.mem_append.mp hy with hy | hy
    · exact h.word hy
    · rwa [List.mem_singleton.mp hy]
  · intro j hj y hy
    have hyi : y ∉ t.list i := fun hyi => hj (h.disjoint hy hyi)
    refine ⟨?_, hother y hyi (hne hy)⟩
    rw [List.mem_append, List.mem_singleton]
    exact not_or.mpr ⟨hyi, hne hy⟩
  · intro y
    by_cases hyx : y = x
    · subst hyx
      rw [if_pos List.mem_cons_self]
      exact hholds.queue y (List.mem_append_right _ List.mem_cons_self)
    rw [if_neg (mt List.mem_singleton.mp hyx), ← h.state y]
    by_cases hyi : y ∈ t.list i
    · exact (hholds.queue y (List.mem_append_left _ hyi)).trans ((h.holds i).queue y hyi).symm
    · rw [hother y hyi hyx]
      rfl

/-- **`pop_head`.** -/
theorem Represents.popHead (h : Represents number p t) (i : ι) (newState : QueueId) :
    ((p.queue number i).popHead newState).2 = (t.list i).headD 0 ∧
      Represents number (p.put i ((p.queue number i).popHead newState).1)
        (t.put i (t.list i).tail ((t.list i).take 1) newState) := by
  have hi := h.holds i
  cases hl : t.list i with
  | nil =>
    rw [hl] at hi
    rw [DoubleQueue.popHead, if_pos (hi.head_eq_zero.mpr rfl)]
    refine ⟨rfl, ?_⟩
    have hself := h.put_self (i := i) newState
    rwa [hl] at hself
  | cons y ys =>
    rw [hl] at hi
    obtain ⟨hout, hleaves⟩ := hi.popHead newState
    refine ⟨hout, h.leaves hleaves ?_⟩
    rw [hl]
    exact List.Perm.refl (y :: ys)

/-- **`pop_tail`.** -/
theorem Represents.popTail (h : Represents number p t) (i : ι) (newState : QueueId) :
    ((p.queue number i).popTail newState).2 = (t.list i).getLastD 0 ∧
      Represents number (p.put i ((p.queue number i).popTail newState).1)
        (t.put i (t.list i).dropLast (t.list i).getLast?.toList newState) := by
  have hi := h.holds i
  rcases List.eq_nil_or_concat (t.list i) with hl | ⟨xs, y, hl⟩
  · rw [hl] at hi ⊢
    rw [DoubleQueue.popTail, if_pos (hi.head_eq_zero.mpr rfl)]
    refine ⟨rfl, ?_⟩
    have hself := h.put_self (i := i) newState
    rwa [hl] at hself
  · rw [hl, List.concat_eq_append] at hi ⊢
    obtain ⟨hout, hleaves⟩ := hi.popTail newState
    rw [List.getLastD_concat, List.dropLast_concat, List.getLast?_concat, Option.toList_some]
    refine ⟨hout, h.leaves hleaves ?_⟩
    rw [hl, List.concat_eq_append]
    exact List.perm_append_comm

/-- **`pop_tail_half`.** -/
theorem Represents.popTailHalf (h : Represents number p t) (i : ι) (max : ℕ)
    (newState : QueueId) :
    ∃ q', (p.queue number i).popTailHalf max newState =
        some (q', (t.list i).take (min max ((t.list i).length / 2))) ∧
      Represents number (p.put i q') (t.put i ((t.list i).drop (min max ((t.list i).length / 2)))
        ((t.list i).take (min max ((t.list i).length / 2))) newState) := by
  obtain ⟨q', hq', hleaves⟩ := (h.holds i).popTailHalf (h.length_lt i) max newState
  refine ⟨q', hq', h.leaves hleaves ?_⟩
  rw [List.take_append_drop]

/-- **`remove`** of a member. -/
theorem Represents.remove (h : Represents number p t) (hx : x ∈ t.list i) (newState : QueueId) :
    ((p.queue number i).remove x newState).2 = true ∧
      Represents number (p.put i ((p.queue number i).remove x newState).1)
        (t.put i ((t.list i).erase x) [x] newState) := by
  have hi := h.holds i
  obtain ⟨xs, ys, hxs, hl, herase⟩ := List.exists_erase_eq hx
  rw [hl] at hi
  obtain ⟨hout, hleaves⟩ := hi.remove newState
  rw [← herase] at hleaves
  exact ⟨hout, h.leaves hleaves (List.perm_cons_erase hx).symm⟩

omit [DecidableEq ι] in
/-- **A leftover** is written over the fields of an object in no queue. -/
theorem Represents.write (h : Represents number p t) (hin : ∀ j, x ∉ t.list j)
    (link : QueueLink) :
    Represents number { p with link := Function.update p.link x link }
      { t with state := Function.update t.state x link.queue } := by
  constructor
  · intro j
    refine (h.holds j).congr rfl rfl rfl rfl fun y hy => ?_
    refine Function.update_of_ne ?_ link p.link
    rintro rfl
    exact hin j hy
  · exact h.disjoint
  · exact h.word
  · intro y
    by_cases hyx : y = x
    · subst hyx
      simp only [Function.update_self]
    · simp only [Function.update_of_ne hyx]
      exact h.state y

end Operations

/-- **One operation.**  Every legal operation gives what it gives on the lists, except for a
`remove` that takes an object with the number of the queue for a member. -/
theorem step_iff (h : Represents number p t) {op : QueueOp ι} (hlegal : Legal t op) :
    Machine.Matches (Represents number) ((poolMachine number).step p op)
      ((listMachine number).step t op) ↔ RemoveSeesMember number t op := by
  cases op with
  | pushTail i x =>
    obtain ⟨hx0, hx, hin⟩ := hlegal
    exact iff_of_true (Option.Rel.some ⟨rfl, h.pushTail hx0 hx hin⟩) trivial
  | popHead i newState =>
    obtain ⟨hout, hrep⟩ := h.popHead i newState
    exact iff_of_true (Option.Rel.some ⟨congrArg QueueResult.popped hout, hrep⟩) trivial
  | popTail i newState =>
    obtain ⟨hout, hrep⟩ := h.popTail i newState
    exact iff_of_true (Option.Rel.some ⟨congrArg QueueResult.popped hout, hrep⟩) trivial
  | popTailHalf i max newState =>
    obtain ⟨q', hq', hrep⟩ := h.popTailHalf i max newState
    refine iff_of_true ?_ trivial
    have hstep : (poolMachine number).step p (.popTailHalf i max newState) =
        some (.buffer ((t.list i).take (min max ((t.list i).length / 2))), p.put i q') := by
      simp only [poolMachine, step, hq', Option.map_some]
    rw [hstep]
    exact Option.Rel.some ⟨rfl, hrep⟩
  | remove i x newState =>
    by_cases hx : x ∈ t.list i
    · obtain ⟨hout, hrep⟩ := h.remove hx newState
      refine iff_of_true ?_ (Or.inl hx)
      have hspec : (listMachine number).step t (.remove i x newState) =
          some (.removed true, t.put i ((t.list i).erase x) [x] newState) := by
        simp only [listMachine, QueueLists.step, if_pos hx]
      rw [hspec]
      exact Option.Rel.some ⟨congrArg QueueResult.removed hout, hrep⟩
    · have hspec :
          (listMachine number).step t (.remove i x newState) = some (.removed false, t) := by
        simp only [listMachine, QueueLists.step, if_neg hx]
      rw [hspec]
      by_cases hstate : t.state x = number i
      · -- the object passes the test although it is no member
        refine iff_of_false ?_ (not_or.mpr ⟨hx, not_not.mpr hstate⟩)
        have hq : ((p.queue number i).link x).queue = (p.queue number i).queueNumber :=
          (h.state x).trans hstate
        have hcode : ((p.queue number i).remove x newState).2 = true := by
          rw [DoubleQueue.remove, if_neg (not_not.mpr hq)]
        rintro (⟨hout, -⟩ | _)
        exact absurd (hcode.symm.trans (QueueResult.removed.inj hout)) (by decide)
      · refine iff_of_true ?_ (Or.inr hstate)
        have hcode : (p.queue number i).remove x newState = (p.queue number i, false) :=
          DoubleQueue.remove_of_ne (fun hq => hstate ((h.state x).symm.trans hq)) newState
        have hstep : (poolMachine number).step p (.remove i x newState) =
            some (.removed false, p) := by
          simp only [poolMachine, step, hcode, put_queue]
        rw [hstep]
        exact Option.Rel.some ⟨rfl, h⟩
  | write x link => exact iff_of_true (Option.Rel.some ⟨rfl, h.write hlegal link⟩) trivial

/-- **The queues are their lists** after every part of a sequence of operations exactly if each
`remove` is called for a member of the queue or for an object with another number. -/
theorem queue_operations_iff (number : ι → QueueId) (link : ℕ → QueueLink) (ops : List (QueueOp ι))
    (hlegal : (listMachine number).Along Legal (QueueLists.empty link) ops) :
    Machine.Follows (poolMachine number) (listMachine number) (Represents number)
        (QueuePool.empty link) (QueueLists.empty link) ops ↔
      (listMachine number).Along (RemoveSeesMember number) (QueueLists.empty link) ops :=
  Machine.follows_iff (fun _ _ _ h hop => step_iff h hop) (represents_empty number link) hlegal

/-! ## Two queues with one number -/

/-- The moving queues of two threads. -/
def movingQueues : Bool → QueueId := fun _ => .normalMoving

/-- Objects with what a heap left in the union. -/
def leftover : ℕ → QueueLink := fun _ => ⟨7, 9, .idle⟩

/-- The queues are their lists although two queues share their number. -/
theorem queue_operations_iff_moving :
    Machine.Follows (poolMachine movingQueues) (listMachine movingQueues)
      (Represents movingQueues) (QueuePool.empty leftover) (QueueLists.empty leftover)
      [.pushTail true 1, .pushTail false 2, .remove true 1 .staticChange, .popTail false .working,
        .popHead true .idle] := by
  refine (queue_operations_iff movingQueues leftover _ ?_).2 ?_
  · simp [Machine.Along, listMachine, QueueLists.step, QueueLists.put, QueueLists.empty, Legal]
  · simp [Machine.Along, listMachine, QueueLists.step, QueueLists.put, QueueLists.empty,
      RemoveSeesMember]

/-- An object of the second queue, which the first one is asked to remove. -/
def foreignRemove : List (QueueOp Bool) := [.pushTail true 1, .remove false 1 .idle]

/-- **An object of another queue is removed**: the empty queue reports success and counts it out. -/
theorem not_follows_foreignRemove :
    (listMachine movingQueues).Along Legal (QueueLists.empty leftover) foreignRemove ∧
      ¬ Machine.Follows (poolMachine movingQueues) (listMachine movingQueues)
        (Represents movingQueues) (QueuePool.empty leftover) (QueueLists.empty leftover)
        foreignRemove ∧
      ((poolMachine movingQueues).run (QueuePool.empty leftover) foreignRemove).map
        (fun r => (r.1, r.2.total false)) = some ([.none, .removed true], -1) := by
  refine ⟨?_, fun h => ?_, rfl⟩
  · simp [foreignRemove, Machine.Along, listMachine, QueueLists.step, QueueLists.put,
      QueueLists.empty, Legal]
  · rcases h 2 with ⟨hout, -⟩ | _
    exact absurd hout (by decide)

end QueuePool

end Meld
