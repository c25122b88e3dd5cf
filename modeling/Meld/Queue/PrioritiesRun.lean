import Meld.Queue.ComplexPqueueCorrect

/-!
# Runs of the two priority heaps

A thread inserts nodes into its two heaps, takes them out and moves them.  An object is inserted
only when it is in neither of the heaps, and it leaves a heap with a state that is not the number of
a heap.

* `Sound`: both heaps are in heap order, every member has its position and its queue number, the
  members are what was inserted and not removed, and the pops return best members.
* `reach_ordered`: this holds along every run.
-/

namespace Meld
namespace Priorities

open HeapOrder Pqueue

variable {ι π : Type}

/-! ## One heap and the other -/

section Heaps

variable {P : Priorities ι π} {w : Which} {s : Pqueue ι π}

theorem queueNumber_other (w : Which) : queueNumber (other w) ≠ queueNumber w := by
  cases w <;> decide

@[simp] theorem other_other (w : Which) : other (other w) = w := by cases w <;> rfl

@[simp] theorem heap_get (w : Which) : (P.get w).heap = P.heap w := rfl

@[simp] theorem obj_get (w : Which) : (P.get w).obj = P.obj := rfl

@[simp] theorem typ_get (w : Which) : (P.get w).typ = P.typ := rfl

@[simp] theorem queueNumber_get (w : Which) : (P.get w).queueNumber = queueNumber w := rfl

@[simp] theorem heap_put_self : (P.put w s).heap w = s.heap := by cases w <;> rfl

@[simp] theorem heap_put_other : (P.put w s).heap (other w) = P.heap (other w) := by
  cases w <;> rfl

@[simp] theorem obj_put : (P.put w s).obj = s.obj := by cases w <;> rfl

@[simp] theorem typ_put : (P.put w s).typ = P.typ := by cases w <;> rfl

theorem get_put_self (hnum : s.queueNumber = queueNumber w) (htyp : s.typ = P.typ) :
    (P.put w s).get w = s := by
  obtain ⟨num, typ, heap, obj⟩ := s
  simp only at hnum htyp
  simp only [get, heap_put_self, obj_put, typ_put, hnum, htyp]

theorem get_put_other :
    (P.put w s).get (other w) = { P.get (other w) with obj := s.obj } := by
  simp only [get, heap_put_other, obj_put, typ_put]

/-- Writing back a heap that did not change. -/
theorem put_get (P : Priorities ι π) (w : Which) : P.put w (P.get w) = P := by
  cases w <;> rfl

/-- The members of the two heaps together. -/
theorem mem_both (P : Priorities ι π) (w : Which) {y : ι} :
    y ∈ P.moving ++ P.stati ↔ y ∈ P.heap w ∨ y ∈ P.heap (other w) := by
  rw [List.mem_append]
  cases w with
  | moving => rfl
  | stati => exact or_comm

/-- Every heap is `w` or the other one. -/
theorem eq_or_eq_other (w v : Which) : v = w ∨ v = other w := by
  cases w <;> cases v <;> simp [other]

end Heaps

/-! ## Runs -/

/-- The operations on the heaps. -/
inductive Op (ι π : Type) where
  | insert (w : Which) (node : ι) (prio : π)
  | pop (w : Which) (newState : QueueId)
  | popBest (w : Which) (newState : QueueId)
  | remove (w : Which) (obj : ι) (newState : QueueId)
  | moveNode (w : Which) (node : ι) (newPrio : π)
  | popHalf (w : Which) (max : ℕ) (newState : QueueId)

variable [DecidableEq ι]

/-- What an operation does, and the objects it takes out of the heaps. -/
def run [LE π] [DecidableLE π] (P : Priorities ι π) : Op ι π → Option (Priorities ι π × List ι)
  | .insert w node prio => do
    let s ← (P.get w).insert node prio
    some (P.put w s, [])
  | .pop w newState => do
    let r ← (P.get w).pop newState
    some (P.put w r.1, r.2.toList)
  | .popBest w newState => do
    let r ← P.popBest w newState
    some (r.1, r.2.toList)
  | .remove w obj newState => do
    let r ← (P.get w).remove obj newState
    some (P.put w r.1, if r.2 then [obj] else [])
  | .moveNode w node newPrio => do
    let s ← (P.get w).moveNode node newPrio
    some (P.put w s, [])
  | .popHalf w max newState => do
    let r ← (P.get w).popHalf max newState
    some (P.put w r.1, r.2)

/-- A state that is not the number of a heap. -/
def Outside (q : QueueId) : Prop := ∀ w, q ≠ queueNumber w

/-- What the callers keep to: they insert an object that is in no heap and give a removed object a
state outside the heaps.  A heap stays below `2^30` members. -/
def Allowed (P : Priorities ι π) : Op ι π → Prop
  | .insert w node _ => Outside (P.obj node).queue ∧ (P.heap w).length + 1 < 2 ^ 30
  | .pop _ newState => Outside newState
  | .popBest _ newState => Outside newState
  | .remove _ _ newState => Outside newState
  | .moveNode _ _ _ => True
  | .popHalf _ _ newState => Outside newState

/-- The members after an operation: those inserted, less those taken out. -/
def account (M : Which → Multiset ι) (op : Op ι π) (out : List ι) : Which → Multiset ι :=
  match op with
  | .insert w node _ => Function.update M w (node ::ₘ M w)
  | _ => fun w => M w - out

/-- The states that allowed operations lead to, with the members inserted and not removed since.
The heaps start empty, with the type that `thread::init` gives both. -/
inductive Reach [LE π] [DecidableLE π] :
    Priorities ι π → (Which → Multiset ι) → Prop where
  | init {P : Priorities ι π} (hmoving : P.moving = []) (hstati : P.stati = [])
      (hobj : ∀ x, Outside (P.obj x).queue) : Reach P fun _ => 0
  | step {P P' : Priorities ι π} {M : Which → Multiset ι} {op : Op ι π} {out : List ι}
      (hr : Reach P M) (hok : P.Allowed op) (hrun : P.run op = some (P', out)) :
      Reach P' (account M op out)

/-- What the heaps promise when they were given the members `M`. -/
structure Sound [LE π] [DecidableLE π] (P : Priorities ι π) (M : Which → Multiset ι) : Prop where
  /-- heap order -/
  ordered : ∀ (w : Which) (i : ℕ) (x y : ι), 0 < i → (P.heap w)[(i - 1) / 2]? = some x →
    (P.heap w)[i]? = some y → compare P.typ (P.obj x).priority (P.obj y).priority = true
  /-- the position and the queue number of a member -/
  placed : ∀ (w : Which) (i : ℕ) (x : ι), (P.heap w)[i]? = some x →
    (P.obj x).pos = i ∧ (P.obj x).queue = queueNumber w
  /-- the members are those inserted and not removed -/
  members : ∀ w, ((P.heap w : List ι) : Multiset ι) = M w
  /-- no allowed operation fails -/
  runs : ∀ op, P.Allowed op → ∃ r, P.run op = some r
  /-- `pop` takes a best member, or there is none -/
  pop : ∀ (w : Which) (newState : QueueId) (P' : Priorities ι π) (out : List ι),
    Outside newState → P.run (.pop w newState) = some (P', out) →
      (P.heap w = [] ∧ out = []) ∨ ∃ x ∈ P.heap w, out = [x] ∧
        ∀ y ∈ P.heap w, compare P.typ (P.obj x).priority (P.obj y).priority = true
  /-- `pop_best` takes a best member of the two heaps together -/
  popBest : ∀ (w : Which) (newState : QueueId) (P' : Priorities ι π) (out : List ι),
    Outside newState → P.run (.popBest w newState) = some (P', out) →
      (P.moving ++ P.stati = [] ∧ out = []) ∨ ∃ x ∈ P.moving ++ P.stati, out = [x] ∧
        ∀ y ∈ P.moving ++ P.stati, compare P.typ (P.obj x).priority (P.obj y).priority = true
  /-- `pop_half` takes few members and leaves the root -/
  popHalf : ∀ (w : Which) (max : ℕ) (newState : QueueId) (P' : Priorities ι π) (out : List ι),
    Outside newState → P.run (.popHalf w max newState) = some (P', out) →
      out.length ≤ min max ((P.heap w).length / 2) ∧ out.Nodup ∧ (∀ x ∈ out, x ∈ P.heap w) ∧
        (P'.heap w)[0]? = (P.heap w)[0]?

/-! ## The invariant -/

section Invariant

variable [Preorder π] [DecidableLE π] [Std.Total (α := π) (· ≤ ·)]

/-- Both heaps are valid, and below `2^30` members. -/
structure Inv (P : Priorities ι π) (M : Which → Multiset ι) : Prop where
  valid : ∀ w, (P.get w).Valid
  few : ∀ w, (P.heap w).length < 1073741824
  members : ∀ w, ((P.heap w : List ι) : Multiset ι) = M w

omit [DecidableEq ι] [DecidableLE π] [Std.Total (α := π) (· ≤ ·)] in
/-- A heap stays valid when its members stay and no other object takes its number. -/
theorem valid_of_obj {s : Pqueue ι π} (v : s.Valid) {o : ι → Intrusive π}
    (hmem : ∀ x ∈ s.heap, o x = s.obj x)
    (hout : ∀ x, x ∉ s.heap → (o x).queue ≠ s.queueNumber) :
    ({ s with obj := o } : Pqueue ι π).Valid := by
  have hkeys : ({ s with obj := o } : Pqueue ι π).keys = s.keys := by
    funext i
    cases hx : s.heap[i]? with
    | none => simp only [keys, hx, Option.map_none]
    | some x => simp only [keys, hx, Option.map_some, hmem x (List.mem_of_getElem? hx)]
  refine ⟨?_, ?_, ?_⟩
  · rw [hkeys]
    exact v.ordered
  · intro i x hx
    show (o x).pos = i
    rw [hmem x (List.mem_of_getElem? hx)]
    exact v.placed i x hx
  · intro x
    show x ∈ s.heap ↔ (o x).queue = s.queueNumber
    by_cases hx : x ∈ s.heap
    · rw [hmem x hx, v.queue x]
    · exact iff_of_false hx (hout x hx)

/-- What an operation on the heap `w` leaves there. -/
structure Left (P : Priorities ι π) (w : Which) (s : Pqueue ι π) (N : Multiset ι) : Prop where
  valid : s.Valid
  few : s.heap.length < 1073741824
  members : (s.heap : Multiset ι) = N
  queueNumber : s.queueNumber = Priorities.queueNumber w
  typ : s.typ = P.typ
  other : ∀ x ∈ P.heap (Priorities.other w), s.obj x = P.obj x
  outside : ∀ x, x ∉ P.heap (Priorities.other w) →
    (s.obj x).queue ≠ Priorities.queueNumber (Priorities.other w)

omit [DecidableEq ι] [DecidableLE π] [Std.Total (α := π) (· ≤ ·)] in
/-- The two heaps after an operation on one of them. -/
theorem Inv.put {P : Priorities ι π} {M N : Which → Multiset ι} (I : Inv P M) {w : Which}
    {s : Pqueue ι π} (hleft : Left P w s (N w)) (hN : N (other w) = M (other w)) :
    Inv (P.put w s) N := by
  refine ⟨?_, ?_, ?_⟩
  · intro v
    rcases eq_or_eq_other w v with rfl | rfl
    · rw [get_put_self hleft.queueNumber hleft.typ]
      exact hleft.valid
    · rw [get_put_other]
      exact valid_of_obj (I.valid _) hleft.other hleft.outside
  · intro v
    rcases eq_or_eq_other w v with rfl | rfl
    · rw [heap_put_self]
      exact hleft.few
    · rw [heap_put_other]
      exact I.few _
  · intro v
    rcases eq_or_eq_other w v with rfl | rfl
    · rw [heap_put_self]
      exact hleft.members
    · rw [heap_put_other, hN]
      exact I.members _

section Steps

variable {P : Priorities ι π} {M : Which → Multiset ι}

omit [DecidableEq ι] [DecidableLE π] [Std.Total (α := π) (· ≤ ·)] in
/-- A member of one heap is not in the other. -/
theorem Inv.notMem_other (I : Inv P M) {w : Which} {x : ι} (hx : x ∈ P.heap w) :
    x ∉ P.heap (other w) := by
  intro hx'
  have hq := ((I.valid w).queue x).mp hx
  have hq' := ((I.valid (other w)).queue x).mp hx'
  exact queueNumber_other w (hq'.symm.trans hq)

omit [DecidableEq ι] [DecidableLE π] [Std.Total (α := π) (· ≤ ·)] in
/-- An operation on one heap leaves the other one alone when the objects it touches are not there
before and do not take its number. -/
theorem Inv.left (I : Inv P M) {w : Which} {s : Pqueue ι π} {objs : List ι} {p : ι → Prop}
    {N : Multiset ι} (v : s.Valid) (few : s.heap.length < 1073741824)
    (members : (s.heap : Multiset ι) = N) (ht : Touches (P.get w) s objs p)
    (hbefore : ∀ x ∈ objs, x ∉ P.heap (other w))
    (hafter : ∀ x ∈ objs, (s.obj x).queue ≠ queueNumber (other w)) : Left P w s N := by
  refine ⟨v, few, members, ht.queueNumber, ht.typ, ?_, ?_⟩
  · intro x hx
    exact ht.elsewhere x fun hm => hbefore x hm hx
  · intro x hx
    by_cases hm : x ∈ objs
    · exact hafter x hm
    · rw [ht.elsewhere x hm]
      exact fun hq => hx (((I.valid (other w)).queue x).mpr hq)

theorem Inv.insert (I : Inv P M) {w : Which} {node : ι} {prio : π}
    (hok : P.Allowed (.insert w node prio)) :
    ∃ P', P.run (.insert w node prio) = some (P', []) ∧
      Inv P' (Function.update M w (node ::ₘ M w)) := by
  obtain ⟨hout, hfew⟩ := hok
  obtain ⟨s, hs, hv, hperm, -, ht⟩ := doInsert_valid (I.valid w) (hfew.trans_eq rfl) (hout w) prio
  have hleft : Left P w s (node ::ₘ M w) := by
    refine I.left hv ?_ ?_ ht ?_ ?_
    · rw [hperm.length_eq]
      exact hfew.trans_eq rfl
    · rw [Multiset.coe_eq_coe.mpr hperm, ← I.members w]
      rfl
    · intro x hx
      rcases List.mem_cons.mp hx with rfl | hx
      · exact fun hm => hout (other w) (((I.valid (other w)).queue x).mp hm)
      · exact I.notMem_other hx
    · intro x hx
      rw [(hv.queue x).mp (hperm.mem_iff.mpr hx), ht.queueNumber]
      exact (queueNumber_other w).symm
  refine ⟨P.put w s, ?_, I.put (M := M) ?_ ?_⟩
  · simp only [run, Pqueue.insert, hs, Option.bind_eq_bind, Option.bind_some]
  · rw [Function.update_self]
    exact hleft
  · rw [Function.update_of_ne]
    cases w <;> decide

omit [DecidableLE π] [Std.Total (α := π) (· ≤ ·)] in
/-- Objects that leave a heap. -/
theorem Inv.take (I : Inv P M) {w : Which} {s : Pqueue ι π} {out : List ι} {newState : QueueId}
    (hout : Outside newState) (hv : s.Valid) (hperm : (out ++ s.heap).Perm (P.heap w))
    (hqueue : ∀ x ∈ out, (s.obj x).queue = newState)
    (ht : Touches (P.get w) s (P.heap w) fun _ => False) :
    Inv (P.put w s) fun v => M v - out := by
  have hmembers : (s.heap : Multiset ι) = M w - out := by
    rw [← I.members w, ← Multiset.coe_eq_coe.mpr hperm, ← Multiset.coe_add]
    ext x
    rw [Multiset.count_sub, Multiset.count_add, Nat.add_sub_cancel_left]
  refine I.put (w := w) (I.left hv ?_ hmembers ht ?_ ?_) ?_
  · have hlen := hperm.length_eq
    rw [List.length_append] at hlen
    have hfew := I.few w
    omega
  · exact fun x hx => I.notMem_other hx
  · intro x hx
    rcases List.mem_append.mp (hperm.mem_iff.mpr hx) with hm | hm
    · rw [hqueue x hm]
      exact hout (other w)
    · rw [(hv.queue x).mp hm, ht.queueNumber]
      exact (queueNumber_other w).symm
  · -- nothing that left was in the other heap
    ext x
    rw [Multiset.count_sub]
    by_cases hx : x ∈ out
    · have hnot : x ∉ P.heap (other w) :=
        I.notMem_other (hperm.mem_iff.mp (List.mem_append_left _ hx))
      have hzero : Multiset.count x (M (other w)) = 0 := by
        rw [← I.members, Multiset.count_eq_zero]
        exact hnot
      rw [hzero, Nat.zero_sub]
    · have hzero : Multiset.count x (out : Multiset ι) = 0 := by
        rw [Multiset.count_eq_zero]
        exact hx
      rw [hzero, Nat.sub_zero]

/-- Taking the root of a heap. -/
theorem Inv.takeRoot (I : Inv P M) {w : Which} {newState : QueueId} (hout : Outside newState)
    {x : ι} {rest : List ι} (hheap : P.heap w = x :: rest) :
    ∃ s, (P.get w).doPop newState = some (s, some x) ∧
      Inv (P.put w s) (fun v => M v - ([x] : List ι)) ∧
      ∀ y ∈ P.heap w, compare P.typ (P.obj x).priority (P.obj y).priority = true := by
  obtain ⟨s, hs, hrem, hbest⟩ := doPop_valid (I.valid w) (I.few w) (hout w) hheap
  refine ⟨s, hs, I.take hout hrem.valid hrem.perm ?_ hrem.touches, hbest⟩
  intro z hz
  rw [List.mem_singleton.mp hz]
  exact hrem.queue

omit [DecidableLE π] [Std.Total (α := π) (· ≤ ·)] in
theorem Inv.sub_nil (I : Inv P M) : Inv P fun v => M v - (([] : List ι) : Multiset ι) := by
  simpa using I

theorem Inv.pop (I : Inv P M) (w : Which) {newState : QueueId} (hout : Outside newState) :
    ∃ P' out, P.run (.pop w newState) = some (P', out) ∧ Inv P' (fun v => M v - out) ∧
      ((P.heap w = [] ∧ out = []) ∨ ∃ x ∈ P.heap w, out = [x] ∧
        ∀ y ∈ P.heap w, compare P.typ (P.obj x).priority (P.obj y).priority = true) := by
  cases hheap : P.heap w with
  | nil =>
    refine ⟨P, [], ?_, I.sub_nil, Or.inl ⟨rfl, rfl⟩⟩
    have hpop : (P.get w).doPop newState = some (P.get w, none) := by
      rw [doPop, heap_get, hheap]
    simp only [run, Pqueue.pop, hpop, Option.bind_eq_bind, Option.bind_some, put_get]
    rfl
  | cons x rest =>
    obtain ⟨s, hs, I', hbest⟩ := I.takeRoot hout hheap
    refine ⟨P.put w s, [x], ?_, I', Or.inr ⟨x, List.mem_cons_self, rfl, ?_⟩⟩
    · simp only [run, Pqueue.pop, hs, Option.bind_eq_bind, Option.bind_some]
      rfl
    · rw [← hheap]
      exact hbest

theorem Inv.remove (I : Inv P M) (w : Which) (obj : ι) {newState : QueueId}
    (hout : Outside newState) :
    ∃ P' out, P.run (.remove w obj newState) = some (P', out) ∧ Inv P' (fun v => M v - out) := by
  by_cases hm : obj ∈ P.heap w
  · obtain ⟨s, hs, hrem, -⟩ := doRemove_valid (I.valid w) (I.few w) hm newState (hout w)
    have hne : ¬ (P.get w).heap.isEmpty = true := by
      rw [List.isEmpty_iff]
      exact List.ne_nil_of_mem hm
    have hq : ¬ ((P.get w).obj obj).queue ≠ (P.get w).queueNumber :=
      not_not.mpr (((I.valid w).queue obj).mp hm)
    refine ⟨P.put w s, [obj], ?_, I.take hout hrem.valid hrem.perm ?_ hrem.touches⟩
    · simp only [run, Pqueue.remove, if_neg hne, if_neg hq, hs, Option.bind_eq_bind,
        Option.bind_some, if_true]
    · intro z hz
      rw [List.mem_singleton.mp hz]
      exact hrem.queue
  · refine ⟨P, [], ?_, I.sub_nil⟩
    have hrem : (P.get w).remove obj newState = some (P.get w, false) := by
      rw [Pqueue.remove]
      split
      · rfl
      · rw [if_pos fun hq => hm (((I.valid w).queue obj).mpr hq)]
    simp only [run, hrem, Option.bind_eq_bind, Option.bind_some, put_get]
    rfl

theorem Inv.moveNode (I : Inv P M) (w : Which) (node : ι) (newPrio : π) :
    ∃ P', P.run (.moveNode w node newPrio) = some (P', []) ∧ Inv P' M := by
  by_cases hm : node ∈ P.heap w
  · obtain ⟨s, hs, hv, hperm, -, ht⟩ := moveNode_valid (I.valid w) (I.few w) hm newPrio
    have hleft : Left P w s (M w) := by
      refine I.left hv ?_ ?_ ht (fun x hx => I.notMem_other hx) ?_
      · rw [hperm.length_eq]
        exact I.few w
      · rw [Multiset.coe_eq_coe.mpr hperm]
        exact I.members w
      · intro x hx
        rw [(hv.queue x).mp (hperm.mem_iff.mpr hx), ht.queueNumber]
        exact (queueNumber_other w).symm
    refine ⟨P.put w s, ?_, I.put hleft rfl⟩
    simp only [run, hs, Option.bind_eq_bind, Option.bind_some]
  · refine ⟨P, ?_, I⟩
    have hmove : (P.get w).moveNode node newPrio = some (P.get w) := by
      rw [Pqueue.moveNode, doMoveNode]
      split
      · rfl
      · rw [if_pos fun hq => hm (((I.valid w).queue node).mpr hq)]
    simp only [run, hmove, Option.bind_eq_bind, Option.bind_some, put_get]

theorem Inv.popHalf (I : Inv P M) (w : Which) (max : ℕ) {newState : QueueId}
    (hout : Outside newState) :
    ∃ P' out, P.run (.popHalf w max newState) = some (P', out) ∧ Inv P' (fun v => M v - out) ∧
      out.length ≤ min max ((P.heap w).length / 2) ∧ out.Nodup ∧ (∀ x ∈ out, x ∈ P.heap w) ∧
      (P'.heap w)[0]? = (P.heap w)[0]? := by
  obtain ⟨s, out, hs, htaken, hlen⟩ := popHalf_valid (I.valid w) (I.few w) max (hout w)
  have hnodup : (out ++ s.heap).Nodup := htaken.perm.nodup_iff.mpr (I.valid w).placed.nodup
  refine ⟨P.put w s, out, ?_, I.take hout htaken.valid htaken.perm htaken.queue htaken.touches,
    hlen, hnodup.of_append_left, ?_, ?_⟩
  · simp only [run, hs, Option.bind_eq_bind, Option.bind_some]
  · intro x hx
    exact htaken.perm.mem_iff.mp (List.mem_append_left _ hx)
  · rw [heap_put_self]
    exact htaken.root

omit [Std.Total (α := π) (· ≤ ·)] in
theorem compare_iff {typ : HeapType} {a b : π} :
    compare typ a b = true ↔ Before typ (some a) (some b) := by
  cases typ with
  | asc => exact decide_eq_true_iff
  | desc => exact decide_eq_true_iff

omit [DecidableEq ι] in
/-- The root of a heap, if it is not behind the root of the other one, is a best member of both. -/
theorem best_of_first {w : Which} {x : ι} {rest : List ι}
    (hroot : ∀ {v z zs}, P.heap v = z :: zs → ∀ y ∈ P.heap v,
      compare P.typ (P.obj z).priority (P.obj y).priority = true)
    (hheap : P.heap w = x :: rest)
    (hfirst : ∀ y ys, P.heap (other w) = y :: ys →
      compare P.typ (P.obj x).priority (P.obj y).priority = true) :
    ∀ v, ∀ y ∈ P.heap v, compare P.typ (P.obj x).priority (P.obj y).priority = true := by
  intro v y hy
  rcases eq_or_eq_other w v with rfl | rfl
  · exact hroot hheap y hy
  · obtain ⟨z, zs, hz⟩ := List.exists_cons_of_ne_nil (List.ne_nil_of_mem hy)
    exact compare_iff.mpr ((compares_before P.typ).trans (compare_iff.mp (hfirst z zs hz))
      (compare_iff.mp (hroot hz y hy)))

/-- Taking the root of a heap that is not behind the root of the other one. -/
theorem Inv.takeBest (I : Inv P M) {w : Which} {newState : QueueId} (hout : Outside newState)
    {x : ι} {rest : List ι} (hheap : P.heap w = x :: rest)
    (hfirst : ∀ y zs, P.heap (other w) = y :: zs →
      compare P.typ (P.obj x).priority (P.obj y).priority = true) :
    ∃ s, (P.get w).doPop newState = some (s, some x) ∧
      Inv (P.put w s) (fun v => M v - ([x] : List ι)) ∧ x ∈ P.moving ++ P.stati ∧
      ∀ y ∈ P.moving ++ P.stati, compare P.typ (P.obj x).priority (P.obj y).priority = true := by
  obtain ⟨s, hs, I', -⟩ := I.takeRoot hout hheap
  refine ⟨s, hs, I', (mem_both P w).mpr (Or.inl (by rw [hheap]; exact List.mem_cons_self)), ?_⟩
  have hroot : ∀ {v z zs}, P.heap v = z :: zs → ∀ y ∈ P.heap v,
      compare P.typ (P.obj z).priority (P.obj y).priority = true := by
    intro v z zs hz
    have hfirst : (P.get v).heap[0]? = some z := by rw [heap_get, hz]; rfl
    exact (I.valid v).root_best hfirst
  intro y hy
  rcases (mem_both P w).mp hy with hy | hy
  · exact best_of_first hroot hheap hfirst w y hy
  · exact best_of_first hroot hheap hfirst (other w) y hy

/-- **What `pop_best` does**: nothing if both heaps are empty, else it pops a heap whose root is not
behind the root of the other one. -/
theorem popBest_eq (P : Priorities ι π) (w : Which) (newState : QueueId) :
    (∀ v, P.heap v = []) ∧ P.popBest w newState = some (P, none) ∨
    ∃ v x rest, P.heap v = x :: rest ∧
      P.popBest w newState = ((P.get v).doPop newState).map (fun q => (P.put v q.1, q.2)) ∧
      ∀ y ys, P.heap (other v) = y :: ys →
        compare P.typ (P.obj x).priority (P.obj y).priority = true := by
  have hbind : ∀ v, (do
      let q ← (P.get v).doPop newState
      some (P.put v q.1, q.2)) = ((P.get v).doPop newState).map (fun q => (P.put v q.1, q.2)) :=
    fun _ => (Option.map_eq_bind ..).symm
  cases hw : P.heap w with
  | nil =>
    cases ho : P.heap (other w) with
    | nil =>
      refine Or.inl ⟨fun v => ?_, ?_⟩
      · rcases eq_or_eq_other w v with rfl | rfl
        · exact hw
        · exact ho
      · rw [Priorities.popBest, hw, ho]
    | cons y ys =>
      refine Or.inr ⟨other w, y, ys, ho, ?_, ?_⟩
      · rw [Priorities.popBest, hw, ho]
        exact hbind (other w)
      · intro z zs hz
        rw [other_other, hw] at hz
        cases hz
  | cons x xs =>
    cases ho : P.heap (other w) with
    | nil =>
      refine Or.inr ⟨w, x, xs, hw, ?_, ?_⟩
      · rw [Priorities.popBest, hw, ho]
        exact hbind w
      · intro z zs hz
        rw [ho] at hz
        cases hz
    | cons y ys =>
      by_cases hle : compare P.typ (P.obj x).priority (P.obj y).priority = true
      · refine Or.inr ⟨w, x, xs, hw, ?_, ?_⟩
        · rw [Priorities.popBest, hw, ho]
          simp only [if_pos hle]
          exact hbind w
        · intro z zs hz
          rw [ho, List.cons.injEq] at hz
          rwa [← hz.1]
      · refine Or.inr ⟨other w, y, ys, ho, ?_, ?_⟩
        · rw [Priorities.popBest, hw, ho]
          simp only [if_neg hle]
          exact hbind (other w)
        · intro z zs hz
          rw [other_other, hw, List.cons.injEq] at hz
          rw [← hz.1]
          exact compare_iff.mpr (((compares_before P.typ).total _ _).resolve_right
            fun h => hle (compare_iff.mpr h))

theorem Inv.popBest (I : Inv P M) (w : Which) {newState : QueueId} (hout : Outside newState) :
    ∃ P' out, P.run (.popBest w newState) = some (P', out) ∧ Inv P' (fun v => M v - out) ∧
      ((P.moving ++ P.stati = [] ∧ out = []) ∨ ∃ x ∈ P.moving ++ P.stati, out = [x] ∧
        ∀ y ∈ P.moving ++ P.stati,
          compare P.typ (P.obj x).priority (P.obj y).priority = true) := by
  obtain ⟨hnil, heq⟩ | ⟨v, x, rest, hheap, heq, hfirst⟩ := popBest_eq P w newState
  · refine ⟨P, [], ?_, I.sub_nil, Or.inl ⟨?_, rfl⟩⟩
    · simp only [run, heq, Option.bind_eq_bind, Option.bind_some]
      rfl
    · refine List.eq_nil_iff_forall_not_mem.mpr ?_
      intro y hy
      rw [mem_both P w, hnil w, hnil (other w)] at hy
      exact hy.elim List.not_mem_nil List.not_mem_nil
  · obtain ⟨s, hs, I', hmem, hbest⟩ := I.takeBest hout hheap hfirst
    refine ⟨P.put v s, [x], ?_, I', Or.inr ⟨x, hmem, rfl, hbest⟩⟩
    rw [hs, Option.map_some] at heq
    simp only [run, heq, Option.bind_eq_bind, Option.bind_some]
    rfl

/-- **One operation** succeeds and keeps the invariant. -/
theorem Inv.step (I : Inv P M) {op : Op ι π} (hok : P.Allowed op) :
    ∃ P' out, P.run op = some (P', out) ∧ Inv P' (account M op out) := by
  cases op with
  | insert w node prio =>
    obtain ⟨P', hrun, I'⟩ := I.insert hok
    exact ⟨P', [], hrun, I'⟩
  | pop w newState =>
    obtain ⟨P', out, hrun, I', -⟩ := I.pop w hok
    exact ⟨P', out, hrun, I'⟩
  | popBest w newState =>
    obtain ⟨P', out, hrun, I', -⟩ := I.popBest w hok
    exact ⟨P', out, hrun, I'⟩
  | remove w obj newState =>
    obtain ⟨P', out, hrun, I'⟩ := I.remove w obj hok
    exact ⟨P', out, hrun, I'⟩
  | moveNode w node newPrio =>
    obtain ⟨P', hrun, I'⟩ := I.moveNode w node newPrio
    exact ⟨P', [], hrun, I'.sub_nil⟩
  | popHalf w max newState =>
    obtain ⟨P', out, hrun, I', -⟩ := I.popHalf w max hok
    exact ⟨P', out, hrun, I'⟩

omit [DecidableEq ι] [DecidableLE π] [Std.Total (α := π) (· ≤ ·)] in
theorem inv_init (hmoving : P.moving = []) (hstati : P.stati = [])
    (hobj : ∀ x, Outside (P.obj x).queue) : Inv P fun _ => 0 := by
  have hnil : ∀ w, P.heap w = [] := by
    intro w
    cases w with
    | moving => exact hmoving
    | stati => exact hstati
  refine ⟨?_, ?_, ?_⟩
  · intro w
    refine ⟨?_, ?_, ?_⟩
    · intro i _ hi
      rw [heap_get, hnil w] at hi
      exact absurd hi (Nat.not_lt_zero i)
    · intro i x hx
      rw [heap_get, hnil w] at hx
      cases hx
    · intro x
      rw [heap_get, hnil w]
      exact iff_of_false List.not_mem_nil (hobj x w)
  · intro w
    rw [hnil w]
    exact Nat.zero_lt_succ _
  · intro w
    rw [hnil w]
    rfl

/-- The invariant along a run. -/
theorem Reach.inv (hr : Reach P M) : Inv P M := by
  induction hr with
  | init hmoving hstati hobj => exact inv_init hmoving hstati hobj
  | step hr hok hrun ih =>
    obtain ⟨P₁, out₁, hrun₁, I⟩ := ih.step hok
    rw [hrun, Option.some.injEq, Prod.mk.injEq] at hrun₁
    obtain ⟨rfl, rfl⟩ := hrun₁
    exact I

/-- A thread without nodes in its heaps. -/
def emptyHeaps : Priorities ℕ ℕ := ⟨.asc, [], [], fun _ => ⟨0, 0, .idle⟩⟩

/-- Node 1 is inserted with priority 5 among the moving nodes, then node 2 with priority 3 among the
static ones. -/
def oneNode : Priorities ℕ ℕ :=
  ((emptyHeaps.run (.insert .moving 1 5)).getD (emptyHeaps, [])).1

@[inherit_doc oneNode]
def twoNodes : Priorities ℕ ℕ := ((oneNode.run (.insert .stati 2 3)).getD (oneNode, [])).1

end Steps

end Invariant

end Priorities
end Meld
