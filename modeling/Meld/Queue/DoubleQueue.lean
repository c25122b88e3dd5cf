import Meld.Lib.Linked
import Meld.Queue.ComplexPqueue

/-!
# The normal queues of a thread

`intrusive_safe_double_queue` is a doubly linked list through fields of the objects.  An object also
carries the number of the queue it is in, and `remove` looks at nothing else to decide whether the
object is a member.  All threads use the same numbers, so an object of another thread's queue of the
same kind passes this test.

Objects are natural numbers and `0` is the null pointer.  `total` is a `size_t`.

* `pushTail`, `popHead`, `popTail`, `popTailHalf`, `remove`: the operations.
* `Holds q l`: the queue `q` is the list `l`.
* `Holds.pushTail`, `Holds.popHead`, `Holds.popTail`, `Holds.popTailHalf`, `Holds.remove`: the
  operations on a queue that holds a list.  They touch no object outside it.
-/

namespace Meld

/-- The fields of `DECLARE_DOUBLE_QUEUE_NODE` that a list uses. -/
structure QueueLink where
  prev : ℕ
  next : ℕ
  queue : QueueId

/-- `intrusive_safe_double_queue`, with the fields of the objects. -/
structure DoubleQueue where
  queueNumber : QueueId
  head : ℕ
  tail : ℕ
  total : BitVec 64
  link : ℕ → QueueLink

namespace DoubleQueue

/-- Write `prev`, unless the pointer is null. -/
def setPrev (link : ℕ → QueueLink) (x p : ℕ) : ℕ → QueueLink :=
  if x = 0 then link else Function.update link x { link x with prev := p }

/-- Write `next`, unless the pointer is null. -/
def setNext (link : ℕ → QueueLink) (x n : ℕ) : ℕ → QueueLink :=
  if x = 0 then link else Function.update link x { link x with next := n }

/-- Write the number of the queue. -/
def setQueue (link : ℕ → QueueLink) (x : ℕ) (q : QueueId) : ℕ → QueueLink :=
  Function.update link x { link x with queue := q }

/-- `push_tail`. -/
def pushTail (q : DoubleQueue) (x : ℕ) : DoubleQueue where
  queueNumber := q.queueNumber
  head := if q.head = 0 then x else q.head
  tail := x
  total := q.total + 1
  link := setNext (setQueue (setNext (setPrev q.link x q.tail) q.tail x) x q.queueNumber) x 0

/-- `pop_head`: the object, or `0` if the queue is empty. -/
def popHead (q : DoubleQueue) (newState : QueueId) : DoubleQueue × ℕ :=
  if q.head = 0 then (q, 0)
  else
    let head := (q.link q.head).next
    ({ q with
        head := head
        tail := if head = 0 then 0 else q.tail
        total := q.total - 1
        link := setQueue (setPrev q.link head 0) q.head newState }, q.head)

/-- `pop_tail`: the object, or `0` if the queue is empty. -/
def popTail (q : DoubleQueue) (newState : QueueId) : DoubleQueue × ℕ :=
  if q.head = 0 then (q, 0)
  else
    let tail := (q.link q.tail).prev
    ({ q with
        head := if tail = 0 then 0 else q.head
        tail := tail
        total := q.total - 1
        link := setQueue (setNext q.link tail 0) q.tail newState }, q.tail)

/-- The loop of `pop_tail_half`: `none` if it reads through the null pointer. -/
def takeHeads (newState : QueueId) : ℕ → ℕ → (ℕ → QueueLink) → Option ((ℕ → QueueLink) × ℕ × List ℕ)
  | 0, head, link => some (link, head, [])
  | n + 1, head, link =>
    if head = 0 then none
    else (takeHeads newState n (link head).next (setQueue link head newState)).map fun r =>
      (r.1, r.2.1, head :: r.2.2)

/-- `pop_tail_half`: the objects taken. -/
def popTailHalf (q : DoubleQueue) (max : ℕ) (newState : QueueId) :
    Option (DoubleQueue × List ℕ) :=
  let half := min max (q.total.toNat / 2)
  if half = 0 then some (q, [])
  else do
    let r ← takeHeads newState half q.head q.link
    if r.2.1 = 0 then none
    else some ({ q with
      head := r.2.1
      total := q.total - BitVec.ofNat 64 half
      link := setPrev r.1 r.2.1 0 }, r.2.2)

/-- The unlinking of `do_remove`. -/
def unlink (q : DoubleQueue) (x : ℕ) (newState : QueueId) : DoubleQueue :=
  let prev := (q.link x).prev
  let next := (q.link x).next
  { q with
    head := if q.head = x then next else q.head
    tail := if q.tail = x then prev else q.tail
    total := q.total - 1
    link := setQueue (setPrev (setNext (setPrev (setNext q.link prev next) next prev) x 0) x 0) x
      newState }

/-- `remove`. -/
def remove (q : DoubleQueue) (x : ℕ) (newState : QueueId) : DoubleQueue × Bool :=
  if (q.link x).queue ≠ q.queueNumber then (q, false) else (q.unlink x newState, true)

/-! ## The fields that are written -/

section Fields

variable {link : ℕ → QueueLink} {x y p n : ℕ} {q : QueueId}

theorem setPrev_apply : setPrev link x p y =
    if y = x ∧ x ≠ 0 then { link y with prev := p } else link y := by
  rw [setPrev]
  by_cases hx : x = 0
  · simp [hx]
  · by_cases hy : y = x
    · subst hy
      simp [hx]
    · simp [hx, hy]

theorem setNext_apply : setNext link x n y =
    if y = x ∧ x ≠ 0 then { link y with next := n } else link y := by
  rw [setNext]
  by_cases hx : x = 0
  · simp [hx]
  · by_cases hy : y = x
    · subst hy
      simp [hx]
    · simp [hx, hy]

theorem setQueue_apply : setQueue link x q y =
    if y = x then { link y with queue := q } else link y := by
  rw [setQueue]
  by_cases hy : y = x
  · subst hy
    simp
  · simp [hy]

theorem prev_setPrev (hy : y ≠ 0) :
    (setPrev link x p y).prev = if y = x then p else (link y).prev := by
  rw [setPrev_apply]
  by_cases hyx : y = x
  · rw [if_pos ⟨hyx, hyx ▸ hy⟩, if_pos hyx]
  · rw [if_neg fun hc => hyx hc.1, if_neg hyx]

theorem next_setNext (hy : y ≠ 0) :
    (setNext link x n y).next = if y = x then n else (link y).next := by
  rw [setNext_apply]
  by_cases hyx : y = x
  · rw [if_pos ⟨hyx, hyx ▸ hy⟩, if_pos hyx]
  · rw [if_neg fun hc => hyx hc.1, if_neg hyx]

@[simp] theorem next_setPrev : (setPrev link x p y).next = (link y).next := by
  rw [setPrev_apply]
  split <;> rfl

@[simp] theorem prev_setNext : (setNext link x n y).prev = (link y).prev := by
  rw [setNext_apply]
  split <;> rfl

@[simp] theorem prev_setQueue : (setQueue link x q y).prev = (link y).prev := by
  rw [setQueue_apply]
  split <;> rfl

@[simp] theorem next_setQueue : (setQueue link x q y).next = (link y).next := by
  rw [setQueue_apply]
  split <;> rfl

@[simp] theorem queue_setQueue :
    (setQueue link x q y).queue = if y = x then q else (link y).queue := by
  rw [setQueue_apply]
  split <;> rfl

theorem setPrev_of_ne (hyx : y ≠ x ∨ x = 0) : setPrev link x p y = link y := by
  rw [setPrev_apply]
  exact if_neg fun hc => hyx.elim (fun h => h hc.1) hc.2

theorem setNext_of_ne (hyx : y ≠ x ∨ x = 0) : setNext link x n y = link y := by
  rw [setNext_apply]
  exact if_neg fun hc => hyx.elim (fun h => h hc.1) hc.2

theorem setQueue_of_ne (hyx : y ≠ x) : setQueue link x q y = link y := by
  rw [setQueue_apply, if_neg hyx]

@[simp] theorem queue_setPrev : (setPrev link x p y).queue = (link y).queue := by
  rw [setPrev_apply]
  split <;> rfl

@[simp] theorem queue_setNext : (setNext link x n y).queue = (link y).queue := by
  rw [setNext_apply]
  split <;> rfl

end Fields

/-- The links of the objects, as a heap of linked cells. -/
def links (link : ℕ → QueueLink) : Linked.Links := fun a => some ((link a).prev, (link a).next)

/-- **The queue is the list.** -/
structure Holds (q : DoubleQueue) (l : List ℕ) : Prop where
  head : q.head = l.headD 0
  tail : q.tail = l.getLastD 0
  seg : Linked.Seg (links q.link) 0 l 0
  nodup : l.Nodup
  null : 0 ∉ l
  total : q.total = BitVec.ofNat 64 l.length
  queue : ∀ x ∈ l, (q.link x).queue = q.queueNumber

variable {q : DoubleQueue} {l : List ℕ} {x : ℕ}

/-- An empty queue. -/
theorem holds_nil (hhead : q.head = 0) (htail : q.tail = 0) (htotal : q.total = 0) :
    q.Holds [] :=
  ⟨hhead, htail, trivial, List.nodup_nil, by simp, htotal, by simp⟩

/-- A queue holds its list as long as the fields of its members stay. -/
theorem Holds.congr (h : q.Holds l) {q' : DoubleQueue} (hnum : q'.queueNumber = q.queueNumber)
    (hhead : q'.head = q.head) (htail : q'.tail = q.tail) (htotal : q'.total = q.total)
    (hlink : ∀ x ∈ l, q'.link x = q.link x) : q'.Holds l := by
  refine ⟨hhead.trans h.head, htail.trans h.tail, Linked.seg_congr (fun a ha => ?_) h.seg, h.nodup,
    h.null, htotal.trans h.total, fun x hx => ?_⟩
  · rw [links, links, hlink a ha]
  · rw [hlink x hx, hnum]
    exact h.queue x hx

theorem Holds.ne_zero (h : q.Holds l) (hx : x ∈ l) : x ≠ 0 := by
  rintro rfl
  exact h.null hx

/-- The queue is empty exactly when its list is. -/
theorem Holds.head_eq_zero (h : q.Holds l) : q.head = 0 ↔ l = [] := by
  rw [h.head]
  cases l with
  | nil => simp
  | cons a l => simp [h.ne_zero List.mem_cons_self]

/-! ## Members that leave -/

/-- **Cutting out of the middle**: the part `m` of the list leaves, and its two neighbours are
joined. -/
theorem Holds.cut {xs m ys : List ℕ} (h : q.Holds (xs ++ (m ++ ys))) {q' : DoubleQueue}
    (hnum : q'.queueNumber = q.queueNumber) (hhead : q'.head = (xs ++ ys).headD 0)
    (htail : q'.tail = (xs ++ ys).getLastD 0)
    (htotal : q'.total = BitVec.ofNat 64 (xs ++ ys).length)
    (hprev : ∀ y ∈ xs ++ ys, (q'.link y).prev =
      if y = ys.headD 0 then xs.getLastD 0 else (q.link y).prev)
    (hnext : ∀ y ∈ xs ++ ys, (q'.link y).next =
      if y = xs.getLastD 0 then ys.headD 0 else (q.link y).next)
    (hqueue : ∀ y ∈ xs ++ ys, (q'.link y).queue = (q.link y).queue) : q'.Holds (xs ++ ys) := by
  have hsub : (xs ++ ys).Sublist (xs ++ (m ++ ys)) :=
    List.Sublist.append_left (List.sublist_append_right m ys) xs
  obtain ⟨hxs, hmys⟩ := Linked.seg_append.mp h.seg
  obtain ⟨-, hys⟩ := Linked.seg_append.mp hmys
  have hnull : 0 ∉ xs ++ ys := fun h0 => h.null (hsub.subset h0)
  have hnodup : (xs ++ ys).Nodup := h.nodup.sublist hsub
  refine ⟨hhead, htail, ?_, hnodup, hnull, htotal, ?_⟩
  · refine Linked.seg_congr ?_ (Linked.seg_join hnodup hnull hxs hys)
    intro y hy
    rw [links, hprev y hy, hnext y hy]
    rfl
  · intro y hy
    rw [hqueue y hy, hnum]
    exact h.queue y (hsub.subset hy)

/-- The number of members after some have left. -/
theorem ofNat_length_sub {a b : ℕ} : BitVec.ofNat 64 (a + b) - BitVec.ofNat 64 a =
    BitVec.ofNat 64 b := by
  rw [Nat.add_comm, BitVec.ofNat_add, BitVec.add_sub_cancel]

/-- A head that is outside the list is the null pointer. -/
theorem ne_headD_or (hx : x ∉ l) : x ≠ l.headD 0 ∨ l.headD 0 = 0 := by
  cases l with
  | nil => exact Or.inr rfl
  | cons a l =>
    refine Or.inl ?_
    rintro rfl
    exact hx List.mem_cons_self

/-- A tail that is outside the list is the null pointer. -/
theorem ne_getLastD_or (hx : x ∉ l) : x ≠ l.getLastD 0 ∨ l.getLastD 0 = 0 := by
  by_cases hl : l = []
  · subst hl
    exact Or.inr rfl
  · refine Or.inl ?_
    rintro rfl
    exact hx (Linked.getLastD_mem hl)

/-- **Cutting off the front.**  Only `prev` of the new head is written. -/
theorem Holds.cutFront {m ys : List ℕ} (h : q.Holds (m ++ ys)) {q' : DoubleQueue}
    (hnum : q'.queueNumber = q.queueNumber) (hhead : q'.head = ys.headD 0)
    (htail : q'.tail = ys.getLastD 0) (htotal : q'.total = BitVec.ofNat 64 ys.length)
    (hprev : ∀ y ∈ ys, (q'.link y).prev = if y = ys.headD 0 then 0 else (q.link y).prev)
    (hnext : ∀ y ∈ ys, (q'.link y).next = (q.link y).next)
    (hqueue : ∀ y ∈ ys, (q'.link y).queue = (q.link y).queue) : q'.Holds ys := by
  have h' : q.Holds ([] ++ (m ++ ys)) := h
  refine h'.cut hnum hhead htail htotal hprev ?_ hqueue
  intro y hy
  have hy0 : y ≠ 0 := h.ne_zero (List.mem_append_right m hy)
  rw [hnext y hy]
  exact (if_neg hy0).symm

/-- The pointer to the next member. -/
theorem Holds.next_eq {xs ys : List ℕ} (h : q.Holds (xs ++ x :: ys)) :
    (q.link x).next = ys.headD 0 := by
  have hx := (Linked.seg_append.mp h.seg).2.1
  rw [links, Option.some.injEq, Prod.mk.injEq] at hx
  exact hx.2

/-- The pointer to the member before. -/
theorem Holds.prev_eq {xs ys : List ℕ} (h : q.Holds (xs ++ x :: ys)) :
    (q.link x).prev = xs.getLastD 0 := by
  have hx := (Linked.seg_append.mp h.seg).2.1
  rw [links, Option.some.injEq, Prod.mk.injEq] at hx
  exact hx.1

/-- What an operation leaves when the members `m` go and the list `l` stays: they have the new
state, and no object outside the queue is touched. -/
structure Leaves (q q' : DoubleQueue) (m l : List ℕ) (newState : QueueId) : Prop where
  queueNumber : q'.queueNumber = q.queueNumber
  holds : q'.Holds l
  queue : ∀ x ∈ m, (q'.link x).queue = newState
  elsewhere : ∀ x, x ∉ m → x ∉ l → q'.link x = q.link x

/-- **`pop_head`** takes the first member. -/
theorem Holds.popHead {ys : List ℕ} (h : q.Holds (x :: ys)) (newState : QueueId) :
    (q.popHead newState).2 = x ∧ Leaves q (q.popHead newState).1 [x] ys newState := by
  have hhead : q.head = x := h.head
  have hx : x ≠ 0 := h.ne_zero List.mem_cons_self
  have h' : q.Holds ([] ++ x :: ys) := h
  have hnext : (q.link x).next = ys.headD 0 := h'.next_eq
  have heq : q.popHead newState =
      ({ q with
          head := ys.headD 0
          tail := if ys.headD 0 = 0 then 0 else q.tail
          total := q.total - 1
          link := setQueue (setPrev q.link (ys.headD 0) 0) x newState }, x) := by
    rw [DoubleQueue.popHead, hhead, if_neg hx]
    simp only [hnext]
  rw [heq]
  have hne : ∀ y ∈ ys, y ≠ x := by
    rintro y hy rfl
    exact (List.nodup_cons.mp h.nodup).1 hy
  refine ⟨rfl, rfl, ?_, ?_, ?_⟩
  · refine Holds.cutFront (m := [x]) h rfl rfl ?_ ?_ ?_ ?_ ?_
    · show (if ys.headD 0 = 0 then 0 else q.tail) = ys.getLastD 0
      cases ys with
      | nil => rfl
      | cons y ys =>
        rw [if_neg (h.ne_zero (by simp)), h.tail]
        rfl
    · show q.total - 1 = BitVec.ofNat 64 ys.length
      rw [h.total, List.length_cons, Nat.add_comm]
      exact ofNat_length_sub
    · intro y hy
      rw [prev_setQueue, prev_setPrev (h.ne_zero (List.mem_cons_of_mem x hy))]
    · intro y _
      rw [next_setQueue, next_setPrev]
    · intro y hy
      rw [queue_setQueue, if_neg (hne y hy), queue_setPrev]
  · intro y hy
    rw [queue_setQueue, if_pos (List.mem_singleton.mp hy)]
  · intro y hyx hyys
    show setQueue (setPrev q.link (ys.headD 0) 0) x newState y = q.link y
    rw [setQueue_of_ne (mt List.mem_singleton.mpr hyx), setPrev_of_ne (ne_headD_or hyys)]

/-- **`pop_tail`** takes the last member. -/
theorem Holds.popTail {xs : List ℕ} (h : q.Holds (xs ++ [x])) (newState : QueueId) :
    (q.popTail newState).2 = x ∧ Leaves q (q.popTail newState).1 [x] xs newState := by
  have hmem : x ∈ xs ++ [x] := List.mem_append_right xs List.mem_cons_self
  have hhead : q.head ≠ 0 := mt h.head_eq_zero.mp (List.ne_nil_of_mem hmem)
  have htail : q.tail = x := by
    rw [h.tail]
    simp
  have hprev : (q.link x).prev = xs.getLastD 0 := h.prev_eq
  obtain ⟨q', hq'⟩ : ∃ q' : DoubleQueue, q' = { q with
      head := if xs.getLastD 0 = 0 then 0 else q.head
      tail := xs.getLastD 0
      total := q.total - 1
      link := setQueue (setNext q.link (xs.getLastD 0) 0) x newState } := ⟨_, rfl⟩
  have heq : q.popTail newState = (q', x) := by
    rw [DoubleQueue.popTail, if_neg hhead, htail, hq']
    simp only [hprev]
  rw [heq]
  have hx : x ∉ xs := fun hxs =>
    List.disjoint_of_nodup_append h.nodup hxs List.mem_cons_self
  have hne : ∀ y ∈ xs, y ≠ x := by
    rintro y hy rfl
    exact hx hy
  have h0 : ∀ y ∈ xs, y ≠ 0 := fun y hy => h.ne_zero (List.mem_append_left _ hy)
  -- nothing comes behind the member that leaves
  have hcut : q'.Holds (xs ++ []) := by
    subst hq'
    refine Holds.cut (m := [x]) h rfl ?_ ?_ ?_ ?_ ?_ ?_ <;> rw [List.append_nil]
    · show (if xs.getLastD 0 = 0 then 0 else q.head) = xs.headD 0
      rw [h.head]
      cases xs with
      | nil => rfl
      | cons a xs =>
        rw [if_neg (h0 _ (Linked.getLastD_mem (List.cons_ne_nil a xs)))]
        rfl
    · show q.total - 1 = BitVec.ofNat 64 xs.length
      rw [h.total, List.length_append, Nat.add_comm]
      exact ofNat_length_sub
    · intro y hy
      rw [prev_setQueue, prev_setNext]
      exact (if_neg (h0 y hy)).symm
    · intro y hy
      rw [next_setQueue, next_setNext (h0 y hy)]
      rfl
    · intro y hy
      rw [queue_setQueue, if_neg (hne y hy), queue_setNext]
  rw [List.append_nil] at hcut
  subst hq'
  refine ⟨rfl, rfl, hcut, fun y hy => ?_, fun y hyx hyxs => ?_⟩
  · rw [queue_setQueue, if_pos (List.mem_singleton.mp hy)]
  · show setQueue (setNext q.link (xs.getLastD 0) 0) x newState y = q.link y
    rw [setQueue_of_ne (mt List.mem_singleton.mpr hyx), setNext_of_ne (ne_getLastD_or hyxs)]

/-- **`remove`** of a member. -/
theorem Holds.remove {xs ys : List ℕ} (h : q.Holds (xs ++ x :: ys)) (newState : QueueId) :
    (q.remove x newState).2 = true ∧
      Leaves q (q.remove x newState).1 [x] (xs ++ ys) newState := by
  have hmem : x ∈ xs ++ x :: ys := List.mem_append_right xs List.mem_cons_self
  have heq : q.remove x newState = (q.unlink x newState, true) := by
    rw [DoubleQueue.remove, if_neg (not_not.mpr (h.queue x hmem))]
  rw [heq]
  have hx : x ∉ xs ++ ys := (List.nodup_middle.mp h.nodup).notMem
  have hne : ∀ y ∈ xs ++ ys, y ≠ x := by
    rintro y hy rfl
    exact hx hy
  have hin : ∀ y ∈ xs ++ ys, y ∈ xs ++ x :: ys := fun y hy =>
    (List.Sublist.append_left (List.sublist_cons_self x ys) xs).subset hy
  refine ⟨rfl, rfl, ?_, ?_, ?_⟩
  · refine Holds.cut (m := [x]) h rfl ?_ ?_ ?_ ?_ ?_ ?_
    · show (if q.head = x then (q.link x).next else q.head) = (xs ++ ys).headD 0
      rw [h.head, h.next_eq]
      cases xs with
      | nil => exact if_pos rfl
      | cons a xs => exact if_neg (hne a List.mem_cons_self)
    · show (if q.tail = x then (q.link x).prev else q.tail) = (xs ++ ys).getLastD 0
      rw [h.tail, h.prev_eq]
      by_cases hys : ys = []
      · subst hys
        rw [List.append_nil]
        exact if_pos (by simp)
      · have hlast : (xs ++ x :: ys).getLastD 0 = ys.getLastD 0 := by
          rw [Linked.getLastD_append_of_ne_nil xs (List.cons_ne_nil x ys)]
          exact Linked.getLastD_append_of_ne_nil [x] hys
        rw [hlast, Linked.getLastD_append_of_ne_nil xs hys]
        exact if_neg (hne _ (List.mem_append_right xs (Linked.getLastD_mem hys)))
    · show q.total - 1 = BitVec.ofNat 64 (xs ++ ys).length
      have hlen : (xs ++ x :: ys).length = 1 + (xs ++ ys).length := by
        simp only [List.length_append, List.length_cons]
        omega
      rw [h.total, hlen]
      exact ofNat_length_sub
    · intro y hy
      have hy0 : y ≠ 0 := h.ne_zero (hin y hy)
      simp only [unlink, prev_setQueue, prev_setNext, prev_setPrev hy0, if_neg (hne y hy),
        h.next_eq, h.prev_eq]
    · intro y hy
      have hy0 : y ≠ 0 := h.ne_zero (hin y hy)
      simp only [unlink, next_setQueue, next_setPrev, next_setNext hy0, if_neg (hne y hy),
        h.next_eq, h.prev_eq]
    · intro y hy
      simp only [unlink, queue_setQueue, if_neg (hne y hy), queue_setPrev, queue_setNext]
  · intro y hy
    simp only [unlink, queue_setQueue, if_pos (List.mem_singleton.mp hy)]
  · intro y hyx hy
    have hyx' : y ≠ x := mt List.mem_singleton.mpr hyx
    obtain ⟨hyxs, hyys⟩ := not_or.mp (mt List.mem_append.mpr hy)
    simp only [unlink, h.next_eq, h.prev_eq]
    rw [setQueue_of_ne hyx', setPrev_of_ne (Or.inl hyx'), setNext_of_ne (Or.inl hyx'),
      setPrev_of_ne (ne_headD_or hyys), setNext_of_ne (ne_getLastD_or hyxs)]

/-- An object with another number is not removed. -/
theorem remove_of_ne (hx : (q.link x).queue ≠ q.queueNumber) (newState : QueueId) :
    q.remove x newState = (q, false) := by
  rw [DoubleQueue.remove, if_pos hx]

/-- The loop of `pop_tail_half` on a list with enough members. -/
theorem takeHeads_eq {link₀ link : ℕ → QueueLink} (newState : QueueId) {m ys : List ℕ} {p : ℕ}
    (hseg : Linked.Seg (links link₀) p (m ++ ys) 0) (hnodup : (m ++ ys).Nodup)
    (hnull : 0 ∉ m ++ ys) (hnext : ∀ y ∈ m, (link y).next = (link₀ y).next) :
    ∃ link', takeHeads newState m.length ((m ++ ys).headD 0) link = some (link', ys.headD 0, m) ∧
      ∀ y, link' y = if y ∈ m then { link y with queue := newState } else link y := by
  induction m generalizing p link with
  | nil => exact ⟨link, rfl, fun y => by simp⟩
  | cons a m ih =>
    obtain ⟨ha, hrest⟩ := hseg
    have ha0 : a ≠ 0 := by
      rintro rfl
      exact hnull List.mem_cons_self
    obtain ⟨ham, hnodup'⟩ := List.nodup_cons.mp hnodup
    have hanext : (link a).next = (m ++ ys).headD 0 := by
      rw [hnext a List.mem_cons_self]
      rw [links, Option.some.injEq, Prod.mk.injEq] at ha
      exact ha.2
    have hnext' : ∀ y ∈ m, (setQueue link a newState y).next = (link₀ y).next := by
      intro y hy
      rw [next_setQueue]
      exact hnext y (List.mem_cons_of_mem a hy)
    obtain ⟨link', htake, hlink'⟩ :=
      ih hrest hnodup' (fun h0 => hnull (List.mem_cons_of_mem a h0)) hnext'
    refine ⟨link', ?_, ?_⟩
    · rw [List.cons_append, List.headD_cons, List.length_cons, takeHeads, if_neg ha0, hanext,
        htake]
      rfl
    · intro y
      rw [hlink' y]
      by_cases hya : y = a
      · subst hya
        have hym : y ∉ m := fun hm => ham (List.mem_append_left ys hm)
        rw [if_neg hym, if_pos List.mem_cons_self, setQueue_apply, if_pos rfl]
      · rw [setQueue_of_ne hya]
        simp only [List.mem_cons, hya, false_or]

/-- **`pop_tail_half`** takes the first members, and at most half of them. -/
theorem Holds.popTailHalf (h : q.Holds l) (hlen : l.length < 2 ^ 64) (max : ℕ)
    (newState : QueueId) :
    ∃ q', q.popTailHalf max newState = some (q', l.take (min max (l.length / 2))) ∧
      Leaves q q' (l.take (min max (l.length / 2))) (l.drop (min max (l.length / 2)))
        newState := by
  have htotal : q.total.toNat = l.length := by
    rw [h.total, BitVec.toNat_ofNat, Nat.mod_eq_of_lt hlen]
  obtain ⟨half, hhalf⟩ : ∃ half, half = min max (l.length / 2) := ⟨_, rfl⟩
  rw [DoubleQueue.popTailHalf, htotal, ← hhalf]
  by_cases hzero : half = 0
  · rw [hzero]
    refine ⟨q, rfl, rfl, h, fun y hy => absurd hy List.not_mem_nil, fun y _ _ => rfl⟩
  · obtain ⟨m, hm⟩ : ∃ m, m = l.take half := ⟨_, rfl⟩
    obtain ⟨ys, hys⟩ : ∃ ys, ys = l.drop half := ⟨_, rfl⟩
    have hl : l = m ++ ys := by rw [hm, hys, List.take_append_drop]
    have hmlen : m.length = half := by
      rw [hm, List.length_take]
      omega
    have hyslen : ys.length = l.length - half := by rw [hys, List.length_drop]
    have hne : ys ≠ [] := List.ne_nil_of_length_pos (by omega)
    rw [← hm, ← hys]
    subst hl
    obtain ⟨link', htake, hlink'⟩ := takeHeads_eq newState h.seg h.nodup h.null
      fun y _ => rfl
    have hhead0 : ys.headD 0 ≠ 0 :=
      h.ne_zero (List.mem_append_right m (Linked.headD_mem hne))
    have hnotm : ∀ y ∈ ys, y ∉ m := fun y hy hym =>
      List.disjoint_of_nodup_append h.nodup hym hy
    refine ⟨{ q with
      head := ys.headD 0
      total := q.total - BitVec.ofNat 64 half
      link := setPrev link' (ys.headD 0) 0 }, ?_, rfl, ?_, ?_, ?_⟩
    · simp only [if_neg hzero]
      rw [h.head, ← hmlen, htake]
      simp only [Option.bind_eq_bind, Option.bind_some, if_neg hhead0]
    · refine h.cutFront rfl rfl ?_ ?_ ?_ ?_ ?_
      · show q.tail = ys.getLastD 0
        rw [h.tail, Linked.getLastD_append_of_ne_nil _ hne]
      · show q.total - BitVec.ofNat 64 half = BitVec.ofNat 64 ys.length
        rw [h.total, List.length_append, hmlen]
        exact ofNat_length_sub
      · intro y hy
        rw [prev_setPrev (h.ne_zero (List.mem_append_right m hy)), hlink' y, if_neg (hnotm y hy)]
      · intro y hy
        rw [next_setPrev, hlink' y, if_neg (hnotm y hy)]
      · intro y hy
        rw [queue_setPrev, hlink' y, if_neg (hnotm y hy)]
    · intro y hy
      rw [queue_setPrev, hlink' y, if_pos hy]
    · intro y hym hyys
      show setPrev link' (ys.headD 0) 0 y = q.link y
      rw [setPrev_of_ne (ne_headD_or hyys), hlink' y, if_neg hym]

/-! ## A member that comes -/

/-- **`push_tail`** of an object that is not in the queue. -/
theorem Holds.pushTail (h : q.Holds l) (hx : x ∉ l) (hx0 : x ≠ 0) :
    (q.pushTail x).Holds (l ++ [x]) ∧
      ∀ y, y ∉ l → y ≠ x → (q.pushTail x).link y = q.link y := by
  have hnodup : (l ++ [x]).Nodup := by
    rw [List.nodup_append']
    exact ⟨h.nodup, List.nodup_singleton x, List.disjoint_singleton.mpr hx⟩
  have hnull : 0 ∉ l ++ [x] := by
    rw [List.mem_append, List.mem_singleton, not_or]
    exact ⟨h.null, hx0.symm⟩
  have htail : x ≠ q.tail := by
    rw [h.tail]
    rcases ne_getLastD_or hx with hne | hzero
    · exact hne
    · rw [hzero]
      exact hx0
  refine ⟨⟨?_, ?_, ?_, hnodup, hnull, ?_, ?_⟩, ?_⟩
  · show (if q.head = 0 then x else q.head) = (l ++ [x]).headD 0
    cases l with
    | nil => exact if_pos h.head
    | cons a l => rw [if_neg (mt h.head_eq_zero.mp (List.cons_ne_nil a l)), h.head]; rfl
  · show x = (l ++ [x]).getLastD 0
    simp
  · -- the old links are right inside the list, and `next` of the new object is null
    have hl : Linked.Seg (links (setNext q.link x 0)) 0 l 0 := by
      refine Linked.seg_congr ?_ h.seg
      intro y hy
      have hyx : y ≠ x := by
        rintro rfl
        exact hx hy
      rw [links, links, setNext_of_ne (Or.inl hyx)]
    have hxseg : Linked.Seg (links (setNext q.link x 0)) (q.link x).prev [x] 0 := by
      refine ⟨?_, trivial⟩
      rw [links, prev_setNext, next_setNext hx0, if_pos rfl]
      rfl
    refine Linked.seg_congr ?_ (Linked.seg_join hnodup hnull hl hxseg)
    intro y hy
    have hy0 : y ≠ 0 := by
      rintro rfl
      exact hnull hy
    simp only [links, Linked.join, Option.map_some, DoubleQueue.pushTail, prev_setNext,
      prev_setQueue, prev_setPrev hy0, next_setNext hy0, next_setQueue, next_setPrev,
      List.headD_cons, ← h.tail]
    by_cases hyx : y = x
    · subst hyx
      simp only [if_true, if_neg htail]
    · simp only [if_neg hyx]
  · show q.total + 1 = BitVec.ofNat 64 (l ++ [x]).length
    rw [h.total, List.length_append, BitVec.ofNat_add]
    rfl
  · intro y hy
    simp only [DoubleQueue.pushTail, queue_setNext, queue_setQueue, queue_setPrev]
    by_cases hyx : y = x
    · rw [if_pos hyx]
    · rw [if_neg hyx]
      refine h.queue y ?_
      rcases List.mem_append.mp hy with hy | hy
      · exact hy
      · exact absurd (List.mem_singleton.mp hy) hyx
  · intro y hyl hyx
    simp only [DoubleQueue.pushTail]
    rw [setNext_of_ne (Or.inl hyx), setQueue_of_ne hyx, setNext_of_ne ?_, setPrev_of_ne (Or.inl hyx)]
    rw [h.tail]
    exact ne_getLastD_or hyl

end DoubleQueue

end Meld
