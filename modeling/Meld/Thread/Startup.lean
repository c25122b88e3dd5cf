import Meld.Queue.SharedHeaps
import Meld.Thread.CoordLife
import Meld.Thread.NodeRanges

/-!
# The first heaps

In `thread::init` every thread sets up the initial nodes that are its own and, if the program begins
with a priority, puts them into the heap of its moving nodes.  The array of the heap first gets as
many places as `find_owned_nodes` says, all of them null, and is then filled in the order of the map
of nodes.  The nodes are counted in one way and walked over in another: a node too many would be
written behind the array, and one too few would leave a null pointer in the heap.

The threads do this at the same time, up to the barrier that follows.  A step is one round of the
loop.  A write outside of the array, an iterator that is moved past the end and an assertion that
fails are `none`.

* `InitState`, `step`, `Reach`: the threads before the barrier.
* `OwnHeap`: the heap of a thread is what it should be.
* `ThreadOk`: the invariant of a thread, whatever the others do.
* `startup_heaps`: the heaps of all threads.
-/

namespace Meld
namespace Startup

/-- Where a thread is in `thread::init`: before the loop, in it with an iterator and the counter, or
at the barrier. -/
inductive InitPc where
  | entry
  | loop (it : List ℕ) (i : ℕ)
  | synchronize

/-- A thread, with the array of `prios.moving`, which may have null pointers. -/
structure InitThread where
  pc : InitPc
  heap : List (Option ℕ)

/-- All threads, and the fields of the nodes. -/
structure InitState (π : Type) where
  obj : ℕ → Intrusive π
  owner : ℕ → Option ℕ
  thread : ℕ → InitThread

variable {π : Type}

/-- `start_initial_insert`. -/
def startInitialInsert (heap : List (Option ℕ)) (many : ℕ) : List (Option ℕ) :=
  if many = 0 then heap else heap.take many ++ List.replicate (many - heap.length) none

/-- `initial_fast_insert`. -/
def initialFastInsert (heap : List (Option ℕ)) (obj : ℕ → Intrusive π) (node : ℕ) (prio : π)
    (i : ℕ) : Option (List (Option ℕ) × (ℕ → Intrusive π)) :=
  if (obj node).queue = .priorityMoving then none
  else if i < heap.length then
    some (heap.set i (some node), Function.update obj node ⟨prio, i, .priorityMoving⟩)
  else none

namespace InitState

/-- Write a thread. -/
def setThread (s : InitState π) (t : ℕ) (r : InitThread) : InitState π :=
  { s with thread := Function.update s.thread t r }

/-- `init_node`: the node is constructed and gets its owner. -/
def initNode (s : InitState π) (t n : ℕ) : InitState π :=
  { s with
    obj := Function.update s.obj n { s.obj n with queue := .idle }
    owner := Function.update s.owner n (some t) }

/-- The heap of a thread, without its null pointers. -/
def heap (s : InitState π) (typ : HeapType) (t : ℕ) : Pqueue ℕ π :=
  ⟨.priorityMoving, typ, (s.thread t).heap.filterMap id, s.obj⟩

end InitState

section Steps

variable (M : MachineNodes) (nodes : List ℕ) (initial : π)

/-- A step of `thread::init`. -/
def step (s : InitState π) (t : ℕ) : Option (InitState π) :=
  match (s.thread t).pc with
  | .entry =>
    some (s.setThread t
      ⟨.loop (getNodeIterator nodes (M.findFirstNode t)) 0,
        startInitialInsert (s.thread t).heap (M.findOwnedNodes t)⟩)
  | .loop it i =>
    if it = getNodeIterator nodes (M.findLastNode t) then
      some (s.setThread t { s.thread t with pc := .synchronize })
    else
      match it with
      | [] => none
      | n :: rest =>
        let s := s.initNode t n
        (initialFastInsert (s.thread t).heap s.obj n initial i).map fun r =>
          { s with obj := r.2 }.setThread t ⟨.loop rest (i + 1), r.1⟩
  | .synchronize => none

/-- The states that the threads below `T` come to. -/
inductive Reach (T : ℕ) : InitState π → Prop where
  | init {s : InitState π} (hthread : ∀ t, s.thread t = ⟨.entry, []⟩) : Reach T s
  | step {s s' : InitState π} {t : ℕ} (h : Reach T s) (ht : t < T)
      (hstep : step M nodes initial s t = some s') : Reach T s'

end Steps

/-- **The heap of a thread**: there is no null pointer in it, it has the nodes of the thread, with
the priority of the program, and it is a heap. -/
structure OwnHeap [LE π] (M : MachineNodes) (typ : HeapType) (initial : π) (s : InitState π)
    (t : ℕ) : Prop where
  filled : none ∉ (s.thread t).heap
  members : ∀ n, some n ∈ (s.thread t).heap ↔ M.findFirstNode t ≤ n ∧ n < M.findLastNode t
  owner : ∀ n, some n ∈ (s.thread t).heap → s.owner n = some t
  priority : ∀ n, some n ∈ (s.thread t).heap → (s.obj n).priority = initial
  shaped : (s.heap typ t).Shaped

/-! ## The invariant -/

section Invariant

variable {M : MachineNodes} {initial : π} {N T t u i : ℕ} {s s' : InitState π}

/-- The first `i` places of the array of a thread have its first `i` nodes, and the other ones are
null. -/
structure Filled (M : MachineNodes) (initial : π) (s : InitState π) (t i : ℕ) : Prop where
  le : M.findFirstNode t + i ≤ M.findLastNode t
  heap : (s.thread t).heap = (List.range' (M.findFirstNode t) i).map some ++
    List.replicate (M.findLastNode t - (M.findFirstNode t + i)) none
  obj : ∀ k < i, s.obj (M.findFirstNode t + k) = ⟨initial, k, .priorityMoving⟩
  owner : ∀ k < i, s.owner (M.findFirstNode t + k) = some t

/-- **The invariant of a thread.** -/
def ThreadOk (M : MachineNodes) (N : ℕ) (initial : π) (s : InitState π) (t : ℕ) : Prop :=
  match (s.thread t).pc with
  | .entry => (s.thread t).heap = []
  | .loop it i => it = (List.range N).drop (M.findFirstNode t + i) ∧ Filled M initial s t i
  | .synchronize => Filled M initial s t (M.findLastNode t - M.findFirstNode t)

/-- A step of another thread. -/
theorem Filled.frame (h : Filled M initial s t i) (hthread : s'.thread t = s.thread t)
    (hobj : ∀ n, M.findFirstNode t ≤ n → n < M.findLastNode t →
      s'.obj n = s.obj n ∧ s'.owner n = s.owner n) : Filled M initial s' t i := by
  have hin : ∀ k < i, s'.obj (M.findFirstNode t + k) = s.obj (M.findFirstNode t + k) ∧
      s'.owner (M.findFirstNode t + k) = s.owner (M.findFirstNode t + k) := by
    intro k hk
    have := h.le
    exact hobj _ (by omega) (by omega)
  refine ⟨h.le, ?_, fun k hk => (hin k hk).1.trans (h.obj k hk),
    fun k hk => (hin k hk).2.trans (h.owner k hk)⟩
  rw [hthread]
  exact h.heap

theorem ThreadOk.frame (h : ThreadOk M N initial s t) (hthread : s'.thread t = s.thread t)
    (hobj : ∀ n, M.findFirstNode t ≤ n → n < M.findLastNode t →
      s'.obj n = s.obj n ∧ s'.owner n = s.owner n) : ThreadOk M N initial s' t := by
  rw [ThreadOk] at h ⊢
  rw [hthread]
  cases hpc : (s.thread t).pc with
  | entry => rwa [hpc] at h
  | loop it i =>
    rw [hpc] at h
    exact ⟨h.1, h.2.frame hthread hobj⟩
  | synchronize =>
    rw [hpc] at h
    exact Filled.frame h hthread hobj

/-- The empty array after `start_initial_insert`. -/
theorem startInitialInsert_nil (many : ℕ) :
    startInitialInsert [] many = List.replicate many none := by
  rw [startInitialInsert]
  split
  · rename_i hzero
    rw [hzero, List.replicate_zero]
  · rw [List.take_nil, List.nil_append, List.length_nil, Nat.sub_zero]

/-- The next place of the array. -/
theorem set_filled (f : ℕ) {i l : ℕ} (hl : 0 < l) :
    ((List.range' f i).map some ++ List.replicate l none).set i (some (f + i)) =
      (List.range' f (i + 1)).map some ++ List.replicate (l - 1) none := by
  obtain ⟨l, rfl⟩ : ∃ k, l = k + 1 := ⟨l - 1, by omega⟩
  rw [List.set_append_right _ _ (by simp), List.length_map, List.length_range', Nat.sub_self,
    List.replicate_succ, List.set_cons_zero, List.range'_1_concat, List.map_append,
    List.append_assoc]
  rfl

theorem initialFastInsert_of_lt {heap : List (Option ℕ)} {obj : ℕ → Intrusive π} {node : ℕ}
    (hqueue : (obj node).queue = .idle) (hi : i < heap.length) (prio : π) :
    initialFastInsert heap obj node prio i =
      some (heap.set i (some node), Function.update obj node ⟨prio, i, .priorityMoving⟩) := by
  rw [initialFastInsert, if_neg (by rw [hqueue]; decide), if_pos hi]

/-- What a step of the thread `t` leaves alone. -/
structure Frame (M : MachineNodes) (t : ℕ) (s s' : InitState π) : Prop where
  thread : ∀ u ≠ t, s'.thread u = s.thread u
  node : ∀ n, ¬ (M.findFirstNode t ≤ n ∧ n < M.findLastNode t) →
    s'.obj n = s.obj n ∧ s'.owner n = s.owner n

/-- A round of the loop. -/
theorem Filled.insert (h : Filled M initial s t i)
    (hlt : M.findFirstNode t + i < M.findLastNode t) (pc : InitPc) :
    ∃ r, initialFastInsert (s.thread t).heap (s.initNode t (M.findFirstNode t + i)).obj
        (M.findFirstNode t + i) initial i = some r ∧
      Filled M initial ({ s.initNode t (M.findFirstNode t + i) with obj := r.2 }.setThread t
        ⟨pc, r.1⟩) t (i + 1) ∧
      Frame M t s ({ s.initNode t (M.findFirstNode t + i) with obj := r.2 }.setThread t
        ⟨pc, r.1⟩) := by
  obtain ⟨n, hn⟩ : ∃ n, n = M.findFirstNode t + i := ⟨_, rfl⟩
  have hidle : ((s.initNode t n).obj n).queue = .idle := by
    show (Function.update s.obj n _ n).queue = _
    rw [Function.update_self]
  have hlen : i < (s.thread t).heap.length := by
    rw [h.heap, List.length_append, List.length_map, List.length_range', List.length_replicate]
    omega
  have hobj : ∀ x, x ≠ n → Function.update (s.initNode t n).obj n ⟨initial, i, .priorityMoving⟩ x =
      s.obj x := fun x hx => by
    rw [Function.update_of_ne hx]
    exact Function.update_of_ne hx ..
  have howner : ∀ x, x ≠ n → (s.initNode t n).owner x = s.owner x := fun x hx =>
    Function.update_of_ne hx ..
  rw [← hn]
  refine ⟨_, initialFastInsert_of_lt hidle hlen initial, ⟨by omega, ?_, ?_, ?_⟩,
    fun u hu => Function.update_of_ne hu .., fun x hx => ?_⟩
  · have hset := set_filled (M.findFirstNode t) (i := i)
      (l := M.findLastNode t - (M.findFirstNode t + i)) (by omega)
    have hrest : M.findLastNode t - n - 1 = M.findLastNode t - (M.findFirstNode t + (i + 1)) := by
      omega
    rw [← h.heap, ← hn, hrest] at hset
    show (Function.update s.thread t _ t).heap = _
    rw [Function.update_self, ← hset]
  · intro k hk
    rcases Nat.lt_succ_iff_lt_or_eq.1 hk with hk | rfl
    · exact (hobj _ (by omega)).trans (h.obj k hk)
    · rw [← hn]
      exact Function.update_self ..
  · intro k hk
    rcases Nat.lt_succ_iff_lt_or_eq.1 hk with hk | rfl
    · exact (howner _ (by omega)).trans (h.owner k hk)
    · rw [← hn]
      exact Function.update_self ..
  · have hne : x ≠ n := by
      rintro rfl
      exact hx ⟨by omega, by omega⟩
    exact ⟨hobj x hne, howner x hne⟩

/-- How many steps a thread has to do. -/
def rank (M : MachineNodes) (s : InitState π) (t : ℕ) : ℕ :=
  match (s.thread t).pc with
  | .entry => M.findLastNode t - M.findFirstNode t + 2
  | .loop _ i => M.findLastNode t - (M.findFirstNode t + i) + 1
  | .synchronize => 0

/-- **A step of a thread.** -/
theorem step_spec (hD : M.Divides N T)
    (howned : ∀ t < T, M.findOwnedNodes t = M.findLastNode t - M.findFirstNode t) (ht : t < T)
    (h : ThreadOk M N initial s t) (hpc : (s.thread t).pc ≠ .synchronize) :
    ∃ s', step M (List.range N) initial s t = some s' ∧ ThreadOk M N initial s' t ∧
      Frame M t s s' ∧ rank M s' t < rank M s t := by
  have hle := hD.le t ht
  have hlast := hD.last_le t ht
  rw [ThreadOk] at h
  simp only [step, rank]
  cases hcase : (s.thread t).pc with
  | entry =>
    rw [hcase] at h
    refine ⟨_, rfl, ?_, ⟨fun u hu => Function.update_of_ne hu .., fun n _ => ⟨rfl, rfl⟩⟩, ?_⟩
    · rw [ThreadOk, InitState.setThread]
      simp only [Function.update_self]
      refine ⟨getNodeIterator_range N _, hle, ?_, nofun, nofun⟩
      show (Function.update s.thread t _ t).heap = _
      rw [Function.update_self, h, startInitialInsert_nil, howned t ht]
      rfl
    · simp only [InitState.setThread, Function.update_self]
      omega
  | loop it i =>
    rw [hcase] at h
    obtain ⟨rfl, hfilled⟩ := h
    have hi := hfilled.le
    simp only [getNodeIterator_range]
    by_cases hend : M.findFirstNode t + i = M.findLastNode t
    · rw [hend, if_pos rfl]
      refine ⟨_, rfl, ?_, ⟨fun u hu => Function.update_of_ne hu .., fun n _ => ⟨rfl, rfl⟩⟩, ?_⟩
      · rw [ThreadOk, InitState.setThread]
        simp only [Function.update_self]
        have hcount : i = M.findLastNode t - M.findFirstNode t := by omega
        rw [← hcount]
        refine ⟨hi, ?_, hfilled.obj, hfilled.owner⟩
        show (Function.update s.thread t _ t).heap = _
        rw [Function.update_self]
        exact hfilled.heap
      · simp only [InitState.setThread, Function.update_self]
        exact Nat.succ_pos _
    · have hlt : M.findFirstNode t + i < N := by omega
      have hne : ¬ (List.range N).drop (M.findFirstNode t + i) =
          (List.range N).drop (M.findLastNode t) := by
        intro heq
        have hlen := congrArg List.length heq
        rw [List.length_drop, List.length_drop, List.length_range] at hlen
        omega
      rw [if_neg hne, List.drop_eq_getElem_cons (by simpa using hlt), List.getElem_range]
      obtain ⟨r, hr, hnext, hframe⟩ := hfilled.insert (by omega)
        (.loop ((List.range N).drop (M.findFirstNode t + i + 1)) (i + 1))
      refine ⟨{ s.initNode t (M.findFirstNode t + i) with obj := r.2 }.setThread t
        ⟨.loop ((List.range N).drop (M.findFirstNode t + i + 1)) (i + 1), r.1⟩,
        congrArg (Option.map _) hr, ?_, hframe, ?_⟩
      · rw [ThreadOk]
        simp only [InitState.setThread, Function.update_self]
        exact ⟨rfl, hnext⟩
      · simp only [InitState.setThread, Function.update_self]
        omega
  | synchronize => exact absurd hcase hpc

/-- **The invariant of a run.** -/
theorem reach_threadOk (hD : M.Divides N T)
    (howned : ∀ t < T, M.findOwnedNodes t = M.findLastNode t - M.findFirstNode t)
    (h : Reach M (List.range N) initial T s) : ∀ t < T, ThreadOk M N initial s t := by
  induction h with
  | init hthread =>
    intro t ht
    rw [ThreadOk, hthread t]
  | @step s s' t h ht hstep ih =>
    have hpc : (s.thread t).pc ≠ .synchronize := by
      intro hpc
      rw [step, hpc] at hstep
      exact absurd hstep nofun
    obtain ⟨r, hr, hok, hframe, -⟩ := step_spec hD howned ht (ih t ht) hpc
    obtain rfl := Option.some.inj (hr.symm.trans hstep)
    intro u hu
    by_cases hut : u = t
    · exact hut ▸ hok
    · refine (ih u hu).frame (hframe.thread u hut) fun n hle hlt => hframe.node n fun hn => hut ?_
      obtain ⟨_, -, huniq⟩ := hD.covered n (hlt.trans_le (hD.last_le u hu))
      exact (huniq u ⟨hu, hle, hlt⟩).trans (huniq t ⟨ht, hn⟩).symm

/-- The array of a thread at the barrier. -/
theorem Filled.heap_eq (h : Filled M initial s t (M.findLastNode t - M.findFirstNode t)) :
    (s.thread t).heap =
      (List.range' (M.findFirstNode t) (M.findLastNode t - M.findFirstNode t)).map some := by
  have hle := h.le
  have hzero :
      M.findLastNode t - (M.findFirstNode t + (M.findLastNode t - M.findFirstNode t)) = 0 := by
    omega
  rw [h.heap, hzero, List.replicate_zero, List.append_nil]

theorem Filled.ownHeap [Preorder π]
    (h : Filled M initial s t (M.findLastNode t - M.findFirstNode t)) (typ : HeapType) :
    OwnHeap M typ initial s t := by
  obtain ⟨l, hl⟩ : ∃ l, l = M.findLastNode t - M.findFirstNode t := ⟨_, rfl⟩
  have hheap := h.heap_eq
  have hle := h.le
  rw [← hl] at h hheap hle
  have hmem : ∀ n, some n ∈ (s.thread t).heap ↔ ∃ k < l, M.findFirstNode t + k = n := by
    intro n
    rw [hheap, List.mem_map]
    simp only [Option.some.injEq, exists_eq_right, List.mem_range'_1]
    constructor
    · exact fun hn => ⟨n - M.findFirstNode t, by omega, by omega⟩
    · rintro ⟨k, hk, rfl⟩
      omega
  have hlist : (s.heap typ t).heap = List.range' (M.findFirstNode t) l := by
    show (s.thread t).heap.filterMap id = _
    rw [hheap, List.filterMap_map]
    exact List.filterMap_some
  have hplace : ∀ i x, (s.heap typ t).heap[i]? = some x → i < l ∧ x = M.findFirstNode t + i := by
    intro i x hx
    rw [hlist] at hx
    obtain ⟨hi, rfl⟩ := List.getElem?_eq_some_iff.1 hx
    rw [List.length_range'] at hi
    exact ⟨hi, by rw [List.getElem_range', Nat.one_mul]⟩
  refine ⟨?_, fun n => ?_, fun n hn => ?_, fun n hn => ?_, ⟨fun i hi0 hi => ?_, fun i x hx => ?_,
    fun x hx => ?_⟩⟩
  · rw [hheap, List.mem_map]
    exact fun ⟨_, _, hn⟩ => nomatch hn
  · rw [hmem]
    constructor
    · rintro ⟨k, hk, rfl⟩
      omega
    · exact fun hn => ⟨n - M.findFirstNode t, by omega, by omega⟩
  · obtain ⟨k, hk, rfl⟩ := (hmem n).1 hn
    exact h.owner k hk
  · obtain ⟨k, hk, rfl⟩ := (hmem n).1 hn
    rw [h.obj k hk]
  · -- all keys are the same
    have hkey : ∀ j, j ≤ i → (s.heap typ t).keys j = some initial := by
      intro j hj
      have hx := List.getElem?_eq_getElem (lt_of_le_of_lt hj hi)
      obtain ⟨hjl, hjx⟩ := hplace j _ hx
      rw [Pqueue.keys_of_getElem hx, hjx]
      exact congrArg (fun o => some (Intrusive.priority o)) (h.obj j hjl)
    rw [hkey i le_rfl, hkey _ (HeapOrder.parent_lt hi0).le]
    cases typ with
    | asc => exact le_refl initial
    | desc => exact le_refl initial
  · obtain ⟨hil, rfl⟩ := hplace i x hx
    exact congrArg Intrusive.pos (h.obj i hil)
  · obtain ⟨i, hi⟩ := List.mem_iff_getElem?.1 hx
    obtain ⟨hil, rfl⟩ := hplace i x hi
    exact congrArg Intrusive.queue (h.obj i hil)

end Invariant

/-- **Starting up**: the initial nodes are divided among the threads.  Whatever the order of their
steps, none of them gets stuck before the barrier, each step brings its thread closer to it, and
there the heap of a thread is what it should be. -/
theorem startup_heaps {π : Type} [Preorder π] {pairs : List (BitVec 64 × BitVec 64)} {T : ℕ}
    (hnum : Numbered pairs) (hN : pairs.length < 2 ^ 63) (hT : 0 < T) (hTlt : T < 2 ^ 16)
    (typ : HeapType) (initial : π) :
    (MachineNodes.ofDatabase (NodeDatabase.read pairs) T).Divides pairs.length T ∧
      ∀ s, Reach (MachineNodes.ofDatabase (NodeDatabase.read pairs) T) (mapNodes pairs) initial T
          s → ∀ t < T,
        ((s.thread t).pc ≠ .synchronize →
          ∃ s', step (MachineNodes.ofDatabase (NodeDatabase.read pairs) T) (mapNodes pairs) initial
              s t = some s' ∧
            rank (MachineNodes.ofDatabase (NodeDatabase.read pairs) T) s' t <
              rank (MachineNodes.ofDatabase (NodeDatabase.read pairs) T) s t) ∧
        ((s.thread t).pc = .synchronize →
          OwnHeap (MachineNodes.ofDatabase (NodeDatabase.read pairs) T) typ initial s t) := by
  have htotal := hnum.totalNodes_eq hN
  have hD := MachineNodes.setupThreads_divides htotal hN hT hTlt
  have howned := fun t (ht : t < T) =>
    MachineNodes.findOwnedNodes_eq htotal hN hT hTlt ht
  rw [hnum.mapNodes_eq]
  refine ⟨hD, fun s hs t ht => ⟨fun hpc => ?_, fun hpc => ?_⟩⟩
  · obtain ⟨s', hs', -, -, hrank⟩ :=
      step_spec hD howned ht (reach_threadOk hD howned hs t ht) hpc
    exact ⟨s', hs', hrank⟩
  · have hok := reach_threadOk hD howned hs t ht
    rw [ThreadOk, hpc] at hok
    exact hok.ownHeap typ

/-- Three nodes, whose identifiers come in another order, for two threads. -/
theorem startup_heaps_three :
    (MachineNodes.ofDatabase (NodeDatabase.read [(1, 5), (0, 6), (2, 7)]) 2).Divides 3 2 :=
  (@startup_heaps ℕ _ [(1, 5), (0, 6), (2, 7)] 2
    (show ([1, 0, 2] : List ℕ).Perm [0, 1, 2] from List.Perm.swap 0 1 [2]) (by decide) (by decide)
    (by decide) .asc 0).1

/-! ## The array that grows -/

section Grown

variable {M : MachineNodes} {π : Type} {initial : π} {t : ℕ} {s : InitState π}

end Grown

end Startup
end Meld
