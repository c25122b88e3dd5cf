import Mathlib.Data.Finset.Sort
import Meld.Lib.Shares
import Meld.Thread.IdsUnique

/-!
# The initial nodes of a thread

The initial nodes are divided among the threads by their identifiers.  Each thread gets the same
number of them, rounded up, so that the last threads may get few or none.  A thread is named by a
`process_id`, which has 16 bits, and so is the one behind it, where its nodes end.

A `size_t` is a number below `2 ^ 64`.

* `MachineNodes`, `setupThreads`: the division, with `findFirstNode`, `findLastNode`,
  `findOwnedNodes`.
* `Divides`: what it is meant to be.
* `setupThreads_divides`: it is that for as many threads as a `process_id` can count.
* `mapNodes`, `getNodeIterator`: the map of the database.
-/

namespace Meld

/-- `machine`, as far as the division of the nodes reads it. -/
structure MachineNodes where
  staticMaxId : ℕ
  nodesPerThread : ℕ

/-- A conversion to `process_id`. -/
def processId (n : ℕ) : ℕ := n % 2 ^ 16

namespace MachineNodes

/-- `total_nodes`. -/
def totalNodes (staticMaxId : ℕ) : ℕ := (staticMaxId + 1) % 2 ^ 64

/-- `setup_threads`. -/
def setupThreads (staticMaxId numThreads : ℕ) : MachineNodes :=
  let n := totalNodes staticMaxId / numThreads
  ⟨staticMaxId, if n * numThreads % 2 ^ 64 < totalNodes staticMaxId then n + 1 else n⟩

/-- `setup_threads`, with the nodes that the database was made with. -/
def ofDatabase (db : NodeDatabase) (numThreads : ℕ) : MachineNodes :=
  setupThreads db.maxNodeId.toNat numThreads

/-- `find_first_node`. -/
def findFirstNode (M : MachineNodes) (id : ℕ) : ℕ :=
  min (totalNodes M.staticMaxId) (processId id * M.nodesPerThread % 2 ^ 64)

/-- `find_last_node`. -/
def findLastNode (M : MachineNodes) (id : ℕ) : ℕ := M.findFirstNode (processId id + 1)

/-- `find_owned_nodes`. -/
def findOwnedNodes (M : MachineNodes) (id : ℕ) : ℕ :=
  (M.findLastNode id + 2 ^ 64 - M.findFirstNode id) % 2 ^ 64

/-- The first `N` nodes are divided among the threads below `T`, in the order of both. -/
structure Divides (M : MachineNodes) (N T : ℕ) : Prop where
  le : ∀ i < T, M.findFirstNode i ≤ M.findLastNode i
  ordered : ∀ i j, i < j → j < T → M.findLastNode i ≤ M.findFirstNode j
  last_le : ∀ i < T, M.findLastNode i ≤ N
  covered : ∀ n < N, ∃! i, i < T ∧ M.findFirstNode i ≤ n ∧ n < M.findLastNode i
  sum_owned : ∑ i ∈ Finset.range T, M.findOwnedNodes i = N

variable {staticMaxId N T i : ℕ}

/-- The quota of a thread is the quotient, rounded up. -/
theorem setupThreads_quota (hN : totalNodes staticMaxId = N) (hT : 0 < T) :
    N ≤ T * (setupThreads staticMaxId T).nodesPerThread ∧
      T * (setupThreads staticMaxId T).nodesPerThread < N + T := by
  have hlt : N < 2 ^ 64 := hN ▸ Nat.mod_lt _ (by decide)
  have hdiv := Nat.div_add_mod N T
  have hrest := Nat.mod_lt N hT
  have hword : N / T * T % 2 ^ 64 = T * (N / T) := by
    rw [Nat.mul_comm]
    exact Nat.mod_eq_of_lt (by omega)
  simp only [setupThreads, hN, hword]
  split
  · rw [Nat.mul_add, Nat.mul_one]
    omega
  · omega

theorem findFirstNode_eq (hN : totalNodes staticMaxId = N) (hlt : N < 2 ^ 63) (hT : 0 < T)
    (hTlt : T < 2 ^ 16) (hi : i ≤ T) :
    (setupThreads staticMaxId T).findFirstNode i =
      Shares.cut N (setupThreads staticMaxId T).nodesPerThread i := by
  obtain ⟨-, hquota⟩ := setupThreads_quota hN hT
  have hmul := Nat.mul_le_mul_right (setupThreads staticMaxId T).nodesPerThread hi
  rw [findFirstNode, processId, Nat.mod_eq_of_lt (hi.trans_lt hTlt), Nat.mod_eq_of_lt (by omega)]
  exact congrArg (min · _) hN

theorem findLastNode_eq (hN : totalNodes staticMaxId = N) (hlt : N < 2 ^ 63) (hT : 0 < T)
    (hTlt : T < 2 ^ 16) (hi : i < T) :
    (setupThreads staticMaxId T).findLastNode i =
      Shares.cut N (setupThreads staticMaxId T).nodesPerThread (i + 1) := by
  rw [findLastNode, processId, Nat.mod_eq_of_lt (hi.trans hTlt),
    findFirstNode_eq hN hlt hT hTlt hi]

theorem findOwnedNodes_eq (hN : totalNodes staticMaxId = N) (hlt : N < 2 ^ 63) (hT : 0 < T)
    (hTlt : T < 2 ^ 16) (hi : i < T) :
    (setupThreads staticMaxId T).findOwnedNodes i =
      (setupThreads staticMaxId T).findLastNode i -
        (setupThreads staticMaxId T).findFirstNode i := by
  have hfirst := findFirstNode_eq hN hlt hT hTlt hi.le
  have hlast := findLastNode_eq hN hlt hT hTlt hi
  have hle := Shares.cut_mono N (setupThreads staticMaxId T).nodesPerThread (Nat.le_succ i)
  have hmax := Shares.cut_le N (setupThreads staticMaxId T).nodesPerThread (i + 1)
  rw [Nat.succ_eq_add_one, ← hfirst, ← hlast] at hle
  rw [← hlast] at hmax
  rw [findOwnedNodes, Nat.sub_add_comm hle, Nat.add_mod_right]
  exact Nat.mod_eq_of_lt (by omega)

/-- **The division of the nodes.** -/
theorem setupThreads_divides (hN : totalNodes staticMaxId = N) (hlt : N < 2 ^ 63) (hT : 0 < T)
    (hTlt : T < 2 ^ 16) : (setupThreads staticMaxId T).Divides N T := by
  obtain ⟨hall, -⟩ := setupThreads_quota hN hT
  have hfirst : ∀ i < T, (setupThreads staticMaxId T).findFirstNode i = _ := fun i hi =>
    findFirstNode_eq hN hlt hT hTlt hi.le
  have hlast : ∀ i < T, (setupThreads staticMaxId T).findLastNode i = _ := fun i hi =>
    findLastNode_eq hN hlt hT hTlt hi
  refine ⟨fun i hi => ?_, fun i j hij hj => ?_, fun i hi => ?_, fun n hn => ?_, ?_⟩
  · rw [hfirst i hi, hlast i hi]
    exact Shares.cut_mono N _ (Nat.le_succ i)
  · rw [hlast i (hij.trans hj), hfirst j hj]
    exact Shares.cut_mono N _ hij
  · rw [hlast i hi]
    exact Shares.cut_le N _ _
  · obtain ⟨i, hi, hin⟩ := Shares.exists_cut hall hn
    refine ⟨i, ⟨hi, ?_⟩, fun j hj => ?_⟩
    · rwa [hfirst i hi, hlast i hi]
    · obtain ⟨hj, hjn⟩ := hj
      rw [hfirst j hj, hlast j hj] at hjn
      exact Shares.cut_unique hjn hin
  · refine Eq.trans (Finset.sum_congr rfl fun i hi => ?_) (Shares.sum_cut hall)
    have hi := Finset.mem_range.1 hi
    rw [findOwnedNodes_eq hN hlt hT hTlt hi, hfirst i hi, hlast i hi]

/-- **As many threads as there are identifiers**: the node behind the last ones of the last thread
is looked for with the number of the first thread. -/
theorem not_divides_allIds : ¬ (setupThreads 0 (2 ^ 16)).Divides 1 (2 ^ 16) := by
  intro h
  have hle := h.le (2 ^ 16 - 1) (by decide)
  exact absurd hle (by decide)

end MachineNodes

/-! ## The map of nodes -/

/-- The identifiers in the map of the database, in its order. -/
def mapNodes (pairs : List (BitVec 64 × BitVec 64)) : List ℕ :=
  (pairs.map fun p => p.1.toNat).toFinset.sort (· ≤ ·)

/-- `get_node_iterator`: the nodes from a given one on, or none if there is no such node. -/
def getNodeIterator (nodes : List ℕ) (id : ℕ) : List ℕ := nodes.dropWhile (· ≠ id)

section MapNodes

open IdsState

variable {pairs : List (BitVec 64 × BitVec 64)}

/-- The initial nodes of a program: the identifiers that were read are the numbers below `N`. -/
def Numbered (pairs : List (BitVec 64 × BitVec 64)) : Prop :=
  (pairs.map fun p => p.1.toNat).Perm (List.range pairs.length)

theorem Numbered.mapNodes_eq (h : Numbered pairs) : mapNodes pairs = List.range pairs.length := by
  have hset : (List.range pairs.length).toFinset = Finset.range pairs.length := by
    ext n
    rw [List.mem_toFinset, List.mem_range, Finset.mem_range]
  rw [mapNodes, List.toFinset_eq_of_perm _ _ h, hset, Finset.sort_range]

theorem dropWhile_range' (k : ℕ) : ∀ N s : ℕ,
    (List.range' s N).dropWhile (· ≠ s + k) = (List.range' s N).drop k := by
  induction k with
  | zero =>
    intro N s
    cases N with
    | zero => rfl
    | succ N => simp [List.range'_succ]
  | succ k ih =>
    intro N s
    cases N with
    | zero => rfl
    | succ N =>
      rw [List.range'_succ, List.drop_succ_cons, ← ih N (s + 1), Nat.add_right_comm s 1 k]
      exact List.dropWhile_cons_of_pos (by simp)

theorem getNodeIterator_range (N id : ℕ) :
    getNodeIterator (List.range N) id = (List.range N).drop id := by
  have h := dropWhile_range' id N 0
  rwa [Nat.zero_add, ← List.range_eq_range'] at h

/-- The limit behind the identifiers that were read. -/
theorem limit_foldl_le_iff (k : ℕ) (l : List (BitVec 64 × BitVec 64)) (db : NodeDatabase)
    (hl : ∀ p ∈ l, p.1 ≠ -1) :
    limit (l.foldl (fun db p => db.readNode p.1 p.2) db).maxNodeId ≤ k ↔
      limit db.maxNodeId ≤ k ∧ ∀ p ∈ l, p.1.toNat < k := by
  induction l generalizing db with
  | nil => simp
  | cons p l ih =>
    rw [List.foldl_cons, ih _ fun q hq => hl q (List.mem_cons_of_mem p hq)]
    show limit (raiseMax db.maxNodeId p.1) ≤ k ∧ _ ↔ _
    rw [limit_raiseMax (hl p List.mem_cons_self), Nat.max_le, List.forall_mem_cons, and_assoc]
    exact Iff.rfl

/-- The number of initial nodes. -/
theorem Numbered.totalNodes_eq (h : Numbered pairs) (hlt : pairs.length < 2 ^ 63) :
    MachineNodes.totalNodes (NodeDatabase.read pairs).maxNodeId.toNat = pairs.length := by
  have hmem : ∀ k, (∀ p ∈ pairs, p.1.toNat < k) ↔ pairs.length ≤ k := by
    intro k
    have hperm : (∀ n ∈ pairs.map fun p => p.1.toNat, n < k) ↔
        ∀ n ∈ List.range pairs.length, n < k :=
      forall_congr' fun n => by rw [h.mem_iff]
    rw [List.forall_mem_map] at hperm
    rw [hperm]
    constructor
    · intro hall
      by_contra hlt
      exact absurd (hall k (List.mem_range.2 (by omega))) (lt_irrefl k)
    · exact fun hle n hn => (List.mem_range.1 hn).trans_le hle
  have hne : ∀ p ∈ pairs, p.1 ≠ -1 := by
    intro p hp heq
    have hsmall := (hmem pairs.length).2 le_rfl p hp
    rw [heq, show (-1 : BitVec 64).toNat = 2 ^ 64 - 1 from rfl] at hsmall
    omega
  have hlimit : limit (NodeDatabase.read pairs).maxNodeId = pairs.length :=
    eq_of_forall_ge_iff fun k => by
      rw [NodeDatabase.read, limit_foldl_le_iff k pairs _ hne, hmem]
      exact and_iff_right (Nat.zero_le k)
  rw [← hlimit, MachineNodes.totalNodes, limit, BitVec.toNat_add]
  rfl

end MapNodes

end Meld
