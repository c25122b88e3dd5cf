import Meld.Db.TrieInvariant
import Mathlib.Data.Multiset.AddSub

/-!
# The trie represents a multiset of tuples

For a predicate with at least one field, the trie behaves as a multiset: inserting adds a tuple and
says whether it was absent, deleting takes one copy out and says whether it was the last.

* `Represents`: the leaves are the distinct tuples with their multiplicities, and the size is the
  number of all copies.
* `specExec`: the operations on multisets.
* `exec_represents`: one operation keeps the trie and the multiset together and answers alike.
* `run_represents`: so does every sequence of operations.
-/

namespace Meld
namespace Trie

variable (nodeId : BitVec 64 → ℕ) {fields : List FieldType}

/-- The trie holds the tuples of `M`: the chain of leaves lists every distinct tuple once, with its
multiplicity, and `size()` counts all copies. -/
structure Represents (T : Trie) (M : Multiset Tuple) : Prop where
  nodup : (T.leaves.map TrieLeaf.tpl).Nodup
  mem_iff : ∀ tpl, tpl ∈ M ↔ ∃ l ∈ T.leaves, l.tpl = tpl
  count_eq : ∀ l ∈ T.leaves, l.count = M.count l.tpl
  size_eq : T.numberOfReferences = M.card

/-- What an operation does to a multiset of tuples, and what it answers. -/
def specExec (M : Multiset Tuple) : Op fields → Multiset Tuple × Bool
  | .insert tpl => (tpl.1 ::ₘ M, decide (tpl.1 ∉ M))
  | .delete tpl => (M.erase tpl.1, decide (M.count tpl.1 = 1))

/-- The multiset after a sequence of operations on the empty one. -/
def specRun (ops : List (Op fields)) : Multiset Tuple :=
  ops.foldl (fun M op => (specExec M op).1) 0

variable {nodeId} {T : Trie} {M : Multiset Tuple} {tpl : Tuple}

/-- The invariant of a run: the shape of the tree, and the multiset. -/
structure Inv (nodeId : BitVec 64 → ℕ) (fields : List FieldType) (T : Trie)
    (M : Multiset Tuple) : Prop where
  shape : Shape nodeId fields T.child T.leaves
  represents : Represents T M

theorem inv_empty : Inv nodeId fields empty 0 where
  shape := shape_empty
  represents := ⟨List.nodup_nil, by simp [empty], by simp [empty], rfl⟩

theorem Inv.count_pos (h : Inv nodeId fields T M) : ∀ l ∈ T.leaves, 0 < l.count := by
  intro l hl
  rw [h.represents.count_eq l hl]
  exact Multiset.count_pos.2 ((h.represents.mem_iff _).2 ⟨l, hl, rfl⟩)

/-- The chain of leaves is empty exactly when the size is zero. -/
theorem Inv.leaves_eq_nil_iff (h : Inv nodeId fields T M) :
    T.leaves = [] ↔ T.numberOfReferences = 0 := by
  rw [h.represents.size_eq, Multiset.card_eq_zero]
  constructor
  · intro hnil
    refine Multiset.eq_zero_of_forall_notMem fun t ht => ?_
    rw [h.represents.mem_iff, hnil] at ht
    simp at ht
  · rintro rfl
    refine List.eq_nil_iff_forall_not_mem.2 fun l hl => ?_
    exact Multiset.notMem_zero _ ((h.represents.mem_iff _).2 ⟨l, hl, rfl⟩)

/-- The descent for a tuple of the multiset ends at its leaf. -/
theorem Inv.descend_present (h : Inv nodeId fields T M) (hmem : tpl ∈ M) :
    ∃ l ∈ T.leaves, l.tpl = tpl ∧
      descend nodeId T.child (stackSize tpl) [] tpl = (l.node, []) := by
  obtain ⟨l, hl, rfl⟩ := (h.represents.mem_iff _).1 hmem
  refine ⟨l, hl, rfl, h.shape.descend_of_mem hl l.tpl [] ?_ _ rfl⟩
  rw [List.append_nil]
  exact (h.shape.node_eq l hl).2

/-- The leaves that a count goes to are those of the tuple. -/
theorem Inv.node_eq_iff (h : Inv nodeId fields T M) {l m : TrieLeaf} (hl : l ∈ T.leaves)
    (hm : m ∈ T.leaves) : m.node = l.node ↔ m.tpl = l.tpl := by
  constructor
  · intro hnode
    rw [h.shape.eq_of_node_eq hm hl hnode]
  · intro htpl
    rw [List.inj_on_of_nodup_map h.shape.nodup hm hl htpl]

/-- Counting one more or one less reference at the leaf of a tuple. -/
theorem Inv.updateCount (h : Inv nodeId fields T M) {l : TrieLeaf} (hl : l ∈ T.leaves)
    {f : ℕ → ℕ} {M' : Multiset Tuple} {n : ℕ} (hself : M'.count l.tpl = f (M.count l.tpl))
    (hother : ∀ t, t ≠ l.tpl → M'.count t = M.count t) (hpos : l.tpl ∈ M') (hcard : n = M'.card) :
    Inv nodeId fields
      { T with leaves := Trie.updateCount l.node f T.leaves, numberOfReferences := n } M' := by
  have hcount : ∀ t, t ∈ M' ↔ t ∈ M := by
    intro t
    by_cases ht : t = l.tpl
    · rw [ht]
      exact iff_of_true hpos ((h.represents.mem_iff _).2 ⟨l, hl, rfl⟩)
    · rw [← Multiset.count_pos, ← Multiset.count_pos, hother t ht]
  refine ⟨h.shape.updateCount _ _, ?_, ?_, ?_, hcard⟩
  · rw [map_tpl_updateCount]
    exact h.represents.nodup
  · intro t
    rw [hcount, h.represents.mem_iff, ← List.mem_map, ← List.mem_map, map_tpl_updateCount]
  · intro m' hm'
    obtain ⟨m, hm, rfl⟩ := mem_updateCount.1 hm'
    by_cases hnode : m.node = l.node
    · rw [if_pos hnode]
      have htpl := (h.node_eq_iff hl hm).1 hnode
      change f m.count = M'.count m.tpl
      rw [htpl, hself, h.represents.count_eq m hm, htpl]
    · rw [if_neg hnode, h.represents.count_eq m hm]
      exact (hother m.tpl fun htpl => hnode ((h.node_eq_iff hl hm).2 htpl)).symm

/-! ## Insertion -/

/-- Inserting a tuple that is there counts one more reference. -/
theorem insertTuple_of_mem (h : Inv nodeId fields T M) (hmem : tpl ∈ M) :
    Inv nodeId fields (insertTuple nodeId T tpl).1 (tpl ::ₘ M) ∧
      (insertTuple nodeId T tpl).2 = false := by
  obtain ⟨l, hl, rfl, hdescend⟩ := h.descend_present hmem
  simp only [insertTuple, checkInsert, hdescend]
  refine ⟨h.updateCount hl ?_ ?_ ?_ ?_, rfl⟩
  · rw [Multiset.count_cons_self]
  · intro t ht
    rw [Multiset.count_cons_of_ne ht]
  · exact Multiset.mem_cons_self _ _
  · rw [Multiset.card_cons, h.represents.size_eq]

/-- `check_insert` restructures the level where the descent stops, which does not matter for the
shape of the trie. -/
theorem Inv.shape_restructure (h : Inv nodeId fields T M) (q : TriePath) (d : TrieData) :
    Shape nodeId fields (Function.update T.child q
      (restructure nodeId ((candidates nodeId (T.child q) d).length + 1) (T.child q))) T.leaves :=
  h.shape.update_of_perm (perm_restructure (h.shape.childOk q) _) restructure_eq_leaf
    ((h.shape.childOk q).restructure
      (Nat.succ_le_succ (length_candidates_le (h.shape.childOk q) d)))

/-- Inserting a tuple that is not there adds a leaf. -/
theorem insertTuple_of_notMem (hne : fields ≠ []) (h : Inv nodeId fields T M)
    (ht : TupleHasType tpl fields) (hmem : tpl ∉ M) :
    Inv nodeId fields (insertTuple nodeId T tpl).1 (tpl ::ₘ M) ∧
      (insertTuple nodeId T tpl).2 = true := by
  have habs : ∀ l ∈ T.leaves, l.tpl ≠ tpl := fun l hl htpl =>
    hmem ((h.represents.mem_iff _).2 ⟨l, hl, htpl⟩)
  obtain ⟨q, v, rest, hdescend, hword, hd, hleaf, hin⟩ :=
    h.shape.descend_of_not_mem ht habs tpl [] rfl (Or.inl rfl) (word_ne_nil ht hne) _ rfl
  have hS := h.shape_restructure q v.data
  have hq : ∀ c, Function.update T.child q c q = c := fun c => Function.update_self ..
  obtain ⟨hlast, hshape⟩ := hS.insertNew ht habs hword
    (by
      rw [hq, (perm_restructure (h.shape.childOk q) _).mem_iff]
      exact hd)
    (by
      rw [hq, Ne, restructure_eq_leaf]
      exact hleaf) hin
  simp only [insertTuple, checkInsert, hdescend]
  refine ⟨⟨hshape, hshape.nodup, ?_, ?_, ?_⟩, rfl⟩
  · intro t
    simp only [List.mem_append, List.mem_singleton, Multiset.mem_cons, h.represents.mem_iff]
    constructor
    · rintro (rfl | ⟨l, hl, rfl⟩)
      · exact ⟨_, Or.inr rfl, rfl⟩
      · exact ⟨l, Or.inl hl, rfl⟩
    · rintro ⟨l, hl | rfl, rfl⟩
      · exact Or.inr ⟨l, hl, rfl⟩
      · exact Or.inl rfl
  · intro l hl
    rcases List.mem_append.1 hl with hl | hl
    · rw [Multiset.count_cons_of_ne (habs l hl), h.represents.count_eq l hl]
    · obtain rfl := List.mem_singleton.1 hl
      change 1 = (tpl ::ₘ M).count tpl
      rw [Multiset.count_cons_self, Multiset.count_eq_zero_of_notMem hmem]
  · rw [Multiset.card_cons, h.represents.size_eq]

/-! ## Deletion -/

/-- Deleting a tuple that is not there does nothing. -/
theorem deleteCompletely_of_notMem (hne : fields ≠ []) (h : Inv nodeId fields T M)
    (ht : TupleHasType tpl fields) (hmem : tpl ∉ M) :
    deleteCompletely nodeId T tpl = (T, none) := by
  have habs : ∀ l ∈ T.leaves, l.tpl ≠ tpl := fun l hl htpl =>
    hmem ((h.represents.mem_iff _).2 ⟨l, hl, htpl⟩)
  obtain ⟨q, v, rest, hdescend, -⟩ :=
    h.shape.descend_of_not_mem ht habs tpl [] rfl (Or.inl rfl) (word_ne_nil ht hne) _ rfl
  simp only [deleteCompletely, deleteTuple, hdescend]

/-- The leaf of a tuple is due for deletion exactly when the last reference was dropped. -/
theorem Inv.any_zero_iff (h : Inv nodeId fields T M) {l : TrieLeaf} (hl : l ∈ T.leaves) :
    ((Trie.updateCount l.node (· - 1) T.leaves).any fun m =>
      decide (m.node = l.node) && m.count == 0) = true ↔ M.count l.tpl = 1 := by
  have hpos : 0 < M.count l.tpl :=
    Multiset.count_pos.2 ((h.represents.mem_iff _).2 ⟨l, hl, rfl⟩)
  simp only [List.any_eq_true, Bool.and_eq_true, decide_eq_true_eq, beq_iff_eq]
  constructor
  · rintro ⟨_, hm', hnode, hzero⟩
    obtain ⟨m, hm, rfl⟩ := mem_updateCount.1 hm'
    have hsame : m.node = l.node :=
      (updateCount_node_tpl l.node (· - 1) m).1.symm.trans hnode
    rw [if_pos hsame] at hzero
    obtain rfl := h.shape.eq_of_node_eq hm hl hsame
    have hcount := h.represents.count_eq m hl
    simp only at hzero
    omega
  · intro hone
    refine ⟨{ l with count := l.count - 1 }, mem_updateCount.2 ⟨l, hl, ?_⟩, rfl, ?_⟩
    · rw [if_pos rfl]
    · change l.count - 1 = 0
      rw [h.represents.count_eq l hl, hone]

/-- Dropping the last reference takes the leaf and its path out. -/
theorem Inv.performDelete (h : Inv nodeId fields T M) {l : TrieLeaf} (hl : l ∈ T.leaves)
    (hone : M.count l.tpl = 1) :
    Inv nodeId fields (Trie.performDelete nodeId
      { T with leaves := Trie.updateCount l.node (· - 1) T.leaves } l.node) (M.erase l.tpl) := by
  have hfilter := filter_updateCount l.node (· - 1) T.leaves
  have hmemf : ∀ m, m ∈ T.leaves.filter (fun m => m.node ≠ l.node) ↔
      m ∈ T.leaves ∧ m.node ≠ l.node := by
    intro m
    simp
  have hshape := h.shape.deletePath hl
  rw [← hfilter] at hshape
  refine ⟨hshape, hshape.nodup, ?_, ?_, ?_⟩
  · intro t
    simp only [Trie.performDelete, hfilter]
    by_cases ht : t = l.tpl
    · have hzero : t ∉ M.erase l.tpl := by
        rw [ht, ← Multiset.count_eq_zero, Multiset.count_erase_self, hone]
      refine iff_of_false hzero ?_
      rintro ⟨m, hm, htpl⟩
      obtain ⟨hm, hne⟩ := (hmemf m).1 hm
      exact hne ((h.node_eq_iff hl hm).2 (htpl.trans ht))
    · rw [Multiset.mem_erase_of_ne ht, h.represents.mem_iff]
      constructor
      · rintro ⟨m, hm, rfl⟩
        exact ⟨m, (hmemf m).2 ⟨hm, fun hnode => ht ((h.node_eq_iff hl hm).1 hnode)⟩, rfl⟩
      · rintro ⟨m, hm, rfl⟩
        exact ⟨m, ((hmemf m).1 hm).1, rfl⟩
  · intro m hm
    simp only [Trie.performDelete, hfilter] at hm
    obtain ⟨hm, hne⟩ := (hmemf m).1 hm
    have htpl : m.tpl ≠ l.tpl := fun htpl => hne ((h.node_eq_iff hl hm).2 htpl)
    rw [Multiset.count_erase_of_ne htpl, h.represents.count_eq m hm]
  · have hmem : l.tpl ∈ M := (h.represents.mem_iff _).2 ⟨l, hl, rfl⟩
    rw [Multiset.card_erase_of_mem hmem, Nat.pred_eq_sub_one, ← h.represents.size_eq]
    rfl

/-- Deleting a tuple that is there takes one copy out. -/
theorem deleteCompletely_of_mem (h : Inv nodeId fields T M) (hmem : tpl ∈ M) :
    Inv nodeId fields (deleteCompletely nodeId T tpl).1 (M.erase tpl) ∧
      toDelete (deleteCompletely nodeId T tpl).2 = decide (M.count tpl = 1) := by
  obtain ⟨l, hl, rfl, hdescend⟩ := h.descend_present hmem
  have hpos : 0 < M.count l.tpl := Multiset.count_pos.2 hmem
  by_cases hone : M.count l.tpl = 1
  · have hany := (h.any_zero_iff hl).2 hone
    simp only [deleteCompletely, deleteTuple, hdescend, hany, if_true]
    exact ⟨h.performDelete hl hone, (decide_eq_true hone).symm⟩
  · have hany : ¬ _ := fun hany => hone ((h.any_zero_iff hl).1 hany)
    simp only [deleteCompletely, deleteTuple, hdescend, hany, if_false]
    refine ⟨h.updateCount hl ?_ ?_ ?_ ?_, (decide_eq_false hone).symm⟩
    · exact Multiset.count_erase_self _ _
    · intro t ht
      exact Multiset.count_erase_of_ne ht _
    · rw [← Multiset.count_pos, Multiset.count_erase_self]
      omega
    · rw [Multiset.card_erase_of_mem hmem, Nat.pred_eq_sub_one, ← h.represents.size_eq]

/-! ## Runs -/

/-- One operation keeps the trie and the multiset together, and its answer is the one the multiset
gives. -/
theorem exec_represents (hne : fields ≠ []) (h : Inv nodeId fields T M) (op : Op fields) :
    Inv nodeId fields (exec nodeId T op).1 (specExec M op).1 ∧
      (exec nodeId T op).2 = (specExec M op).2 := by
  cases op with
  | insert tpl =>
    by_cases hmem : tpl.1 ∈ M
    · obtain ⟨hinv, hans⟩ := insertTuple_of_mem h hmem
      exact ⟨hinv, hans.trans (decide_eq_false (not_not.2 hmem)).symm⟩
    · obtain ⟨hinv, hans⟩ := insertTuple_of_notMem hne h tpl.2 hmem
      exact ⟨hinv, hans.trans (decide_eq_true hmem).symm⟩
  | delete tpl =>
    by_cases hmem : tpl.1 ∈ M
    · exact deleteCompletely_of_mem h hmem
    · have hcount : M.count tpl.1 ≠ 1 := by
        rw [Multiset.count_eq_zero_of_notMem hmem]
        exact Nat.zero_ne_one
      simp only [exec, specExec, deleteCompletely_of_notMem hne h tpl.2 hmem,
        Multiset.erase_of_notMem hmem]
      exact ⟨h, (decide_eq_false hcount).symm⟩

/-- The invariant holds after every sequence of operations. -/
theorem inv_run (hne : fields ≠ []) (ops : List (Op fields)) :
    Inv nodeId fields (run nodeId ops) (specRun ops) := by
  induction ops using List.reverseRecOn with
  | nil => exact inv_empty
  | append_singleton ops op ih =>
    simp only [run, specRun, List.foldl_append, List.foldl_cons, List.foldl_nil]
    exact (exec_represents hne ih op).1

/-- **The trie represents the multiset of tuples inserted and not deleted**: after every sequence of
operations the leaves are the distinct tuples with their multiplicities and `size()` is the number
of copies, and whatever the next operation is, `insert_tuple` says whether the tuple was absent and
`to_delete()` whether the last copy went away. -/
theorem run_represents (nodeId : BitVec 64 → ℕ) (hne : fields ≠ []) (ops : List (Op fields)) :
    Represents (run nodeId ops) (specRun ops) ∧
      ∀ op : Op fields, (exec nodeId (run nodeId ops) op).2 = (specExec (specRun ops) op).2 :=
  ⟨(inv_run hne ops).represents, fun op => (exec_represents hne (inv_run hne ops) op).2⟩

/-- One tuple of one integer field, inserted twice and deleted once. -/
def insertTwice : List (Op [.int]) :=
  let seven : TypedTuple [.int] := ⟨[.int 7], .cons (.int 7) .nil⟩
  [.insert seven, .insert seven, .delete seven]

theorem run_represents_insertTwice :
    Represents (run (fun _ => 0) insertTwice) {[.int 7]} ∧
      (exec (fun _ => 0) (run (fun _ => 0) insertTwice)
        (.delete ⟨[.int 7], .cons (.int 7) .nil⟩ : Op [.int])).2 = true := by
  obtain ⟨hrep, hans⟩ := run_represents (fun _ => 0) (by simp) insertTwice
  exact ⟨hrep, hans _⟩

end Trie

end Meld
