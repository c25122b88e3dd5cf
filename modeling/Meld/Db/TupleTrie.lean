import Meld.Db.TrieMultiset
import Mathlib.Algebra.BigOperators.Group.Finset.Basic

/-!
# Tries of any predicate

The trie as the persistent store uses it: with the depth counters of cycle predicates, and with
tuples that have no fields.  A leaf of a cycle predicate counts its derivations once in `count` and
once more, split by derivation depth, in a `depth_counter`; a tuple without fields is kept at the
root, which then is a leaf.

* `DepthCounter`: the map from depths to counts.
* `TupleTrie.insertTuple`, `deleteTuple`, `deleteDepthsAbove`, `performDelete`: the operations.
* `TupleTrie.remove`: how `process_persistent_tuple` and `agg_configuration::add_to_set` put them
  together for a negative tuple.
* `TupleTrie.insertTuple_spec`, `TupleTrie.remove_spec`: of a predicate without depth counters, the
  trie is the multiset of its tuples.
-/

namespace Meld

/-- `depth_counter`: the entries of the map, in increasing order of depth. -/
abbrev DepthCounter := List (ℕ × ℕ)

namespace DepthCounter

/-- `get_count`. -/
def getCount (D : DepthCounter) (depth : ℕ) : ℕ := (List.lookup depth D).getD 0

/-- `max_depth`, zero when there is no entry. -/
def maxDepth (D : DepthCounter) : ℕ := (D.getLast?.map Prod.fst).getD 0

/-- `add`. -/
def add (depth count : ℕ) : DepthCounter → DepthCounter
  | [] => [(depth, count)]
  | (d, c) :: D =>
    if depth < d then (depth, count) :: (d, c) :: D
    else if depth = d then (d, c + count) :: D
    else (d, c) :: add depth count D

/-- `sub`: clamps at zero, and an entry that reaches zero is erased. -/
def sub (depth count : ℕ) : DepthCounter → DepthCounter
  | [] => []
  | (d, c) :: D =>
    if depth = d then (if c ≤ count then D else (d, c - count) :: D)
    else (d, c) :: sub depth count D

/-- `delete_depths_above`: what is left, and the number of references that went. -/
def deleteDepthsAbove (depth : ℕ) (D : DepthCounter) : DepthCounter × ℕ :=
  (D.filter fun e => e.1 ≤ depth, ((D.filter fun e => depth < e.1).map Prod.snd).sum)

end DepthCounter

/-- `ref_count` subtraction, which wraps around. -/
def subRefCount (a b : ℕ) : ℕ := if b ≤ a then a - b else a + 2 ^ 64 - b

namespace Trie

variable (nodeId : BitVec 64 → ℕ)

/-- `check_insert` of a tuple without fields into an empty trie: the root becomes a leaf. -/
def insertRoot (T : Trie) (tpl : Tuple) : Trie where
  child := Function.update T.child [] .leaf
  leaves := [⟨[], tpl, 1⟩]
  numberOfReferences := T.numberOfReferences + 1

/-- `insert_tuple`, also of a tuple without fields. -/
def insertAny (T : Trie) (tpl : Tuple) : Trie × Bool :=
  if tpl = [] ∧ T.child [] ≠ .leaf then (insertRoot T tpl, true) else insertTuple nodeId T tpl

/-- `delete_tuple`, also of a tuple without fields.  When there is no such tuple, `check_insert`
returns the root instead of a null pointer and the leaf that is read from it does not exist. -/
def deleteAny (T : Trie) (tpl : Tuple) : Option (Trie × DeleteInfo) :=
  if tpl = [] ∧ T.child [] ≠ .leaf then none else some (deleteTuple nodeId T tpl)

/-- The node where `check_insert` finds the leaf of a tuple. -/
def leafNode (T : Trie) (tpl : Tuple) : TriePath :=
  (descend nodeId T.child (stackSize tpl) [] tpl).1

end Trie

/-- `tuple_trie`, with the depth counter of every leaf of a cycle predicate. -/
structure TupleTrie where
  toTrie : Trie
  depths : TriePath → DepthCounter

/-- `trie::delete_info` of a tuple that was found: its leaf, `to_del` and `decrease`. -/
structure DeleteInfo where
  leaf : TriePath
  toDel : Bool
  decrease : ℕ

namespace TupleTrie

variable (nodeId : BitVec 64 → ℕ) (isCycle : Bool)

/-- `tuple_trie()`. -/
def empty : TupleTrie := ⟨Trie.empty, fun _ => []⟩

/-- `size()`. -/
def size (T : TupleTrie) : ℕ := T.toTrie.numberOfReferences

/-- The count of a leaf. -/
def leafCount (T : TupleTrie) (p : TriePath) : ℕ :=
  ((T.toTrie.leaves.filter fun l => decide (l.node = p)).map TrieLeaf.count).sum

/-- `insert_tuple`: the trie, and whether the tuple is new. -/
def insertTuple (T : TupleTrie) (tpl : Tuple) (depth : ℕ) : TupleTrie × Bool :=
  let (T', isNew) := T.toTrie.insertAny nodeId tpl
  let p := T'.leafNode nodeId tpl
  let counter := if isNew then [] else T.depths p
  (⟨T', if isCycle then Function.update T.depths p (DepthCounter.add depth 1 counter) else T.depths⟩, isNew)

/-- `delete_tuple`.  No `delete_info` is an invalid one. -/
def deleteTuple (T : TupleTrie) (tpl : Tuple) (depth : ℕ) :
    Option (TupleTrie × Option DeleteInfo) :=
  match T.toTrie.deleteAny nodeId tpl with
  | none => none
  | some (T', none) => some (⟨T', T.depths⟩, none)
  | some (T', some (p, toDel)) =>
    some (⟨T', if isCycle then Function.update T.depths p (DepthCounter.sub depth 1 (T.depths p))
        else T.depths⟩,
      some ⟨p, toDel, if toDel then 1 else 0⟩)

/-- `delete_info::delete_depths_above`. -/
def deleteDepthsAbove (T : TupleTrie) (info : DeleteInfo) (depth : ℕ) : TupleTrie × DeleteInfo :=
  let (kept, deleted) := DepthCounter.deleteDepthsAbove depth (T.depths info.leaf)
  let leaves := Trie.updateCount info.leaf (subRefCount · deleted) T.toTrie.leaves
  let T' : TupleTrie :=
    ⟨{ T.toTrie with leaves := leaves }, Function.update T.depths info.leaf kept⟩
  (T', ⟨info.leaf, info.toDel || T'.leafCount info.leaf == 0, info.decrease + deleted⟩)

/-- `delete_info::perform_delete`. -/
def performDelete (T : TupleTrie) (info : DeleteInfo) : TupleTrie where
  toTrie := { T.toTrie.performDelete nodeId info.leaf with
    numberOfReferences := T.toTrie.numberOfReferences - info.decrease }
  depths := T.depths

/-- What the callers do with a negative tuple: `delete_tuple`; then `perform_delete` when the leaf
is to go, or else, of a cycle predicate whose counter has nothing left at this depth,
`delete_depths_above`, and `perform_delete` when that empties the leaf.  Returns the trie, whether
the `delete_info` was valid, and whether `perform_delete` was called. -/
def remove (T : TupleTrie) (tpl : Tuple) (depth : ℕ) : Option (TupleTrie × Bool × Bool) :=
  match T.deleteTuple nodeId isCycle tpl depth with
  | none => none
  | some (T', none) => some (T', false, false)
  | some (T', some info) =>
    if info.toDel then some (T'.performDelete nodeId info, true, true)
    else if isCycle ∧ DepthCounter.getCount (T'.depths info.leaf) depth = 0 then
      let (T'', info') := T'.deleteDepthsAbove info depth
      if info'.toDel then some (T''.performDelete nodeId info', true, true)
      else some (T'', true, false)
    else some (T', true, false)

end TupleTrie

/-! ## Tuples without fields -/

namespace Trie

variable {nodeId : BitVec 64 → ℕ} {fields : List FieldType} {T : Trie} {M : Multiset Tuple}
  {tpl : Tuple}

theorem Inv.typed (h : Inv nodeId fields T M) (hmem : tpl ∈ M) : TupleHasType tpl fields := by
  obtain ⟨l, hl, rfl⟩ := (h.represents.mem_iff _).1 hmem
  exact (h.shape.node_eq l hl).1

/-- The root is a leaf exactly when the tuple without fields is there. -/
theorem Inv.root_leaf_iff (h : Inv nodeId fields T M) (ht : TupleHasType [] fields) :
    T.child [] = .leaf ↔ [] ∈ M := by
  rw [h.shape.leaf_iff, h.represents.mem_iff]
  constructor
  · rintro ⟨l, hl, hnode⟩
    refine ⟨l, hl, h.shape.eq_tpl_of_suffix hl ht ?_⟩
    rw [hnode]
    exact List.nil_suffix
  · rintro ⟨l, hl, htpl⟩
    refine ⟨l, hl, ?_⟩
    rw [(h.shape.node_eq l hl).2, htpl]
    rfl

/-- Of a predicate without fields nothing but the empty tuple is there. -/
theorem Inv.eq_zero (h : Inv nodeId [] T M) (hmem : [] ∉ M) : M = 0 ∧ T.leaves = [] := by
  have hzero : M = 0 := by
    refine Multiset.eq_zero_of_forall_notMem fun t ht => ?_
    have htyped := h.typed ht
    cases htyped
    exact hmem ht
  refine ⟨hzero, h.leaves_eq_nil_iff.2 ?_⟩
  rw [h.represents.size_eq, hzero, Multiset.card_zero]

/-- The first insertion of the tuple without fields. -/
theorem Inv.insertRoot (h : Inv nodeId [] T M) (hmem : [] ∉ M) :
    Inv nodeId [] (T.insertRoot []) ([] ::ₘ M) := by
  obtain ⟨rfl, hleaves⟩ := h.eq_zero hmem
  have hchildren : ∀ p d, d ∉ children (T.child p) := by
    intro p d hd
    obtain ⟨l, hl, -⟩ := (h.shape.mem_children p d).1 hd
    rw [hleaves] at hl
    exact List.not_mem_nil hl
  have hnotLeaf : ∀ p, T.child p ≠ .leaf := by
    intro p hp
    obtain ⟨l, hl, -⟩ := (h.shape.leaf_iff p).1 hp
    rw [hleaves] at hl
    exact List.not_mem_nil hl
  refine ⟨⟨⟨?_, ?_, ?_⟩, ?_, ?_⟩, ?_, ?_, ?_, ?_⟩
  · intro p
    by_cases hp : p = []
    · subst hp
      simp [Trie.insertRoot]
    · simp [Trie.insertRoot, Function.update_of_ne hp, hnotLeaf p, Ne.symm hp]
  · intro p d
    by_cases hp : p = []
    · subst hp
      simp [Trie.insertRoot, children]
    · simp [Trie.insertRoot, Function.update_of_ne hp, hchildren p d]
  · intro p
    by_cases hp : p = []
    · subst hp
      simp [Trie.insertRoot, ChildOk]
    · simp only [Trie.insertRoot, Function.update_of_ne hp]
      exact h.shape.childOk p
  · intro l hl
    obtain rfl := List.mem_singleton.1 hl
    exact ⟨List.Forall₂.nil, rfl⟩
  · simp [Trie.insertRoot]
  · simp [Trie.insertRoot]
  · intro t
    simp [Trie.insertRoot, eq_comm]
  · intro l hl
    obtain rfl := List.mem_singleton.1 hl
    simp
  · simp [Trie.insertRoot, h.represents.size_eq]

/-- Inserting any tuple adds it and says whether it was absent. -/
theorem Inv.insertAny (h : Inv nodeId fields T M) (ht : TupleHasType tpl fields) :
    Inv nodeId fields (T.insertAny nodeId tpl).1 (tpl ::ₘ M) ∧
      (T.insertAny nodeId tpl).2 = decide (tpl ∉ M) := by
  by_cases hmem : tpl ∈ M
  · have hbranch : ¬ (tpl = [] ∧ T.child [] ≠ .leaf) := by
      rintro ⟨rfl, hleaf⟩
      exact hleaf ((h.root_leaf_iff ht).2 hmem)
    rw [Trie.insertAny, if_neg hbranch]
    obtain ⟨hinv, hans⟩ := insertTuple_of_mem h hmem
    exact ⟨hinv, hans.trans (decide_eq_false (not_not.2 hmem)).symm⟩
  · by_cases hnil : tpl = []
    · subst hnil
      cases ht
      have hleaf : T.child [] ≠ .leaf := fun hleaf =>
        hmem ((h.root_leaf_iff List.Forall₂.nil).1 hleaf)
      rw [Trie.insertAny, if_pos ⟨rfl, hleaf⟩]
      exact ⟨h.insertRoot hmem, (decide_eq_true hmem).symm⟩
    · have hne : fields ≠ [] := by
        rintro rfl
        cases ht
        exact hnil rfl
      rw [Trie.insertAny, if_neg fun hb => hnil hb.1]
      obtain ⟨hinv, hans⟩ := insertTuple_of_notMem hne h ht hmem
      exact ⟨hinv, hans.trans (decide_eq_true hmem).symm⟩

/-- Deleting a tuple that is not there finds no leaf, and without fields reads one nevertheless. -/
theorem Shape.deleteAny_eq (hS : Shape nodeId fields T.child T.leaves)
    (ht : TupleHasType tpl fields) (habs : ∀ l ∈ T.leaves, l.tpl ≠ tpl) :
    T.deleteAny nodeId tpl = if tpl = [] then none else some (T, none) := by
  by_cases hnil : tpl = []
  · rw [Trie.deleteAny, if_pos, if_pos hnil]
    refine ⟨hnil, fun hleaf => ?_⟩
    obtain ⟨l, hl, hnode⟩ := (hS.leaf_iff []).1 hleaf
    refine habs l hl (hS.eq_tpl_of_suffix hl ht ?_)
    rw [hnode]
    exact List.nil_suffix
  · have hne : fields ≠ [] := by
      rintro rfl
      cases ht
      exact hnil rfl
    obtain ⟨q, v, rest, hdescend, -⟩ :=
      hS.descend_of_not_mem ht habs tpl [] rfl (Or.inl rfl) (word_ne_nil ht hne) _ rfl
    rw [Trie.deleteAny, if_neg fun hb => hnil hb.1, if_neg hnil]
    simp only [Trie.deleteTuple, hdescend]

theorem Shape.deleteAny_of_not_mem (hS : Shape nodeId fields T.child T.leaves)
    (ht : TupleHasType tpl fields) (habs : ∀ l ∈ T.leaves, l.tpl ≠ tpl) :
    T.deleteAny nodeId tpl = none ∨ T.deleteAny nodeId tpl = some (T, none) := by
  rw [hS.deleteAny_eq ht habs]
  split
  next => exact Or.inl rfl
  next => exact Or.inr rfl

/-- A tuple that is there can be deleted. -/
theorem Inv.deleteAny (h : Inv nodeId fields T M) (hmem : tpl ∈ M) :
    T.deleteAny nodeId tpl = some (deleteTuple nodeId T tpl) := by
  have hbranch : ¬ (tpl = [] ∧ T.child [] ≠ .leaf) := by
    rintro ⟨rfl, hleaf⟩
    exact hleaf ((h.root_leaf_iff (h.typed hmem)).2 hmem)
  rw [Trie.deleteAny, if_neg hbranch]

/-- Deleting a tuple that is there finds its leaf, which is due exactly when this was the last copy.
What is left is the trie without this copy, once a leaf that is due is taken out. -/
theorem Inv.deleteTuple (h : Inv nodeId fields T M) (hmem : tpl ∈ M) :
    ∃ T', Trie.deleteTuple nodeId T tpl =
        (T', some ((word tpl).reverse, decide (M.count tpl = 1))) ∧
      (M.count tpl = 1 → Inv nodeId fields (Trie.performDelete nodeId T' (word tpl).reverse)
        (M.erase tpl)) ∧
      (M.count tpl ≠ 1 → Inv nodeId fields T' (M.erase tpl)) := by
  obtain ⟨hinv, hans⟩ := deleteCompletely_of_mem h hmem
  obtain ⟨l, hl, rfl, hdescend⟩ := h.descend_present hmem
  rw [← (h.shape.node_eq l hl).2]
  by_cases hone : M.count l.tpl = 1
  · have hany := (h.any_zero_iff hl).2 hone
    have hdel : Trie.deleteTuple nodeId T l.tpl =
        ({ T with leaves := Trie.updateCount l.node (· - 1) T.leaves }, some (l.node, true)) := by
      simp only [Trie.deleteTuple, hdescend, hany, if_true]
    refine ⟨_, hdel.trans (by rw [decide_eq_true hone]), fun _ => ?_, fun hne => absurd hone hne⟩
    rw [deleteCompletely, hdel] at hinv
    exact hinv
  · have hany : ¬ _ := fun hany => hone ((h.any_zero_iff hl).1 hany)
    have hdel : Trie.deleteTuple nodeId T l.tpl =
        ({ T with
            leaves := Trie.updateCount l.node (· - 1) T.leaves
            numberOfReferences := T.numberOfReferences - 1 }, some (l.node, false)) := by
      simp only [Trie.deleteTuple, hdescend, hany, if_false]
    refine ⟨_, hdel.trans (by rw [decide_eq_false hone]), fun h1 => absurd h1 hone, fun _ => ?_⟩
    rw [deleteCompletely, hdel] at hinv
    exact hinv

/-- The descent for a tuple of the multiset ends at the address spelled by its word. -/
theorem Inv.leafNode_eq (h : Inv nodeId fields T M) (hmem : tpl ∈ M) :
    T.leafNode nodeId tpl = (word tpl).reverse := by
  obtain ⟨l, hl, rfl, hdescend⟩ := h.descend_present hmem
  rw [Trie.leafNode, hdescend]
  exact (h.shape.node_eq l hl).2

end Trie

/-- The leaves of a trie hold the values of the multiset with their multiplicities. -/
theorem Trie.Inv.sum_leaves {β : Type*} [AddCommMonoid β] {nodeId : BitVec 64 → ℕ}
    {fields : List FieldType} {T : Trie} {M : Multiset Tuple} (h : T.Inv nodeId fields M)
    (f : Tuple → β) : (T.leaves.map fun l => l.count • f l.tpl).sum = (M.map f).sum := by
  have hset : M.toFinset = (T.leaves.map TrieLeaf.tpl).toFinset := by
    ext t
    rw [Multiset.mem_toFinset, h.represents.mem_iff, List.mem_toFinset, List.mem_map]
  rw [Finset.sum_multiset_map_count, hset, List.sum_toFinset _ h.represents.nodup, List.map_map]
  congr 1
  refine List.map_congr_left fun l hl => ?_
  rw [Function.comp_apply, h.represents.count_eq l hl]

/-- The count of a tuple: that of its leaf, zero when it has none. -/
def Trie.countOf (T : Trie) (tpl : Tuple) : ℕ :=
  ((T.leaves.filter fun l => decide (l.tpl = tpl)).map TrieLeaf.count).sum

/-- When no two leaves have the same key, a sum over those with one key is that of one leaf. -/
theorem Trie.sum_filter_key {κ : Type*} [DecidableEq κ] {key : TrieLeaf → κ}
    {leaves : List TrieLeaf} (h : (leaves.map key).Nodup) {l : TrieLeaf} (hl : l ∈ leaves) :
    ((leaves.filter fun m => decide (key m = key l)).map TrieLeaf.count).sum = l.count := by
  induction leaves with
  | nil => exact absurd hl List.not_mem_nil
  | cons m leaves ih =>
    rw [List.map_cons, List.nodup_cons] at h
    rcases List.mem_cons.1 hl with rfl | hl
    · have hnone : leaves.filter (fun m => decide (key m = key l)) = [] := by
        refine List.filter_eq_nil_iff.2 fun m hm heq => h.1 ?_
        rw [← of_decide_eq_true heq]
        exact List.mem_map_of_mem hm
      simp [hnone]
    · have hne : key m ≠ key l := fun heq => h.1 (heq ▸ List.mem_map_of_mem hl)
      rw [List.filter_cons_of_neg (by simpa using hne)]
      exact ih h.2 hl

/-- The count of a tuple is its multiplicity. -/
theorem Trie.Represents.countOf_eq {T : Trie} {M : Multiset Tuple} (h : T.Represents M)
    (tpl : Tuple) : T.countOf tpl = M.count tpl := by
  by_cases hmem : tpl ∈ M
  · obtain ⟨l, hl, rfl⟩ := (h.mem_iff _).1 hmem
    rw [Trie.countOf, Trie.sum_filter_key h.nodup hl, h.count_eq l hl]
  · have hnone : T.leaves.filter (fun m => decide (m.tpl = tpl)) = [] :=
      List.filter_eq_nil_iff.2 fun m hm heq =>
        hmem ((h.mem_iff _).2 ⟨m, hm, of_decide_eq_true heq⟩)
    rw [Trie.countOf, hnone, Multiset.count_eq_zero_of_notMem hmem]
    rfl

/-! ## Predicates without depth counters -/

namespace TupleTrie

variable {nodeId : BitVec 64 → ℕ} {fields : List FieldType} {T : TupleTrie} {M : Multiset Tuple}
  {tpl : Tuple} {depth : ℕ}

/-- Inserting adds the tuple and says whether it was absent, whatever the counters are. -/
theorem insertTuple_spec (h : T.toTrie.Inv nodeId fields M) (ht : TupleHasType tpl fields)
    (isCycle : Bool) (depth : ℕ) :
    (T.insertTuple nodeId isCycle tpl depth).1.toTrie.Inv nodeId fields (tpl ::ₘ M) ∧
      (T.insertTuple nodeId isCycle tpl depth).2 = decide (tpl ∉ M) :=
  h.insertAny ht

/-- Of a predicate without depth counters, removing a tuple that is there takes one copy out. -/
theorem remove_spec (h : T.toTrie.Inv nodeId fields M) (hmem : tpl ∈ M) (depth : ℕ) :
    ∃ T', T.remove nodeId false tpl depth = some (T', true, decide (M.count tpl = 1)) ∧
      T'.toTrie.Inv nodeId fields (M.erase tpl) := by
  obtain ⟨T', hdel, hlast, hmore⟩ := h.deleteTuple hmem
  have hany := h.deleteAny hmem
  rw [hdel] at hany
  by_cases hone : M.count tpl = 1
  · refine ⟨performDelete nodeId ⟨T', T.depths⟩ ⟨(Trie.word tpl).reverse, true, 1⟩, ?_,
      hlast hone⟩
    simp [remove, deleteTuple, hany, hone]
  · refine ⟨⟨T', T.depths⟩, ?_, hmore hone⟩
    simp [remove, deleteTuple, hany, hone]

end TupleTrie

end Meld
