import Meld.Db.TrieLevel
import Mathlib.Data.List.Infix
import Mathlib.Algebra.BigOperators.Group.List.Basic

/-!
# The representation invariant of the trie

The trie is the tree of prefixes of the words of its leaves and nothing else.  `Tree` says so
address by address: the children of a node are the symbols that follow it in the word of some leaf.

* `Shape`: the tree of the leaves, whose addresses are the words of their tuples.
* `wordTree`, `tree_iff_grown`: the trie is a tree of words, grown from the addresses of its leaves;
  `descend_eq`, `addRest_eq`, `wordTree_deletePath`: with the same operations.
* `Shape.descend_of_mem`, `Shape.descend_of_not_mem`: where `check_insert` stops.
* `Shape.insertNew`, `Shape.updateCount`, `Shape.deletePath`: the shape is kept when a tuple is
  added, when a reference is counted, and when the last reference is dropped.
-/

namespace Meld
namespace Trie

variable (nodeId : BitVec 64 → ℕ) (fields : List FieldType)

/-- The tree is the one of the given leaves: which addresses are leaves, and which children a node
has. -/
structure Tree (child : TriePath → TrieChild) (leaves : List TrieLeaf) : Prop where
  leaf_iff : ∀ p, child p = .leaf ↔ ∃ l ∈ leaves, l.node = p
  mem_children : ∀ p d, d ∈ children (child p) ↔ ∃ l ∈ leaves, d :: p <:+ l.node
  childOk : ∀ p, ChildOk nodeId (child p)

/-- The part of the invariant that does not speak about counts. -/
structure Shape (child : TriePath → TrieChild) (leaves : List TrieLeaf) : Prop
    extends Tree nodeId child leaves where
  /-- A leaf is found at the end of the word of its tuple. -/
  node_eq : ∀ l ∈ leaves, TupleHasType l.tpl fields ∧ l.node = (word l.tpl).reverse
  /-- No tuple has two leaves. -/
  nodup : (leaves.map TrieLeaf.tpl).Nodup

variable {nodeId fields} {child : TriePath → TrieChild} {leaves : List TrieLeaf}

theorem shape_empty : Shape nodeId fields empty.child empty.leaves where
  leaf_iff := by simp [empty]
  mem_children := by simp [empty, children]
  childOk := fun _ => List.nodup_nil
  node_eq := by simp [empty]
  nodup := by simp [empty]

/-! ## The trie as a tree of words -/

/-- The levels of the trie as those of a tree of words. -/
def wordTree (child : TriePath → TrieChild) : TriePath → WordTree.Level TrieData := level ∘ child

/-- The addresses of the leaves. -/
def addresses (leaves : List TrieLeaf) : Set TriePath := {p | ∃ l ∈ leaves, l.node = p}

theorem exists_addresses {P : TriePath → Prop} :
    (∃ a ∈ addresses leaves, P a) ↔ ∃ l ∈ leaves, P l.node := by
  simp [addresses]

theorem wordTree_update (p : TriePath) (c : TrieChild) :
    wordTree (Function.update child p c) = Function.update (wordTree child) p (level c) :=
  Function.comp_update level child p c

@[simp] theorem children_wordTree (p : TriePath) :
    (wordTree child p).children = children (child p) := children_level _

theorem wordTree_eq_leaf {p : TriePath} : wordTree child p = .leaf ↔ child p = .leaf :=
  level_eq_leaf

/-- The tree of the leaves is the one grown from their addresses. -/
theorem tree_iff_grown : Tree nodeId child leaves ↔
    WordTree.Grown (hashItem nodeId) (wordTree child) (addresses leaves) := by
  constructor
  · intro hT
    refine ⟨fun p => ?_, fun p d => ?_, fun p => ok_level.2 (hT.childOk p)⟩
    · rw [wordTree_eq_leaf]
      exact hT.leaf_iff p
    · rw [children_wordTree, exists_addresses]
      exact hT.mem_children p d
  · intro hT
    refine ⟨fun p => ?_, fun p d => ?_, fun p => ok_level.1 (hT.ok p)⟩
    · rw [← wordTree_eq_leaf]
      exact hT.leaf_iff p
    · rw [← children_wordTree, ← exists_addresses (P := fun a => d :: p <:+ a)]
      exact hT.mem_children p d

theorem word_eq_nil {stk : List Value} : word stk = [] ↔ stk = [] := by
  cases stk with
  | nil => exact iff_of_true rfl rfl
  | cons v stk =>
    rw [word_cons]
    exact iff_of_false (List.cons_ne_nil _ _) (List.cons_ne_nil _ _)

/-- The descent follows the word of the match stack. -/
theorem descend_eq (stk : List Value) (p : TriePath) (fuel : ℕ) (hfuel : stackSize stk = fuel) :
    WordTree.descend (hashItem nodeId) (wordTree child) p (word stk) =
      (descend nodeId child fuel p stk).map id word := by
  induction fuel generalizing stk p with
  | zero =>
    have hnil : word stk = [] := List.eq_nil_of_length_eq_zero ((length_word stk).trans hfuel)
    obtain rfl := word_eq_nil.1 hnil
    rfl
  | succ fuel ih =>
    cases stk with
    | nil => exact absurd hfuel (Nat.succ_ne_zero fuel).symm
    | cons v stk =>
      rw [stackSize_cons] at hfuel
      have hcandidates : (wordTree child p).candidates (hashItem nodeId) v.data =
          candidates nodeId (child p) v.data := candidates_level _ _
      rw [word_cons, WordTree.descend, descend, hcandidates,
        ih (v.pushes ++ stk) (v.data :: p) (Nat.succ_injective hfuel)]
      by_cases hleaf : child p = .leaf
      · rw [if_pos (wordTree_eq_leaf.2 hleaf), if_pos hleaf, Prod.map_apply, word_cons, id]
      · rw [if_neg fun h => hleaf (wordTree_eq_leaf.1 h), if_neg hleaf]
        by_cases hmem : v.data ∈ candidates nodeId (child p) v.data
        · rw [if_pos hmem, if_pos hmem]
        · rw [if_neg hmem, if_neg hmem, Prod.map_apply, word_cons, id]

theorem wordTree_insertNode (q : TriePath) (d : TrieData) :
    wordTree (insertNode nodeId child q d) =
      WordTree.addNode (hashItem nodeId) (wordTree child) q d := by
  rw [insertNode, wordTree_update, wordTree_update, level_addChild]
  rfl

/-- `insertRest` adds the word of the match stack. -/
theorem addRest_eq (stk : List Value) (q : TriePath) (child : TriePath → TrieChild) (fuel : ℕ)
    (hfuel : stackSize stk = fuel) :
    WordTree.addRest (hashItem nodeId) (wordTree child) q (word stk) =
      (insertRest nodeId child fuel q stk).map wordTree id := by
  induction fuel generalizing stk q child with
  | zero =>
    have hnil : word stk = [] := List.eq_nil_of_length_eq_zero ((length_word stk).trans hfuel)
    obtain rfl := word_eq_nil.1 hnil
    rfl
  | succ fuel ih =>
    cases stk with
    | nil => exact absurd hfuel (Nat.succ_ne_zero fuel).symm
    | cons v stk =>
      rw [stackSize_cons] at hfuel
      rw [word_cons, WordTree.addRest, insertRest, ← wordTree_insertNode]
      exact ih (v.pushes ++ stk) (v.data :: q) _ (Nat.succ_injective hfuel)

/-- `delete_path` removes the word that leads to the node. -/
theorem wordTree_deletePath (p : TriePath) (child : TriePath → TrieChild) :
    wordTree (deletePath nodeId child p) =
      WordTree.prune (hashItem nodeId) (wordTree child) p := by
  induction p generalizing child with
  | nil =>
    rw [deletePath, wordTree_update]
    rfl
  | cons d p ih =>
    have hclear : Function.update (wordTree child) (d :: p) (.siblings []) =
        wordTree (Function.update child (d :: p) (.siblings [])) :=
      (wordTree_update (d :: p) (.siblings [])).symm
    rw [deletePath, WordTree.prune]
    simp only [hclear]
    generalize Function.update child (d :: p) (.siblings []) = child'
    have hremove : (wordTree child' p).remove (hashItem nodeId) d =
        (removeChild nodeId d (child' p)).map level := (map_level_removeChild d _).symm
    rw [hremove]
    cases removeChild nodeId d (child' p) with
    | none => exact ih child'
    | some c => exact wordTree_update p c

namespace Shape

/-- A node with children is not a leaf. -/
theorem ne_leaf_of_mem {p : TriePath} {d : TrieData} (h : d ∈ children (child p)) :
    child p ≠ .leaf := by
  intro hleaf
  rw [hleaf] at h
  simp [children] at h

/-- Two leaves with one address are the same leaf. -/
theorem eq_of_node_eq (hS : Shape nodeId fields child leaves) {l m : TrieLeaf} (hl : l ∈ leaves)
    (hm : m ∈ leaves) (h : l.node = m.node) : l = m := by
  have hword : word l.tpl = word m.tpl := by
    rw [(hS.node_eq l hl).2, (hS.node_eq m hm).2] at h
    exact List.reverse_injective h
  have htpl : l.tpl = m.tpl := by
    refine word_inj (r := []) (hS.node_eq l hl).1 (hS.node_eq m hm).1 ?_
    rw [List.append_nil, hword]
  exact List.inj_on_of_nodup_map hS.nodup hl hm htpl

/-- The address of a leaf is not a proper prefix of the word of a tuple. -/
theorem eq_tpl_of_suffix (hS : Shape nodeId fields child leaves) {l : TrieLeaf} (hl : l ∈ leaves)
    {tpl : Tuple} (ht : TupleHasType tpl fields) (h : l.node <:+ (word tpl).reverse) :
    l.tpl = tpl := by
  rw [(hS.node_eq l hl).2, List.reverse_suffix] at h
  obtain ⟨r, hr⟩ := h
  exact word_inj (hS.node_eq l hl).1 ht hr

/-- The word of a tuple is not a proper prefix of the address of a leaf. -/
theorem tpl_eq_of_suffix (hS : Shape nodeId fields child leaves) {l : TrieLeaf} (hl : l ∈ leaves)
    {tpl : Tuple} (ht : TupleHasType tpl fields) (h : (word tpl).reverse <:+ l.node) :
    l.tpl = tpl := by
  rw [(hS.node_eq l hl).2, List.reverse_suffix] at h
  obtain ⟨r, hr⟩ := h
  exact (word_inj ht (hS.node_eq l hl).1 hr).symm

/-! ## Where the descent stops -/

/-- The word of a tuple without a leaf is apart from those of the leaves. -/
theorem apart (hS : Shape nodeId fields child leaves) {tpl : Tuple} (ht : TupleHasType tpl fields)
    (habs : ∀ l ∈ leaves, l.tpl ≠ tpl) :
    WordTree.Apart (addresses leaves) (word tpl).reverse := by
  rintro _ ⟨l, hl, rfl⟩
  exact ⟨fun hsuf => habs l hl (hS.eq_tpl_of_suffix hl ht hsuf),
    fun hsuf => habs l hl (hS.tpl_eq_of_suffix hl ht hsuf)⟩

/-- The descent follows the word of a leaf to its end. -/
theorem descend_of_mem (hS : Shape nodeId fields child leaves) {l : TrieLeaf} (hl : l ∈ leaves)
    (stk : List Value) (p : TriePath) (hnode : l.node = (word stk).reverse ++ p) (fuel : ℕ)
    (hfuel : stackSize stk = fuel) : descend nodeId child fuel p stk = (l.node, []) := by
  have hgrown := tree_iff_grown.1 hS.toTree
  have hdescend := @descend_eq nodeId child stk p fuel hfuel
  rw [hgrown.descend_of_mem (word stk) p ⟨l, hl, hnode⟩, ← hnode] at hdescend
  obtain ⟨hend, hrest⟩ := Prod.mk.inj hdescend
  exact Prod.ext hend.symm (word_eq_nil.1 hrest.symm)

/-- The descent for a tuple that is not there stops at a node of the trie that has no child for the
next symbol. -/
theorem descend_of_not_mem (hS : Shape nodeId fields child leaves) {tpl : Tuple}
    (ht : TupleHasType tpl fields) (habs : ∀ l ∈ leaves, l.tpl ≠ tpl) (stk : List Value)
    (p : TriePath) (hp : word tpl = p.reverse ++ word stk)
    (hin : p = [] ∨ ∃ l ∈ leaves, p <:+ l.node) (hne : word tpl ≠ []) (fuel : ℕ)
    (hfuel : stackSize stk = fuel) :
    ∃ q v rest, descend nodeId child fuel p stk = (q, v :: rest) ∧
      word tpl = q.reverse ++ word (v :: rest) ∧ v.data ∉ children (child q) ∧
      child q ≠ .leaf ∧ (q = [] ∨ ∃ l ∈ leaves, q <:+ l.node) := by
  have hgrown := tree_iff_grown.1 hS.toTree
  have hend : (word stk).reverse ++ p = (word tpl).reverse := by
    rw [hp, List.reverse_append, List.reverse_reverse]
  obtain ⟨u, d, w, hsplit, hstop, hd, hleaf, hhas⟩ := hgrown.descend_of_notMem (word stk) p
    (by rw [hend]; exact fun hnil => hne (List.reverse_eq_nil_iff.1 hnil))
    (by rw [hend]; exact hS.apart ht habs) (hin.imp_right exists_addresses.2)
  rw [descend_eq stk p fuel hfuel] at hstop
  obtain ⟨hq, hrest⟩ := Prod.mk.inj hstop
  obtain ⟨q, stk', hdescend⟩ : ∃ q stk', descend nodeId child fuel p stk = (q, stk') := ⟨_, _, rfl⟩
  rw [hdescend] at hq hrest
  obtain rfl : q = u.reverse ++ p := hq
  cases stk' with
  | nil => exact absurd hrest (List.cons_ne_nil _ _).symm
  | cons v rest =>
    have hword : word (v :: rest) = d :: w := hrest
    rw [word_cons] at hword
    obtain rfl : v.data = d := (List.cons.inj hword).1
    rw [children_wordTree] at hd
    rw [Ne, wordTree_eq_leaf] at hleaf
    refine ⟨_, v, rest, hdescend, ?_, hd, hleaf, hhas.imp_right exists_addresses.1⟩
    rw [hp, hsplit, word_cons, hword, List.reverse_append, List.reverse_reverse, List.append_assoc]

end Shape

/-! ## Adding a word -/

/-- The addresses on the way from `q` along `w` are not in use. -/
def Fresh (child : TriePath → TrieChild) (q : TriePath) (w : List TrieData) : Prop :=
  ∀ u, u ≠ [] → u <+: w → child (u.reverse ++ q) = .siblings []

theorem insertNode_eq {q : TriePath} {d : TrieData} (h : child (d :: q) = .siblings []) :
    insertNode nodeId child q d = Function.update child q (addChild nodeId d (child q)) := by
  have hne : d :: q ≠ q := List.cons_ne_self d q
  rw [insertNode]
  conv_rhs => rw [← Function.update_eq_self (d :: q)
    (Function.update child q (addChild nodeId d (child q)))]
  rw [Function.update_of_ne hne, h]

/-- `insertRest` does not change the order of the children that are there. -/
theorem insertRest_sublist (stk : List Value) (q : TriePath) (child : TriePath → TrieChild)
    (fuel : ℕ) (hfuel : stackSize stk = fuel) (hfresh : Fresh child q (word stk)) (p : TriePath) :
    (children (child p)).Sublist (children ((insertRest nodeId child fuel q stk).1 p)) := by
  induction fuel generalizing stk q child with
  | zero => rw [insertRest.eq_def]
  | succ fuel ih =>
    cases stk with
    | nil => exact List.Sublist.refl _
    | cons v stk =>
      rw [word_cons] at hfresh
      have hnew : child (v.data :: q) = .siblings [] :=
        hfresh [v.data] (List.cons_ne_nil _ _) (by simp)
      rw [insertRest, insertNode_eq hnew]
      refine List.Sublist.trans ?_ (ih (v.pushes ++ stk) (v.data :: q) _
        (by rw [stackSize_cons] at hfuel; exact Nat.succ_injective hfuel) ?_)
      · by_cases hp : p = q
        · rw [hp, Function.update_self]
          exact sublist_addChild _ _
        · rw [Function.update_of_ne hp]
      · intro u hu hpre
        have hne : u.reverse ++ v.data :: q ≠ q := by
          intro h
          have := congrArg List.length h
          simp at this
          omega
        rw [Function.update_of_ne hne]
        simpa using hfresh (v.data :: u) (List.cons_ne_nil _ _) (by simpa using hpre)

/-- Below the node where the descent stops, nothing is in use along the rest of the word. -/
theorem Shape.fresh (hS : Shape nodeId fields child leaves) {q : TriePath} {d : TrieData}
    {w : List TrieData} (hd : d ∉ children (child q)) : Fresh child q (d :: w) := by
  intro u hu hpre
  rw [← children_wordTree] at hd
  exact level_eq_siblings.1 ((tree_iff_grown.1 hS.toTree).fresh hd u hu hpre)

/-- Rearranging the children of one node does not matter. -/
theorem Shape.update_of_perm (hS : Shape nodeId fields child leaves) {q : TriePath} {c : TrieChild}
    (hperm : (children c).Perm (children (child q))) (hleaf : c = .leaf ↔ child q = .leaf)
    (hok : ChildOk nodeId c) : Shape nodeId fields (Function.update child q c) leaves := by
  have hc : WordTree.Level.Rearranged (hashItem nodeId) (wordTree child q) (level c) := by
    refine ⟨?_, ?_, ok_level.2 hok⟩
    · rw [children_level, children_wordTree]
      exact hperm
    · rw [level_eq_leaf, wordTree_eq_leaf]
      exact hleaf
  refine ⟨tree_iff_grown.2 ?_, hS.node_eq, hS.nodup⟩
  rw [wordTree_update]
  exact (tree_iff_grown.1 hS.toTree).rearrange hc

/-- A tuple that was not there gets its path and its leaf. -/
theorem Shape.insertNew (hS : Shape nodeId fields child leaves) {tpl : Tuple}
    (ht : TupleHasType tpl fields) (habs : ∀ l ∈ leaves, l.tpl ≠ tpl) {q : TriePath} {v : Value}
    {rest : List Value} (hword : word tpl = q.reverse ++ word (v :: rest))
    (hd : v.data ∉ children (child q)) (hleaf : child q ≠ .leaf)
    (hin : q = [] ∨ ∃ l ∈ leaves, q <:+ l.node) :
    let r := insertRest nodeId child (stackSize (v :: rest)) q (v :: rest)
    r.2 = (word tpl).reverse ∧
      Shape nodeId fields (Function.update r.1 r.2 .leaf) (leaves ++ [⟨r.2, tpl, 1⟩]) := by
  intro r
  have hend : (v.data :: word (v.pushes ++ rest)).reverse ++ q = (word tpl).reverse := by
    rw [hword, word_cons, List.reverse_append, List.reverse_reverse]
  have hadd := @addRest_eq nodeId (v :: rest) q child _ rfl
  rw [word_cons] at hadd
  obtain ⟨hlast, hgrown⟩ := (tree_iff_grown.1 hS.toTree).addRest
    (by rw [children_wordTree]; exact hd) (by rw [Ne, wordTree_eq_leaf]; exact hleaf)
    (hin.imp_right exists_addresses.2) (by rw [hend]; exact hS.apart ht habs)
  rw [hadd, hend] at hlast hgrown
  have hr : r.2 = (word tpl).reverse := hlast
  have haddresses : addresses (leaves ++ [⟨r.2, tpl, 1⟩]) =
      insert (word tpl).reverse (addresses leaves) := by
    ext p
    simp only [addresses, hr, List.mem_append, List.mem_singleton, Set.mem_insert_iff,
      Set.mem_ofPred_eq, or_and_right, exists_or, exists_eq_left]
    rw [or_comm, eq_comm]
  refine ⟨hr, ⟨tree_iff_grown.2 ?_, ?_, ?_⟩⟩
  · rw [wordTree_update, haddresses, hr]
    exact hgrown
  · intro l hl
    rcases List.mem_append.1 hl with hl | hl
    · exact hS.node_eq l hl
    · obtain rfl := List.mem_singleton.1 hl
      exact ⟨ht, hr⟩
  · rw [List.map_append, List.map_singleton]
    refine List.Nodup.append hS.nodup (List.nodup_singleton _) ?_
    intro t htl htr
    obtain ⟨l, hl, rfl⟩ := List.mem_map.1 htl
    exact habs l hl (List.mem_singleton.1 htr)

/-! ## Removing a word -/

/-- The trie of the given leaves, with the branch that leads to `p` still in it: `p` is about to be
removed by `delete_path`. -/
structure Pruning (nodeId : BitVec 64 → ℕ) (child : TriePath → TrieChild)
    (leaves : List TrieLeaf) (p : TriePath) : Prop where
  none_below : ∀ l ∈ leaves, ¬ p <:+ l.node
  leaf_iff : ∀ q, q ≠ p → (child q = .leaf ↔ ∃ l ∈ leaves, l.node = q)
  mem_children : ∀ q d, q ≠ p →
    (d ∈ children (child q) ↔ (∃ l ∈ leaves, d :: q <:+ l.node) ∨ d :: q <:+ p)
  childOk : ∀ q, q ≠ p → ChildOk nodeId (child q)

/-- `delete_path` leaves the tree of the remaining leaves. -/
theorem Pruning.deletePath {p : TriePath} (hP : Pruning nodeId child leaves p) :
    Tree nodeId (deletePath nodeId child p) leaves := by
  rw [tree_iff_grown, wordTree_deletePath]
  refine WordTree.Pruning.prune ⟨?_, fun q hq => ?_, fun q d hq => ?_,
    fun q hq => ok_level.2 (hP.childOk q hq)⟩
  · rintro _ ⟨l, hl, rfl⟩
    exact hP.none_below l hl
  · rw [wordTree_eq_leaf]
    exact hP.leaf_iff q hq
  · rw [children_wordTree, exists_addresses]
    exact hP.mem_children q d hq

/-- Taking a leaf out of the chain and removing its path keeps the shape. -/
theorem Shape.deletePath (hS : Shape nodeId fields child leaves) {l₀ : TrieLeaf}
    (hl₀ : l₀ ∈ leaves) :
    Shape nodeId fields (Trie.deletePath nodeId child l₀.node)
      (leaves.filter fun l => l.node ≠ l₀.node) := by
  have hmem : ∀ l, l ∈ leaves.filter (fun l => l.node ≠ l₀.node) ↔
      l ∈ leaves ∧ l.node ≠ l₀.node := by
    intro l
    simp
  have hP : Pruning nodeId child (leaves.filter fun l => l.node ≠ l₀.node) l₀.node := by
    refine ⟨?_, ?_, ?_, fun q _ => hS.childOk q⟩
    · intro l hl hsuf
      obtain ⟨hl, hne⟩ := (hmem l).1 hl
      rw [(hS.node_eq l₀ hl₀).2] at hsuf
      have htpl := hS.tpl_eq_of_suffix hl (hS.node_eq l₀ hl₀).1 hsuf
      exact hne (by rw [(hS.node_eq l hl).2, (hS.node_eq l₀ hl₀).2, htpl])
    · intro q hq
      rw [hS.leaf_iff]
      constructor
      · rintro ⟨l, hl, rfl⟩
        exact ⟨l, (hmem l).2 ⟨hl, hq⟩, rfl⟩
      · rintro ⟨l, hl, rfl⟩
        exact ⟨l, ((hmem l).1 hl).1, rfl⟩
    · intro q d _
      rw [hS.mem_children]
      constructor
      · rintro ⟨l, hl, hsuf⟩
        by_cases hne : l.node = l₀.node
        · exact Or.inr (hne ▸ hsuf)
        · exact Or.inl ⟨l, (hmem l).2 ⟨hl, hne⟩, hsuf⟩
      · rintro (⟨l, hl, hsuf⟩ | hsuf)
        · exact ⟨l, ((hmem l).1 hl).1, hsuf⟩
        · exact ⟨l₀, hl₀, hsuf⟩
  refine ⟨hP.deletePath, fun l hl => hS.node_eq l ((hmem l).1 hl).1, ?_⟩
  exact hS.nodup.sublist (List.filter_sublist.map _)

/-! ## Counting references -/

theorem mem_updateCount {p : TriePath} {f : ℕ → ℕ} {m : TrieLeaf} :
    m ∈ updateCount p f leaves ↔
      ∃ l ∈ leaves, m = if l.node = p then { l with count := f l.count } else l := by
  rw [updateCount, List.mem_map]
  exact exists_congr fun l => and_congr_right fun _ => eq_comm

/-- Counting a reference does not move a leaf or change its tuple. -/
theorem updateCount_node_tpl (p : TriePath) (f : ℕ → ℕ) (l : TrieLeaf) :
    (if l.node = p then { l with count := f l.count } else l).node = l.node ∧
      (if l.node = p then { l with count := f l.count } else l).tpl = l.tpl := by
  split <;> exact ⟨rfl, rfl⟩

theorem map_tpl_updateCount (p : TriePath) (f : ℕ → ℕ) (leaves : List TrieLeaf) :
    (updateCount p f leaves).map TrieLeaf.tpl = leaves.map TrieLeaf.tpl := by
  rw [updateCount, List.map_map]
  exact List.map_congr_left fun l _ => (updateCount_node_tpl p f l).2

/-- Without the leaf that was changed nothing has changed. -/
theorem filter_updateCount (p : TriePath) (f : ℕ → ℕ) (leaves : List TrieLeaf) :
    (updateCount p f leaves).filter (fun m => m.node ≠ p) =
      leaves.filter fun m => m.node ≠ p := by
  rw [updateCount, List.filter_map]
  have hcomp : ((fun m : TrieLeaf => decide (m.node ≠ p)) ∘ fun m : TrieLeaf =>
      if m.node = p then { m with count := f m.count } else m) = fun m => decide (m.node ≠ p) := by
    funext m
    simp only [Function.comp_apply, (updateCount_node_tpl p f m).1]
  rw [hcomp]
  refine (List.map_congr_left fun m hm => ?_).trans (List.map_id _)
  have hne : m.node ≠ p := by simpa using (List.mem_filter.1 hm).2
  rw [if_neg hne, id]

/-- A property of addresses holds of a leaf of the one chain exactly when it holds of a leaf of the
other. -/
theorem exists_updateCount {p : TriePath} {f : ℕ → ℕ} {P : TriePath → Prop} :
    (∃ l ∈ updateCount p f leaves, P l.node) ↔ ∃ l ∈ leaves, P l.node := by
  simp only [mem_updateCount]
  constructor
  · rintro ⟨_, ⟨l, hl, rfl⟩, hP⟩
    exact ⟨l, hl, (updateCount_node_tpl p f l).1 ▸ hP⟩
  · rintro ⟨l, hl, hP⟩
    exact ⟨_, ⟨l, hl, rfl⟩, (updateCount_node_tpl p f l).1.symm ▸ hP⟩

/-- Counting references keeps the shape. -/
theorem Shape.updateCount (hS : Shape nodeId fields child leaves) (p : TriePath) (f : ℕ → ℕ) :
    Shape nodeId fields child (Trie.updateCount p f leaves) where
  leaf_iff := fun q => (hS.leaf_iff q).trans
    (exists_updateCount (P := fun node => node = q)).symm
  mem_children := fun q d => (hS.mem_children q d).trans
    (exists_updateCount (P := fun node => d :: q <:+ node)).symm
  childOk := hS.childOk
  node_eq := by
    intro m hm
    obtain ⟨l, hl, rfl⟩ := mem_updateCount.1 hm
    rw [(updateCount_node_tpl p f l).1, (updateCount_node_tpl p f l).2]
    exact hS.node_eq l hl
  nodup := by
    rw [map_tpl_updateCount]
    exact hS.nodup

end Trie

end Meld
