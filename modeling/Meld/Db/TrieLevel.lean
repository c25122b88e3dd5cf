import Meld.Db.Trie
import Meld.Lib.WordTree

/-!
# Words and levels of the trie

Two things the trie rests on: the words of the tuples of one predicate are prefix free, and a level
behaves as a set of symbols whether it is a sibling list or a hash table.

* `word`: the word of a match stack, and `word_inj`: typed words are prefix free.
* `children`, `ChildOk`: the symbols of a level, and when a level is well formed.
* `level`, `ok_level`, `level_addChild`, `map_level_removeChild`: a level is one of a tree of words,
  with the same operations.
* `perm_restructure`, `ChildOk.restructure`: what restructuring does to a level.
-/

namespace Meld

/-! ## Words -/

namespace Value

/-- The symbols of a value. -/
def word : Value → List TrieData
  | .cons head tail => .ptr true :: (head.word ++ tail.word)
  | .int i => [.int i]
  | .float x => [.float x]
  | .node n => [.node n]
  | .nil => [.ptr false]

@[simp] theorem length_word (v : Value) : v.word.length = v.size := by
  induction v with
  | cons head tail ihh iht =>
    simp only [word, List.length_cons, List.length_append, ihh, iht, size]
    omega
  | _ => rfl

end Value

namespace Trie

/-- The symbols of a match stack. -/
def word (stk : List Value) : List TrieData := stk.flatMap Value.word

@[simp] theorem word_nil : word [] = [] := rfl

/-- The symbol of the top of the stack, then those of what it pushes. -/
theorem word_cons (v : Value) (stk : List Value) :
    word (v :: stk) = v.data :: word (v.pushes ++ stk) := by
  cases v <;> simp [word, Value.word, Value.data, Value.pushes]

theorem length_word (stk : List Value) : (word stk).length = stackSize stk := by
  simp only [word, List.length_flatMap, stackSize]
  congr 1
  exact List.map_congr_left fun v _ => v.length_word

theorem stackSize_cons (v : Value) (stk : List Value) :
    stackSize (v :: stk) = stackSize (v.pushes ++ stk) + 1 := by
  rw [← length_word, ← length_word, word_cons, List.length_cons]

/-- A value of a type can be told where it ends. -/
theorem Value.word_inj {v w : Value} {t : FieldType} (hv : HasType v t) (hw : HasType w t)
    {r s : List TrieData} (h : v.word ++ r = w.word ++ s) : v = w ∧ r = s := by
  induction hv generalizing w r s with
  | int i =>
    cases hw with
    | int j => simpa [Value.word] using h
  | float x =>
    cases hw with
    | float y => simpa [Value.word] using h
  | node n =>
    cases hw with
    | node m => simpa [Value.word] using h
  | nil t =>
    cases hw with
    | nil => simpa [Value.word] using h
    | cons hhead htail => simp [Value.word] at h
  | cons hhead htail ihh iht =>
    cases hw with
    | nil => simp [Value.word] at h
    | cons hhead' htail' =>
      simp only [Value.word, List.cons_append, List.cons.injEq, true_and, List.append_assoc] at h
      obtain ⟨rfl, htails⟩ := ihh hhead' h
      obtain ⟨rfl, hrest⟩ := iht htail' htails
      exact ⟨rfl, hrest⟩

/-- The words of the tuples of a predicate are prefix free. -/
theorem word_inj {s t : Tuple} {fields : List FieldType} (hs : TupleHasType s fields)
    (ht : TupleHasType t fields) {r : List TrieData} (h : word s ++ r = word t) : s = t := by
  induction hs generalizing t r with
  | nil =>
    cases ht
    rfl
  | @cons v ty vs tys hv _ ih =>
    cases ht with
    | @cons w _ ws _ hw hws =>
      have hcons (u : Value) (us : List Value) : word (u :: us) = u.word ++ word us := rfl
      rw [hcons, hcons, List.append_assoc] at h
      obtain ⟨rfl, hrest⟩ := Value.word_inj hv hw h
      rw [ih hws hrest]

/-- A tuple of a predicate with fields has a symbol. -/
theorem word_ne_nil {t : Tuple} {fields : List FieldType} (ht : TupleHasType t fields)
    (hne : fields ≠ []) : word t ≠ [] := by
  cases ht with
  | nil => exact absurd rfl hne
  | @cons v _ vs _ _ _ =>
    rw [word_cons]
    exact List.cons_ne_nil _ _

/-! ## One level -/

/-- The children of a node, in the order in which a walk meets them. -/
def children : TrieChild → List TrieData
  | .leaf => []
  | .siblings nodes => nodes
  | .hash _ buckets => buckets.flatten

variable (nodeId : BitVec 64 → ℕ)

/-- A level is well formed: no two children carry the same symbol, and a hash table has its items in
the right buckets, counts them, and is not empty. -/
def ChildOk : TrieChild → Prop
  | .leaf => True
  | .siblings nodes => nodes.Nodup
  | .hash total buckets =>
    Buckets.Placed (hashItem nodeId) buckets ∧ buckets.flatten.Nodup ∧
      total = buckets.flatten.length ∧ buckets.flatten ≠ []

variable {nodeId}

/-- The level as one of a tree of words. -/
def level : TrieChild → WordTree.Level TrieData
  | .leaf => .leaf
  | .siblings nodes => .siblings nodes
  | .hash total buckets => .hash total buckets

@[simp] theorem children_level (c : TrieChild) : (level c).children = children c := by
  cases c <;> rfl

theorem level_eq_leaf {c : TrieChild} : level c = .leaf ↔ c = .leaf := by
  cases c <;> simp [level]

theorem level_eq_siblings {c : TrieChild} {nodes : List TrieData} :
    level c = .siblings nodes ↔ c = .siblings nodes := by
  cases c <;> simp [level]

theorem ok_level {c : TrieChild} : (level c).Ok (hashItem nodeId) ↔ ChildOk nodeId c := by
  cases c <;> rfl

@[simp] theorem candidates_level (c : TrieChild) (d : TrieData) :
    (level c).candidates (hashItem nodeId) d = candidates nodeId c d := by
  cases c <;> rfl

theorem level_addChild (d : TrieData) (c : TrieChild) :
    level (addChild nodeId d c) = (level c).add (hashItem nodeId) d := by
  cases c <;> rfl

theorem map_level_removeChild (d : TrieData) (c : TrieChild) :
    (removeChild nodeId d c).map level = (level c).remove (hashItem nodeId) d := by
  cases c with
  | leaf => rfl
  | siblings nodes =>
    rw [removeChild, level, WordTree.Level.remove]
    split <;> rfl
  | hash total buckets =>
    rw [removeChild, level, WordTree.Level.remove]
    split <;> rfl

theorem ChildOk.nodup {c : TrieChild} (hc : ChildOk nodeId c) : (children c).Nodup := by
  rw [← children_level]
  exact (ok_level.2 hc).nodup

theorem length_candidates_le {c : TrieChild} (hc : ChildOk nodeId c) (d : TrieData) :
    (candidates nodeId c d).length ≤ (children c).length := by
  rw [← candidates_level, ← children_level]
  exact ((ok_level.2 hc).candidates_sublist d).length_le

/-- Restructuring a level keeps its children, in another order. -/
theorem perm_restructure {c : TrieChild} (hc : ChildOk nodeId c) (count : ℕ) :
    (children (restructure nodeId count c)).Perm (children c) := by
  cases c with
  | leaf => exact List.Perm.refl _
  | siblings nodes =>
    rw [restructure]
    split
    · exact Buckets.perm_rehash (by decide) nodes
    · exact List.Perm.refl _
  | hash total buckets =>
    rw [restructure]
    split
    · exact Buckets.perm_rehash (Nat.mul_pos Nat.two_pos hc.1.pos) _
    · exact List.Perm.refl _

theorem restructure_eq_leaf {c : TrieChild} {count : ℕ} :
    restructure nodeId count c = .leaf ↔ c = .leaf := by
  cases c <;> rw [restructure] <;> first | rfl | (split <;> simp)

/-- Restructuring keeps a level well formed; a sibling list that is converted was not empty. -/
theorem ChildOk.restructure {c : TrieChild} (hc : ChildOk nodeId c) {count : ℕ}
    (hcount : count ≤ (children c).length + 1) : ChildOk nodeId (restructure nodeId count c) := by
  have hok : (level c).Ok (hashItem nodeId) := ok_level.2 hc
  cases c with
  | leaf => trivial
  | siblings nodes =>
    rw [Trie.restructure]
    split
    · rename_i hgt
      have hne : nodes ≠ [] := by
        rintro rfl
        exact absurd (hgt.trans_le hcount) (by decide)
      exact ok_level.1 (hok.convert (by decide) hne).ok
    · exact hc
  | hash total buckets =>
    rw [Trie.restructure]
    split
    · exact ok_level.1 hok.expand.ok
    · exact hc

/-- A level without children that is not a leaf is a null pointer. -/
theorem ChildOk.eq_siblings_nil {c : TrieChild} (hc : ChildOk nodeId c) (hleaf : c ≠ .leaf)
    (hnil : children c = []) : c = .siblings [] :=
  level_eq_siblings.1 ((ok_level.2 hc).eq_siblings_nil (fun h => hleaf (level_eq_leaf.1 h))
    ((children_level c).trans hnil))

/-- A new child does not change the order of the others. -/
theorem sublist_addChild (c : TrieChild) (d : TrieData) :
    (children c).Sublist (children (addChild nodeId d c)) := by
  cases c with
  | leaf => exact List.Sublist.refl _
  | siblings nodes => exact List.sublist_cons_self _ _
  | hash total buckets => exact Buckets.sublist_insert buckets d

end Trie

end Meld
