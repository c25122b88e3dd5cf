import Meld.Lib.Buckets
import Mathlib.Data.List.Infix
import Mathlib.Data.Set.Insert

/-!
# Trees of words

A tree whose nodes are the prefixes of a set of words, none of which is a prefix of another.  The
children of a node are a list of siblings or a hash table of symbols.  A node is addressed by the
word that leads to it, read backwards: the parent of `d :: p` is `p`, and the root is `[]`.

* `Level`: the children of a node, with `add`, `convert`, `expand` and `remove`.
* `descend`, `addRest`, `prune`: following a word, adding the rest of one, removing one.
* `Grown`: the tree is the one of a set of addresses.
* `Grown.descend_of_mem`, `Grown.descend_of_notMem`, `Grown.addRest`, `Grown.prune`: the operations.
-/

namespace Meld
namespace WordTree

variable {α : Type*} (h : α → ℕ)

/-- The children of a node: the node is a leaf, or they are a list of siblings, or they are in a
hash table with its total. -/
inductive Level (α : Type*) where
  | leaf
  | siblings (nodes : List α)
  | hash (total : ℕ) (buckets : List (List α))
  deriving DecidableEq

namespace Level

/-- The symbols of a level, in the order of a walk. -/
def children : Level α → List α
  | .leaf => []
  | .siblings nodes => nodes
  | .hash _ buckets => buckets.flatten

/-- The symbols that a search for a symbol goes through. -/
def candidates : Level α → α → List α
  | .leaf, _ => []
  | .siblings nodes, _ => nodes
  | .hash _ buckets, d => Buckets.bucketOf h buckets d

/-- A new symbol at the head of its list. -/
def add (d : α) : Level α → Level α
  | .leaf => .leaf
  | .siblings nodes => .siblings (d :: nodes)
  | .hash total buckets => .hash (total + 1) (Buckets.insert h buckets d)

/-- A list of siblings becomes a hash table. -/
def convert (n : ℕ) : Level α → Level α
  | .siblings nodes => .hash nodes.length (Buckets.rehash h n nodes)
  | c => c

/-- A hash table gets twice as many buckets. -/
def expand : Level α → Level α
  | .hash total buckets =>
    .hash total (Buckets.rehash h (2 * buckets.length) buckets.flatten)
  | c => c

/-- A level without one of its symbols, and `none` when nothing is left; a table goes when its total
reaches zero and the symbol was first in its bucket. -/
def remove [DecidableEq α] (d : α) : Level α → Option (Level α)
  | .leaf => some .leaf
  | .siblings nodes => if nodes.erase d = [] then none else some (.siblings (nodes.erase d))
  | .hash total buckets =>
    if total - 1 = 0 ∧ (Buckets.bucketOf h buckets d).head? = some d then none
    else some (.hash (total - 1) (Buckets.erase h buckets d))

/-- No symbol twice, and a hash table has its symbols in their buckets, counts them, and is not
empty. -/
def Ok : Level α → Prop
  | .leaf => True
  | .siblings nodes => nodes.Nodup
  | .hash total buckets =>
    Buckets.Placed h buckets ∧ buckets.flatten.Nodup ∧ total = buckets.flatten.length ∧
      buckets.flatten ≠ []

variable {h} {c : Level α} {d : α}

theorem Ok.nodup (hc : Ok h c) : c.children.Nodup := by
  cases c with
  | leaf => exact List.nodup_nil
  | siblings nodes => exact hc
  | hash total buckets => exact hc.2.1

/-- A search goes through a symbol exactly when it is there. -/
theorem Ok.mem_candidates (hc : Ok h c) (d : α) : d ∈ candidates h c d ↔ d ∈ c.children := by
  cases c with
  | leaf => rfl
  | siblings nodes => rfl
  | hash total buckets => exact (hc.1.mem_flatten d).symm

theorem Ok.candidates_sublist (hc : Ok h c) (d : α) :
    (candidates h c d).Sublist c.children := by
  cases c with
  | leaf => exact List.nil_sublist _
  | siblings nodes => exact List.Sublist.refl _
  | hash total buckets => exact Buckets.bucketOf_sublist hc.1.pos d

/-- A level without symbols that is not a leaf is the empty list of siblings. -/
theorem Ok.eq_siblings_nil (hc : Ok h c) (hleaf : c ≠ .leaf) (hnil : c.children = []) :
    c = .siblings [] := by
  cases c with
  | leaf => exact absurd rfl hleaf
  | siblings nodes => exact congrArg _ hnil
  | hash total buckets => exact absurd hnil hc.2.2.2

/-- `c'` is `c` in another arrangement. -/
structure Rearranged (h : α → ℕ) (c c' : Level α) : Prop where
  perm : c'.children.Perm c.children
  leaf : c' = .leaf ↔ c = .leaf
  ok : Ok h c'

theorem Rearranged.refl (hc : Ok h c) : Rearranged h c c := ⟨List.Perm.refl _, Iff.rfl, hc⟩

theorem Ok.convert (hc : Ok h c) {n : ℕ} (hn : 0 < n) (hne : c.children ≠ []) :
    Rearranged h c (convert h n c) := by
  cases c with
  | siblings nodes =>
    have hperm := Buckets.perm_rehash (h := h) hn nodes
    refine ⟨hperm, by simp [Level.convert], Buckets.placed_rehash hn nodes, hperm.nodup_iff.2 hc,
      hperm.length_eq.symm, fun hnil => ?_⟩
    rw [hnil] at hperm
    exact hne hperm.symm.eq_nil
  | leaf => exact .refl hc
  | hash total buckets => exact .refl hc

theorem Ok.expand (hc : Ok h c) : Rearranged h c (expand h c) := by
  cases c with
  | hash total buckets =>
    obtain ⟨hplaced, hnodup, htotal, hne⟩ := hc
    have hpos : 0 < 2 * buckets.length := Nat.mul_pos Nat.two_pos hplaced.pos
    have hperm := Buckets.perm_rehash (h := h) hpos buckets.flatten
    refine ⟨hperm, by simp [Level.expand], Buckets.placed_rehash hpos _, hperm.nodup_iff.2 hnodup,
      htotal.trans hperm.length_eq.symm, fun hnil => ?_⟩
    rw [hnil] at hperm
    exact hne hperm.symm.eq_nil
  | leaf => exact .refl hc
  | siblings nodes => exact .refl hc

theorem Ok.perm_add (hc : Ok h c) (hleaf : c ≠ .leaf) (d : α) :
    (add h d c).children.Perm (d :: c.children) := by
  cases c with
  | leaf => exact absurd rfl hleaf
  | siblings nodes => exact List.Perm.refl _
  | hash total buckets => exact Buckets.perm_insert hc.1.pos d

theorem add_eq_leaf : add h d c = .leaf ↔ c = .leaf := by
  cases c <;> simp [add]

theorem Ok.add (hc : Ok h c) (hd : d ∉ c.children) : Ok h (add h d c) := by
  cases c with
  | leaf => trivial
  | siblings nodes => exact List.nodup_cons.2 ⟨hd, hc⟩
  | hash total buckets =>
    obtain ⟨hplaced, hnodup, htotal, hne⟩ := hc
    have hperm := Buckets.perm_insert (h := h) hplaced.pos d
    refine ⟨hplaced.insert d, hperm.nodup_iff.2 (List.nodup_cons.2 ⟨hd, hnodup⟩), ?_, ?_⟩
    · rw [hperm.length_eq, List.length_cons, htotal]
    · intro hnil
      rw [hnil] at hperm
      exact List.cons_ne_nil _ _ hperm.symm.eq_nil

/-- Taking a symbol out: nothing is left exactly when it was the only one. -/
theorem Ok.remove [DecidableEq α] (hc : Ok h c) (hd : d ∈ c.children) :
    match remove h d c with
    | none => ∀ e ∈ c.children, e = d
    | some c' => Ok h c' ∧ c' ≠ .leaf ∧ c'.children ≠ [] ∧ c.children.Perm (d :: c'.children) := by
  cases c with
  | leaf => exact absurd hd List.not_mem_nil
  | siblings nodes =>
    have hperm : nodes.Perm (d :: nodes.erase d) := List.perm_cons_erase hd
    rw [Level.remove]
    by_cases hnil : nodes.erase d = []
    · rw [if_pos hnil]
      intro e he
      have hin := hperm.subset he
      rw [hnil] at hin
      exact List.mem_singleton.1 hin
    · rw [if_neg hnil]
      exact ⟨List.Nodup.erase d hc, nofun, hnil, hperm⟩
  | hash total buckets =>
    obtain ⟨hplaced, hnodup, htotal, hne⟩ := hc
    have hperm := hplaced.perm_erase hd
    have honly : (Buckets.erase h buckets d).flatten = [] → ∀ e ∈ buckets.flatten, e = d := by
      intro hnil e he
      have hin := hperm.subset he
      rw [hnil] at hin
      exact List.mem_singleton.1 hin
    have hlen : total - 1 = (Buckets.erase h buckets d).flatten.length := by
      rw [htotal, hperm.length_eq, List.length_cons, Nat.add_sub_cancel]
    rw [Level.remove]
    by_cases hlast : total - 1 = 0 ∧ (Buckets.bucketOf h buckets d).head? = some d
    · rw [if_pos hlast]
      exact honly (List.eq_nil_of_length_eq_zero (hlen.symm.trans hlast.1))
    · rw [if_neg hlast]
      have hne' : (Buckets.erase h buckets d).flatten ≠ [] := by
        -- the last symbol of a table is first in its bucket
        intro hnil
        refine hlast ⟨by rw [hlen, hnil]; rfl, ?_⟩
        have hmem := (hplaced.mem_flatten d).1 hd
        rcases hb : Buckets.bucketOf h buckets d with _ | ⟨e, rest⟩
        · rw [hb] at hmem
          exact absurd hmem List.not_mem_nil
        · have he : e ∈ buckets.flatten :=
            (Buckets.bucketOf_sublist hplaced.pos d).subset (hb ▸ List.mem_cons_self)
          rw [List.head?_cons, honly hnil e he]
      exact ⟨⟨hplaced.erase d, (List.nodup_cons.1 (hperm.nodup_iff.1 hnodup)).2, hlen, hne'⟩,
        nofun, hne', hperm⟩

end Level

/-! ## Trees -/

/-- The tree is the one of a set of addresses: the leaves are these, and the children of a node are
the symbols that lead to one of them. -/
structure Grown (tree : List α → Level α) (A : Set (List α)) : Prop where
  leaf_iff : ∀ p, tree p = .leaf ↔ p ∈ A
  mem_children : ∀ p d, d ∈ (tree p).children ↔ ∃ a ∈ A, d :: p <:+ a
  ok : ∀ p, (tree p).Ok h

/-- The address is not above or below one of the set. -/
def Apart (A : Set (List α)) (a : List α) : Prop := ∀ b ∈ A, ¬ b <:+ a ∧ ¬ a <:+ b

section Ops

variable [DecidableEq α]

/-- The address reached from `p` along a word as far as the tree has it, and the rest of the
word. -/
def descend (tree : List α → Level α) : List α → List α → List α × List α
  | p, [] => (p, [])
  | p, d :: w =>
    if tree p = .leaf then (p, d :: w)
    else if d ∈ (tree p).candidates h d then descend tree (d :: p) w
    else (p, d :: w)

/-- A new node below `p`. -/
def addNode (tree : List α → Level α) (p : List α) (d : α) : List α → Level α :=
  Function.update (Function.update tree p ((tree p).add h d)) (d :: p) (.siblings [])

/-- A word below `p`, one node a symbol; and the last node. -/
def addRest : (List α → Level α) → List α → List α → (List α → Level α) × List α
  | tree, p, [] => (tree, p)
  | tree, p, d :: w => addRest (addNode h tree p d) (d :: p) w

/-- Removes a node, and its ancestors as long as nothing is left of them. -/
def prune (tree : List α → Level α) : List α → List α → Level α
  | [] => Function.update tree [] (.siblings [])
  | d :: p =>
    let tree := Function.update tree (d :: p) (.siblings [])
    match (tree p).remove h d with
    | none => prune tree p
    | some c => Function.update tree p c

end Ops

variable {h} {tree : List α → Level α} {A : Set (List α)}

theorem grown_empty : Grown h (fun _ => .siblings []) (∅ : Set (List α)) where
  leaf_iff := fun p => iff_of_false nofun (Set.notMem_empty p)
  mem_children := fun _ _ => iff_of_false List.not_mem_nil fun ⟨_, ha, _⟩ => ha
  ok := fun _ => List.nodup_nil

theorem ne_leaf_of_mem {p : List α} {d : α} (hd : d ∈ (tree p).children) : tree p ≠ .leaf := by
  intro hleaf
  rw [hleaf] at hd
  exact List.not_mem_nil hd

variable [DecidableEq α]

namespace Grown

/-- Following a word of the tree leads to its end. -/
theorem descend_of_mem (hA : Grown h tree A) (w p : List α) (hw : w.reverse ++ p ∈ A) :
    descend h tree p w = (w.reverse ++ p, []) := by
  induction w generalizing p with
  | nil => rfl
  | cons d w ih =>
    rw [List.reverse_cons, List.append_assoc] at hw ⊢
    have hmem : d ∈ (tree p).children :=
      (hA.mem_children p d).2 ⟨_, hw, List.suffix_append _ _⟩
    rw [descend, if_neg (ne_leaf_of_mem hmem), if_pos (((hA.ok p).mem_candidates d).2 hmem)]
    exact ih (d :: p) hw

/-- The node is in the tree. -/
def Has (A : Set (List α)) (p : List α) : Prop := p = [] ∨ ∃ a ∈ A, p <:+ a

/-- Following another word stops at a node that has no child for its next symbol. -/
theorem descend_of_notMem (hA : Grown h tree A) (w p : List α) (hne : w.reverse ++ p ≠ [])
    (hapart : Apart A (w.reverse ++ p)) (hp : Has A p) :
    ∃ u d rest, w = u ++ d :: rest ∧ descend h tree p w = (u.reverse ++ p, d :: rest) ∧
      d ∉ (tree (u.reverse ++ p)).children ∧ tree (u.reverse ++ p) ≠ .leaf ∧
      Has A (u.reverse ++ p) := by
  induction w generalizing p with
  | nil =>
    rcases hp with rfl | ⟨a, ha, hsuf⟩
    · exact absurd rfl hne
    · exact absurd hsuf (hapart a ha).2
  | cons d w ih =>
    rw [List.reverse_cons, List.append_assoc] at hne hapart
    have hleaf : tree p ≠ .leaf := fun hleaf =>
      (hapart p ((hA.leaf_iff p).1 hleaf)).1 ((List.suffix_cons d p).trans (List.suffix_append _ _))
    rw [descend, if_neg hleaf]
    by_cases hmem : d ∈ (tree p).children
    · obtain ⟨u, e, rest, rfl, hstop, hnot, hne', hin⟩ := ih (d :: p) hne hapart
        (Or.inr ((hA.mem_children p d).1 hmem))
      rw [if_pos (((hA.ok p).mem_candidates d).2 hmem)]
      refine ⟨d :: u, e, rest, rfl, ?_, ?_⟩
      · rw [hstop, List.reverse_cons, List.append_assoc]
        rfl
      · rw [List.reverse_cons, List.append_assoc]
        exact ⟨hnot, hne', hin⟩
    · rw [if_neg fun hc => hmem (((hA.ok p).mem_candidates d).1 hc)]
      exact ⟨[], d, w, rfl, rfl, hmem, hleaf, hp⟩

/-- Rearranging the children of a node does not matter. -/
theorem rearrange (hA : Grown h tree A) {p : List α} {c : Level α}
    (hc : Level.Rearranged h (tree p) c) : Grown h (Function.update tree p c) A where
  leaf_iff := by
    intro q
    by_cases hq : q = p
    · rw [hq, Function.update_self, hc.leaf, hA.leaf_iff]
    · rw [Function.update_of_ne hq, hA.leaf_iff]
  mem_children := by
    intro q d
    by_cases hq : q = p
    · rw [hq, Function.update_self, hc.perm.mem_iff, hA.mem_children]
    · rw [Function.update_of_ne hq, hA.mem_children]
  ok := by
    intro q
    by_cases hq : q = p
    · rw [hq, Function.update_self]
      exact hc.ok
    · rw [Function.update_of_ne hq]
      exact hA.ok q

end Grown

/-! ## Adding a word -/

/-- The empty word makes the root a leaf. -/
theorem Grown.root (hA : Grown h tree ∅) : Grown h (Function.update tree [] .leaf) {[]} := by
  refine ⟨fun p => ?_, fun p d => ?_, fun p => ?_⟩ <;> by_cases hp : p = []
  · rw [hp, Function.update_self]
    exact iff_of_true rfl rfl
  · rw [Function.update_of_ne hp, hA.leaf_iff]
    exact iff_of_false (Set.notMem_empty _) hp
  · rw [hp, Function.update_self]
    refine iff_of_false List.not_mem_nil ?_
    rintro ⟨a, rfl, hsuf⟩
    exact List.cons_ne_nil _ _ (List.suffix_nil.1 hsuf)
  · rw [Function.update_of_ne hp, hA.mem_children]
    refine iff_of_false (fun ⟨_, ha, _⟩ => ha) ?_
    rintro ⟨a, rfl, hsuf⟩
    exact List.cons_ne_nil _ _ (List.suffix_nil.1 hsuf)
  · rw [hp, Function.update_self]
    trivial
  · rw [Function.update_of_ne hp]
    exact hA.ok p

/-- The addresses on the way from `p` along `w` are not in use. -/
def Fresh (tree : List α → Level α) (p w : List α) : Prop :=
  ∀ u, u ≠ [] → u <+: w → tree (u.reverse ++ p) = .siblings []

theorem addNode_eq {p : List α} {d : α} (hnew : tree (d :: p) = .siblings []) :
    addNode h tree p d = Function.update tree p ((tree p).add h d) := by
  have hne : d :: p ≠ p := List.cons_ne_self d p
  rw [addNode]
  conv_rhs => rw [← Function.update_eq_self (d :: p)
    (Function.update tree p ((tree p).add h d))]
  rw [Function.update_of_ne hne, hnew]

/-- The symbols of the word follow each other below `p`, and nothing else changes. -/
theorem addRest_spec (w p : List α) (tree : List α → Level α) (hok : ∀ q, (tree q).Ok h)
    (hfresh : Fresh tree p w) (hleaf : tree p ≠ .leaf)
    (hhead : ∀ d, [d] <+: w → d ∉ (tree p).children) :
    (addRest h tree p w).2 = w.reverse ++ p ∧ (∀ q, ((addRest h tree p w).1 q).Ok h) ∧
      (∀ q, (addRest h tree p w).1 q = .leaf ↔ tree q = .leaf) ∧
      ∀ q d, d ∈ ((addRest h tree p w).1 q).children ↔
        d ∈ (tree q).children ∨ ∃ u, u ++ [d] <+: w ∧ q = u.reverse ++ p := by
  induction w generalizing p tree with
  | nil => simp [addRest, hok]
  | cons e w ih =>
    have hnew : tree (e :: p) = .siblings [] := hfresh [e] (List.cons_ne_nil _ _) (by simp)
    have hnot : e ∉ (tree p).children := hhead e (by simp)
    rw [addRest, addNode_eq hnew]
    obtain ⟨tree', htree'⟩ : ∃ t, t = Function.update tree p ((tree p).add h e) := ⟨_, rfl⟩
    have hself : tree' p = (tree p).add h e := htree' ▸ Function.update_self ..
    have hother : ∀ q, q ≠ p → tree' q = tree q := fun q hq => htree' ▸ Function.update_of_ne hq ..
    rw [← htree']
    -- below `p` the new node has nothing yet, so the rest goes there as before
    have hbelow : ∀ u : List α, u.reverse ++ e :: p ≠ p := by
      intro u heq
      have hlength := congrArg List.length heq
      rw [List.length_append, List.length_cons] at hlength
      omega
    have hok' : ∀ q, (tree' q).Ok h := by
      intro q
      by_cases hq : q = p
      · rw [hq, hself]
        exact (hok p).add hnot
      · rw [hother q hq]
        exact hok q
    have hfresh' : Fresh tree' (e :: p) w := by
      intro u hu hpre
      rw [hother _ (hbelow u)]
      simpa using hfresh (e :: u) (List.cons_ne_nil _ _) (by simpa using hpre)
    have hchild : tree' (e :: p) = .siblings [] := (hother _ (List.cons_ne_self _ _)).trans hnew
    obtain ⟨hlast, hok'', hleaf', hmem'⟩ := ih (e :: p) tree' hok' hfresh'
      (by rw [hchild]; nofun) (by rw [hchild]; exact fun _ _ => List.not_mem_nil)
    refine ⟨by rw [hlast]; simp, hok'', fun q => ?_, fun q d => ?_⟩
    · rw [hleaf']
      by_cases hq : q = p
      · rw [hq, hself, Level.add_eq_leaf]
      · rw [hother q hq]
    · have hstep : d ∈ (tree' q).children ↔ d ∈ (tree q).children ∨ (q = p ∧ d = e) := by
        by_cases hq : q = p
        · rw [hq, hself, ((hok p).perm_add hleaf e).mem_iff, List.mem_cons]
          simp [or_comm]
        · rw [hother q hq]
          simp [hq]
      rw [hmem', hstep, or_assoc]
      refine or_congr_right ?_
      constructor
      · rintro (⟨rfl, rfl⟩ | ⟨u, hu, rfl⟩)
        · exact ⟨[], by simp, by simp⟩
        · exact ⟨e :: u, by simpa using hu, by simp⟩
      · rintro ⟨u, hu, rfl⟩
        cases u with
        | nil => exact Or.inl ⟨by simp, by simpa using hu⟩
        | cons f u =>
          simp only [List.cons_append, List.cons_prefix_cons] at hu
          obtain ⟨rfl, hu⟩ := hu
          exact Or.inr ⟨u, hu, by simp⟩

/-- Nodes that are not on the way are as they were. -/
theorem addRest_of_ne (w p : List α) (tree : List α → Level α) (q : List α)
    (hq : ∀ u : List α, u.reverse ++ p ≠ q) : (addRest h tree p w).1 q = tree q := by
  induction w generalizing p tree with
  | nil => rfl
  | cons d w ih =>
    rw [addRest, ih (d :: p) _ fun u => by simpa using hq (d :: u)]
    have hpq : q ≠ p := fun heq => hq [] heq.symm
    have hdq : q ≠ d :: p := fun heq => hq [d] heq.symm
    rw [addNode, Function.update_of_ne hdq, Function.update_of_ne hpq]

/-- The first symbol is added where the word starts; the nodes below have one child at most, and the
others are as they were. -/
theorem addRest_levels (d : α) (w p : List α) (tree : List α → Level α) :
    (addRest h tree p (d :: w)).1 p = (tree p).add h d ∧
      ∀ q, q ≠ p → (addRest h tree p (d :: w)).1 q = tree q ∨
        ∃ nodes, (addRest h tree p (d :: w)).1 q = .siblings nodes ∧ nodes.length ≤ 1 := by
  have hne : p ≠ d :: p := (List.cons_ne_self d p).symm
  induction w generalizing d p tree with
  | nil =>
    rw [addRest, addRest]
    refine ⟨?_, fun q hq => ?_⟩
    · show addNode h tree p d p = _
      rw [addNode, Function.update_of_ne hne, Function.update_self]
    · show addNode h tree p d q = _ ∨ ∃ nodes, addNode h tree p d q = _ ∧ _
      rw [addNode]
      by_cases hqd : q = d :: p
      · rw [hqd, Function.update_self]
        exact Or.inr ⟨[], rfl, Nat.zero_le 1⟩
      · rw [Function.update_of_ne hqd, Function.update_of_ne hq]
        exact Or.inl rfl
  | cons e w ih =>
    rw [addRest]
    obtain ⟨hfirst, hrest⟩ := ih e (d :: p) (addNode h tree p d) (List.cons_ne_self e _).symm
    refine ⟨?_, fun q hq => ?_⟩
    · rw [addRest_of_ne (e :: w) (d :: p) _ p fun u heq => ?_, addNode, Function.update_of_ne hne,
        Function.update_self]
      have hlength := congrArg List.length heq
      rw [List.length_append, List.length_cons] at hlength
      omega
    · by_cases hqd : q = d :: p
      · refine Or.inr ⟨[e], ?_, Nat.le_refl 1⟩
        rw [hqd, hfirst, addNode, Function.update_self]
        rfl
      · rcases hrest q hqd with hsame | hnew
        · rw [addNode, Function.update_of_ne hqd, Function.update_of_ne hq] at hsame
          exact Or.inl hsame
        · exact Or.inr hnew

omit [DecidableEq α] in
/-- Below a node that has no child for a symbol, nothing is in use along a word that begins with
it. -/
theorem Grown.fresh (hA : Grown h tree A) {p w : List α} {d : α} (hd : d ∉ (tree p).children) :
    Fresh tree p (d :: w) := by
  -- an address at or below `d :: p` would make `d` a child of `p`
  have hnone : ∀ a ∈ A, ∀ u : List α, u ≠ [] → u <+: d :: w → ¬ u.reverse ++ p <:+ a := by
    intro a ha u hu hpre hsuf
    obtain ⟨e, u, rfl⟩ := List.exists_cons_of_ne_nil hu
    obtain rfl : e = d := (List.cons_prefix_cons.1 hpre).1
    refine hd ((hA.mem_children p e).2 ⟨a, ha, List.IsSuffix.trans ?_ hsuf⟩)
    rw [List.reverse_cons, List.append_assoc, List.singleton_append]
    exact List.suffix_append _ _
  intro u hu hpre
  refine (hA.ok _).eq_siblings_nil (fun hleaf => ?_) ?_
  · exact hnone _ ((hA.leaf_iff _).1 hleaf) u hu hpre (List.suffix_refl _)
  · refine List.eq_nil_iff_forall_not_mem.2 fun e he => ?_
    obtain ⟨a, ha, hsuf⟩ := (hA.mem_children _ e).1 he
    exact hnone a ha u hu hpre ((List.suffix_cons e _).trans hsuf)

/-- **A word that was not there** is added below the node where following it stops. -/
theorem Grown.addRest (hA : Grown h tree A) {p w : List α} {d : α}
    (hd : d ∉ (tree p).children) (hleaf : tree p ≠ .leaf) (hp : Grown.Has A p)
    (hapart : Apart A ((d :: w).reverse ++ p)) :
    (addRest h tree p (d :: w)).2 = (d :: w).reverse ++ p ∧
      Grown h (Function.update (WordTree.addRest h tree p (d :: w)).1 ((d :: w).reverse ++ p) .leaf)
        (insert ((d :: w).reverse ++ p) A) := by
  obtain ⟨hlast, hok, hleaf', hmem⟩ := addRest_spec (d :: w) p tree hA.ok (hA.fresh hd) hleaf
    (by
      intro e hpre
      obtain rfl : e = d := (List.cons_prefix_cons.1 hpre).1
      exact hd)
  refine ⟨hlast, fun q => ?_, fun q e => ?_, fun q => ?_⟩ <;>
    by_cases hq : q = (d :: w).reverse ++ p
  · rw [hq, Function.update_self]
    exact iff_of_true rfl (Set.mem_insert _ _)
  · rw [Function.update_of_ne hq, hleaf', hA.leaf_iff, Set.mem_insert_iff, or_iff_right hq]
  · -- the new leaf has no children: its word is not the prefix of another one
    rw [hq, Function.update_self]
    refine iff_of_false List.not_mem_nil ?_
    rintro ⟨a, rfl | ha, hsuf⟩
    · exact absurd hsuf.length_le (Nat.not_succ_le_self _)
    · exact (hapart a ha).2 ((List.suffix_cons e _).trans hsuf)
  · rw [Function.update_of_ne hq, hmem, hA.mem_children]
    constructor
    · rintro (⟨a, ha, hsuf⟩ | ⟨u, hu, rfl⟩)
      · exact ⟨a, Or.inr ha, hsuf⟩
      · refine ⟨_, Or.inl rfl, ?_⟩
        have hrev : e :: (u.reverse ++ p) = (u ++ [e]).reverse ++ p := by simp
        rw [hrev]
        obtain ⟨s, hs⟩ := List.reverse_suffix.2 hu
        exact ⟨s, by rw [← List.append_assoc, hs]⟩
    · rintro ⟨a, rfl | ha, hsuf⟩
      · -- a prefix of the word of `p` was there before
        have hold : e :: q <:+ p → ∃ a ∈ A, e :: q <:+ a := by
          intro hq
          rcases hp with rfl | ⟨a, ha, ha'⟩
          · exact absurd (List.suffix_nil.1 hq) (List.cons_ne_nil _ _)
          · exact ⟨a, ha, hq.trans ha'⟩
        rcases List.suffix_or_suffix_of_suffix hsuf (List.suffix_append _ p) with hq | ⟨s, hs⟩
        · exact Or.inl (hold hq)
        · cases s with
          | nil => exact Or.inl (hold (by rw [← hs]; exact List.suffix_refl _))
          | cons f s =>
            obtain ⟨rfl, rfl⟩ : f = e ∧ s ++ p = q := by simpa using hs
            refine Or.inr ⟨s.reverse, ?_, by simp⟩
            rw [← List.cons_append, List.suffix_append_self_iff] at hsuf
            simpa using List.reverse_prefix.2 hsuf
      · exact Or.inl ⟨a, ha, hsuf⟩
  · rw [hq, Function.update_self]
    trivial
  · rw [Function.update_of_ne hq]
    exact hok q

/-- The same where the level at the node is rearranged first.  The node gets one child more, and the
levels below it have one child at most. -/
theorem Grown.addBelow (hA : Grown h tree A) {p w : List α} {d : α} {c : Level α}
    (hc : Level.Rearranged h (tree p) c) (hd : d ∉ (tree p).children) (hleaf : tree p ≠ .leaf)
    (hp : Grown.Has A p) (hapart : Apart A ((d :: w).reverse ++ p))
    {r : (List α → Level α) × List α} {tree' : List α → Level α}
    (hr : r = WordTree.addRest h (Function.update tree p c) p (d :: w))
    (htree' : tree' = Function.update r.1 ((d :: w).reverse ++ p) .leaf) :
    r.2 = (d :: w).reverse ++ p ∧ Grown h tree' (insert ((d :: w).reverse ++ p) A) ∧
      tree' p = c.add h d ∧
      ∀ q, q ≠ p → tree' q = .leaf ∨ tree' q = tree q ∨
        ∃ nodes, tree' q = .siblings nodes ∧ nodes.length ≤ 1 := by
  have hself : Function.update tree p c p = c := Function.update_self ..
  have hgrown := hA.rearrange hc
  obtain ⟨hlast, hgrown'⟩ := hgrown.addRest (d := d) (w := w)
    (by rw [hself, hc.perm.mem_iff]; exact hd) (by rw [hself, Ne, hc.leaf]; exact hleaf) hp hapart
  obtain ⟨hfirst, hlevels⟩ := addRest_levels (h := h) d w p (Function.update tree p c)
  rw [← hr] at hlast hgrown' hfirst hlevels
  have hup : p ≠ (d :: w).reverse ++ p := by
    intro heq
    have hlength := congrArg List.length heq
    rw [List.length_append, List.length_reverse, List.length_cons] at hlength
    omega
  subst htree'
  refine ⟨hlast, hgrown', ?_, fun q hq => ?_⟩
  · rw [Function.update_of_ne hup, hfirst, hself]
  · by_cases hqlast : q = (d :: w).reverse ++ p
    · rw [hqlast, Function.update_self]
      exact Or.inl rfl
    · rw [Function.update_of_ne hqlast]
      rcases hlevels q hq with hsame | hnew
      · rw [Function.update_of_ne hq] at hsame
        exact Or.inr (Or.inl hsame)
      · exact Or.inr (Or.inr hnew)

/-! ## Removing a word -/

/-- The tree of the addresses with the branch that leads to `p` still in it, `p` being about to be
removed. -/
structure Pruning (h : α → ℕ) (tree : List α → Level α) (A : Set (List α)) (p : List α) :
    Prop where
  none_below : ∀ a ∈ A, ¬ p <:+ a
  leaf_iff : ∀ q, q ≠ p → (tree q = .leaf ↔ q ∈ A)
  mem_children : ∀ q d, q ≠ p →
    (d ∈ (tree q).children ↔ (∃ a ∈ A, d :: q <:+ a) ∨ d :: q <:+ p)
  ok : ∀ q, q ≠ p → (tree q).Ok h

namespace Pruning

/-- The node itself can be cleared first. -/
theorem clear {p : List α} (hP : Pruning h tree A p) :
    Pruning h (Function.update tree p (.siblings [])) A p where
  none_below := hP.none_below
  leaf_iff := by
    intro q hq
    rw [Function.update_of_ne hq]
    exact hP.leaf_iff q hq
  mem_children := by
    intro q d hq
    rw [Function.update_of_ne hq]
    exact hP.mem_children q d hq
  ok := by
    intro q hq
    rw [Function.update_of_ne hq]
    exact hP.ok q hq

/-- A node whose only child is cleared is to be removed next. -/
theorem parent {p : List α} {d : α} (hP : Pruning h tree A (d :: p))
    (hclear : tree (d :: p) = .siblings []) (hd : d ∈ (tree p).children)
    (honly : ∀ e ∈ (tree p).children, e = d) : Pruning h tree A p where
  none_below := by
    rintro a ha ⟨s, hs⟩
    rcases List.eq_nil_or_concat s with rfl | ⟨s, e, rfl⟩
    · obtain rfl : p = a := hs
      exact ne_leaf_of_mem hd ((hP.leaf_iff p (List.cons_ne_self d p).symm).2 ha)
    · have hsuf : e :: p <:+ a := ⟨s, by rw [← hs]; simp⟩
      have he := (hP.mem_children p e (List.cons_ne_self d p).symm).2 (Or.inl ⟨a, ha, hsuf⟩)
      exact hP.none_below a ha (honly e he ▸ hsuf)
  leaf_iff := by
    intro q hq
    by_cases hqd : q = d :: p
    · rw [hqd, hclear]
      exact iff_of_false nofun fun hin => hP.none_below _ hin (List.suffix_refl _)
    · exact hP.leaf_iff q hqd
  mem_children := by
    intro q e hq
    by_cases hqd : q = d :: p
    · rw [hqd, hclear]
      refine iff_of_false List.not_mem_nil ?_
      rintro (⟨a, ha, hsuf⟩ | hsuf)
      · exact hP.none_below a ha ((List.suffix_cons e _).trans hsuf)
      · have hlength := hsuf.length_le
        rw [List.length_cons, List.length_cons] at hlength
        omega
    · rw [hP.mem_children q e hqd, List.suffix_cons_iff]
      refine or_congr_right (or_iff_right fun heq => ?_)
      exact hq (List.cons.inj heq).2
  ok := by
    intro q hq
    by_cases hqd : q = d :: p
    · rw [hqd, hclear]
      exact List.nodup_nil
    · exact hP.ok q hqd

/-- A node that keeps a child ends the removal. -/
theorem stop {p : List α} {d : α} (hP : Pruning h tree A (d :: p))
    (hclear : tree (d :: p) = .siblings []) {c : Level α} (hok : c.Ok h) (hleaf : c ≠ .leaf)
    (hnil : c.children ≠ []) (hperm : (tree p).children.Perm (d :: c.children)) :
    Grown h (Function.update tree p c) A := by
  have hne : p ≠ d :: p := (List.cons_ne_self d p).symm
  have hmemc : ∀ e, e ∈ c.children ↔ ∃ a ∈ A, e :: p <:+ a := by
    intro e
    have hnodup := (List.nodup_cons.1 (hperm.nodup_iff.1 (hP.ok p hne).nodup)).1
    have hiff := hP.mem_children p e hne
    rw [hperm.mem_iff, List.mem_cons] at hiff
    constructor
    · intro he
      rcases hiff.1 (Or.inr he) with ha | hsuf
      · exact ha
      · obtain rfl : e = d := (List.cons.inj (hsuf.eq_of_length (by simp))).1
        exact absurd he hnodup
    · rintro ⟨a, ha, hsuf⟩
      rcases hiff.2 (Or.inl ⟨a, ha, hsuf⟩) with rfl | he
      · exact absurd hsuf (hP.none_below a ha)
      · exact he
  -- `p` is still in use, and so are its ancestors
  obtain ⟨e₀, he₀⟩ := List.exists_mem_of_ne_nil _ hnil
  obtain ⟨a₀, ha₀, hsuf₀⟩ := (hmemc e₀).1 he₀
  refine ⟨fun q => ?_, fun q e => ?_, fun q => ?_⟩ <;> by_cases hq : q = p
  · rw [hq, Function.update_self]
    refine iff_of_false hleaf fun hin => ?_
    exact ne_leaf_of_mem (hperm.mem_iff.2 List.mem_cons_self) ((hP.leaf_iff p hne).2 hin)
  · rw [Function.update_of_ne hq]
    by_cases hqd : q = d :: p
    · rw [hqd, hclear]
      exact iff_of_false nofun fun hin => hP.none_below _ hin (List.suffix_refl _)
    · exact hP.leaf_iff q hqd
  · rw [hq, Function.update_self]
    exact hmemc e
  · rw [Function.update_of_ne hq]
    by_cases hqd : q = d :: p
    · rw [hqd, hclear]
      refine iff_of_false List.not_mem_nil ?_
      rintro ⟨a, ha, hsuf⟩
      exact hP.none_below a ha ((List.suffix_cons e _).trans hsuf)
    · rw [hP.mem_children q e hqd]
      refine or_iff_left_of_imp fun hsuf => ⟨a₀, ha₀, ?_⟩
      rcases List.suffix_cons_iff.1 hsuf with heq | hsuf
      · exact absurd (List.cons.inj heq).2 hq
      · exact (hsuf.trans (List.suffix_cons e₀ p)).trans hsuf₀
  · rw [hq, Function.update_self]
    exact hok
  · rw [Function.update_of_ne hq]
    by_cases hqd : q = d :: p
    · rw [hqd, hclear]
      exact List.nodup_nil
    · exact hP.ok q hqd

/-- What is left is the tree of the addresses. -/
theorem prune {p : List α} (hP : Pruning h tree A p) : Grown h (prune h tree p) A := by
  induction p generalizing tree with
  | nil =>
    have hnil : A = ∅ := Set.eq_empty_iff_forall_notMem.2 fun a ha =>
      hP.none_below a ha List.nil_suffix
    subst hnil
    rw [WordTree.prune]
    refine ⟨fun q => ?_, fun q d => ?_, fun q => ?_⟩ <;> by_cases hq : q = []
    · rw [hq, Function.update_self]
      exact iff_of_false nofun (Set.notMem_empty _)
    · rw [Function.update_of_ne hq, hP.leaf_iff q hq]
    · rw [hq, Function.update_self]
      exact iff_of_false List.not_mem_nil fun ⟨_, ha, _⟩ => ha
    · rw [Function.update_of_ne hq, hP.mem_children q d hq]
      simp
    · rw [hq, Function.update_self]
      exact List.nodup_nil
    · rw [Function.update_of_ne hq]
      exact hP.ok q hq
  | cons d p ih =>
    have hne : p ≠ d :: p := (List.cons_ne_self d p).symm
    have hP' := hP.clear
    rw [WordTree.prune]
    obtain ⟨tree', htree'⟩ : ∃ t, t = Function.update tree (d :: p) (.siblings []) := ⟨_, rfl⟩
    rw [← htree'] at hP' ⊢
    have hclear : tree' (d :: p) = .siblings [] := htree' ▸ Function.update_self ..
    have hd : d ∈ (tree' p).children :=
      (hP'.mem_children p d hne).2 (Or.inr (List.suffix_refl _))
    have hspec := (hP'.ok p hne).remove hd
    cases hr : (tree' p).remove h d with
    | none =>
      rw [hr] at hspec
      exact ih (hP'.parent hclear hd hspec)
    | some c =>
      rw [hr] at hspec
      obtain ⟨hok, hleaf, hnil, hperm⟩ := hspec
      exact hP'.stop hclear hok hleaf hnil hperm

end Pruning

/-- Removing a word clears a node, leaves it, or takes a symbol from it. -/
theorem prune_cases (tree : List α → Level α) (p q : List α) :
    prune h tree p q = .siblings [] ∨ prune h tree p q = tree q ∨
      ∃ d, d :: q <:+ p ∧ (tree q).remove h d = some (prune h tree p q) := by
  induction p generalizing tree with
  | nil =>
    rw [prune]
    by_cases hq : q = []
    · rw [hq, Function.update_self]
      exact Or.inl rfl
    · rw [Function.update_of_ne hq]
      exact Or.inr (Or.inl rfl)
  | cons d p ih =>
    rw [prune]
    have hne : p ≠ d :: p := (List.cons_ne_self d p).symm
    have hkeep : Function.update tree (d :: p) (.siblings []) p = tree p :=
      Function.update_of_ne hne ..
    simp only [hkeep]
    cases hr : (tree p).remove h d with
    | none =>
      simp only
      by_cases hq : q = d :: p
      · refine Or.inl ?_
        have habove := ih (Function.update tree (d :: p) (.siblings []))
        rw [hq, Function.update_self] at habove
        rcases habove with hclear | hclear | ⟨e, hsuf, -⟩
        · rw [hq, hclear]
        · rw [hq, hclear]
        · have hlength := hsuf.length_le
          rw [List.length_cons, List.length_cons] at hlength
          omega
      · rcases ih (Function.update tree (d :: p) (.siblings [])) with hclear | hsame | ⟨e, hsuf, he⟩
        · exact Or.inl hclear
        · rw [Function.update_of_ne hq] at hsame
          exact Or.inr (Or.inl hsame)
        · rw [Function.update_of_ne hq] at he
          exact Or.inr (Or.inr ⟨e, hsuf.trans (List.suffix_cons d p), he⟩)
    | some c =>
      simp only
      by_cases hq : q = p
      · subst hq
        rw [Function.update_self]
        exact Or.inr (Or.inr ⟨d, List.suffix_refl _, hr⟩)
      · rw [Function.update_of_ne hq]
        by_cases hqd : q = d :: p
        · rw [hqd, Function.update_self]
          exact Or.inl rfl
        · rw [Function.update_of_ne hqd]
          exact Or.inr (Or.inl rfl)

/-- **Removing a word** leaves the tree of the others. -/
theorem Grown.prune (hA : Grown h tree A) {a : List α} (ha : a ∈ A)
    (hapart : Apart (A \ {a}) a) : Grown h (prune h tree a) (A \ {a}) := by
  refine Pruning.prune ⟨fun b hb => (hapart b hb).2, fun q hq => ?_, fun q d _ => ?_,
    fun q _ => hA.ok q⟩
  · rw [hA.leaf_iff]
    exact ⟨fun hin => ⟨hin, hq⟩, fun hin => hin.1⟩
  · rw [hA.mem_children]
    constructor
    · rintro ⟨b, hb, hsuf⟩
      by_cases hba : b = a
      · exact Or.inr (hba ▸ hsuf)
      · exact Or.inl ⟨b, ⟨hb, hba⟩, hsuf⟩
    · rintro (⟨b, hb, hsuf⟩ | hsuf)
      · exact ⟨b, hb.1, hsuf⟩
      · exact ⟨a, ha, hsuf⟩

end WordTree

end Meld
