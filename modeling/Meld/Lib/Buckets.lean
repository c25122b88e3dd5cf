import Mathlib.Algebra.GroupWithZero.Nat
import Mathlib.Data.List.Nodup
import Mathlib.Data.List.Perm.Basic

/-!
# Tables of buckets

A table of buckets over an arbitrary type is a list of lists together with a hash function; an item
belongs in the bucket that its hash, modulo the number of buckets, selects.  Items are put at the
head of their bucket.

* `insert`, `erase`, `bucketOf`: the operations on one item.
* `rehash`: all items of a list, put into fresh buckets in turn.
* `Placed`: there is a bucket, and every item is in its own.
* `perm_insert`, `perm_erase`, `perm_rehash`: what the operations do to the items as a whole.
-/

namespace Meld
namespace Buckets

variable {α : Type*} (h : α → ℕ)

/-- The number of the bucket of `a` in a table of `n` buckets. -/
def index (n : ℕ) (a : α) : ℕ := h a % n

/-- The bucket in which `a` belongs. -/
def bucketOf (bs : List (List α)) (a : α) : List α := bs.getD (index h bs.length a) []

/-- Puts `a` at the head of its bucket. -/
def insert (bs : List (List α)) (a : α) : List (List α) :=
  bs.modify (index h bs.length a) (a :: ·)

/-- Takes `a` out of its bucket. -/
def erase [DecidableEq α] (bs : List (List α)) (a : α) : List (List α) :=
  bs.modify (index h bs.length a) (·.erase a)

/-- `n` empty buckets. -/
def empty (n : ℕ) : List (List α) := List.replicate n []

/-- The items, in order, put into `n` fresh buckets. -/
def rehash (n : ℕ) (items : List α) : List (List α) := items.foldl (insert h) (empty n)

/-- There is at least one bucket, and every item is in the bucket it belongs in. -/
structure Placed (bs : List (List α)) : Prop where
  pos : 0 < bs.length
  index_eq : ∀ i, ∀ a ∈ bs.getD i [], index h bs.length a = i

variable {h}

theorem index_lt {n : ℕ} (hn : 0 < n) (a : α) : index h n a < n := Nat.mod_lt _ hn

@[simp] theorem length_insert (bs : List (List α)) (a : α) :
    (insert h bs a).length = bs.length := by
  simp [insert]

@[simp] theorem length_erase [DecidableEq α] (bs : List (List α)) (a : α) :
    (erase h bs a).length = bs.length := by
  simp [erase]

theorem getD_modify (bs : List (List α)) (f : List α → List α) {k : ℕ} (hk : k < bs.length)
    (i : ℕ) : (bs.modify k f).getD i [] = if i = k then f (bs.getD k []) else bs.getD i [] := by
  by_cases hi : i = k
  · subst hi
    simp [List.getD_eq_getElem?_getD, hk]
  · simp [List.getD_eq_getElem?_getD, hi, Ne.symm hi]

/-- A list of lists, cut at one of them. -/
theorem eq_take_cons_drop (bs : List (List α)) {k : ℕ} (hk : k < bs.length) :
    bs = bs.take k ++ bs.getD k [] :: bs.drop (k + 1) := by
  have hget : bs.getD k [] = bs[k] := by simp [List.getD_eq_getElem?_getD, hk]
  rw [hget, ← List.drop_eq_getElem_cons hk, List.take_append_drop]

theorem exists_split (bs : List (List α)) {k : ℕ} (hk : k < bs.length) (f : List α → List α) :
    ∃ pre post, bs = pre ++ bs.getD k [] :: post ∧
      bs.modify k f = pre ++ f (bs.getD k []) :: post := by
  refine ⟨bs.take k, bs.drop (k + 1), eq_take_cons_drop bs hk, ?_⟩
  have hget : bs.getD k [] = bs[k] := by simp [List.getD_eq_getElem?_getD, hk]
  rw [hget, List.modify_eq_take_cons_drop hk]

/-- The items before a bucket, in it, and after it. -/
theorem flatten_eq {bs : List (List α)} (hpos : 0 < bs.length) (a : α) :
    bs.flatten = (bs.take (index h bs.length a)).flatten ++
      (bucketOf h bs a ++ (bs.drop (index h bs.length a + 1)).flatten) := by
  conv_lhs => rw [eq_take_cons_drop bs (index_lt hpos a : index h _ a < _)]
  simp only [List.flatten_append, List.flatten_cons]
  rfl

/-- A bucket is part of the table. -/
theorem bucketOf_sublist {bs : List (List α)} (hpos : 0 < bs.length) (a : α) :
    (bucketOf h bs a).Sublist bs.flatten := by
  rw [flatten_eq hpos a]
  exact (List.sublist_append_left _ _).trans (List.sublist_append_right _ _)

/-- Inserting does not change the order of the items that are there. -/
theorem sublist_insert (bs : List (List α)) (a : α) :
    bs.flatten.Sublist (insert h bs a).flatten := by
  by_cases hk : index h bs.length a < bs.length
  · obtain ⟨pre, post, hbs, hmod⟩ := exists_split bs hk (a :: ·)
    rw [insert, hmod]
    conv_lhs => rw [hbs]
    simp only [List.flatten_append, List.flatten_cons, List.cons_append]
    exact List.Sublist.append_left (List.sublist_cons_self _ _) _
  · rw [insert, List.modify_eq_self (Nat.le_of_not_lt hk)]

/-- Inserting adds the item. -/
theorem perm_insert {bs : List (List α)} (hpos : 0 < bs.length) (a : α) :
    (insert h bs a).flatten.Perm (a :: bs.flatten) := by
  obtain ⟨pre, post, hbs, hmod⟩ := exists_split bs (index_lt hpos a : index h _ a < _) (a :: ·)
  rw [insert, hmod]
  conv_rhs => rw [hbs]
  simp only [List.flatten_append, List.flatten_cons, List.cons_append]
  exact List.perm_middle

theorem placed_empty {n : ℕ} (hn : 0 < n) : Placed h (empty n : List (List α)) where
  pos := by simpa [empty] using hn
  index_eq := by
    intro i a ha
    simp [empty, List.getD_eq_getElem?_getD, List.getElem?_replicate] at ha
    split at ha <;> simp at ha

theorem Placed.insert {bs : List (List α)} (hbs : Placed h bs) (a : α) :
    Placed h (insert h bs a) where
  pos := by simpa using hbs.pos
  index_eq := by
    intro i b hb
    rw [length_insert]
    rw [Buckets.insert, getD_modify _ _ (index_lt hbs.pos a)] at hb
    split at hb
    · rename_i hi
      rcases List.mem_cons.1 hb with rfl | hb
      · exact hi.symm
      · rw [hi]
        exact hbs.index_eq _ b hb
    · exact hbs.index_eq i b hb

theorem Placed.erase [DecidableEq α] {bs : List (List α)} (hbs : Placed h bs) (a : α) :
    Placed h (erase h bs a) where
  pos := by simpa using hbs.pos
  index_eq := by
    intro i b hb
    rw [length_erase]
    rw [Buckets.erase, getD_modify _ _ (index_lt hbs.pos a)] at hb
    split at hb
    · rename_i hi
      rw [hi]
      exact hbs.index_eq _ b (List.mem_of_mem_erase hb)
    · exact hbs.index_eq i b hb

/-- An item of the table is in its bucket. -/
theorem Placed.mem_flatten {bs : List (List α)} (hbs : Placed h bs) (a : α) :
    a ∈ bs.flatten ↔ a ∈ bucketOf h bs a := by
  constructor
  · intro ha
    obtain ⟨b, hb, hab⟩ := List.mem_flatten.1 ha
    obtain ⟨i, hi, rfl⟩ := List.getElem_of_mem hb
    have hget : bs.getD i [] = bs[i] := by simp [List.getD_eq_getElem?_getD, hi]
    rw [bucketOf, hbs.index_eq i a (hget ▸ hab), hget]
    exact hab
  · intro ha
    exact (bucketOf_sublist hbs.pos a).subset ha

/-- Erasing takes out one occurrence. -/
theorem Placed.perm_erase [DecidableEq α] {bs : List (List α)} (hbs : Placed h bs) {a : α}
    (ha : a ∈ bs.flatten) : bs.flatten.Perm (a :: (Buckets.erase h bs a).flatten) := by
  have hmem := (hbs.mem_flatten a).1 ha
  obtain ⟨pre, post, hsplit, hmod⟩ :=
    exists_split bs (index_lt hbs.pos a : index h _ a < _) (·.erase a)
  rw [Buckets.erase, hmod]
  conv_lhs => rw [hsplit]
  simp only [List.flatten_append, List.flatten_cons]
  refine List.Perm.trans ?_ List.perm_middle
  rw [← List.cons_append]
  exact List.Perm.append_left _ (List.Perm.append_right _ (List.perm_cons_erase hmem))

/-- Filling a table keeps the items in their places and adds them all. -/
theorem placed_foldl_insert (items : List α) {bs : List (List α)} (hbs : Placed h bs) :
    Placed h (items.foldl (Buckets.insert h) bs) ∧
      (items.foldl (Buckets.insert h) bs).flatten.Perm (items ++ bs.flatten) := by
  induction items generalizing bs with
  | nil => exact ⟨hbs, List.Perm.refl _⟩
  | cons a items ih =>
    obtain ⟨hplaced, hperm⟩ := ih (hbs.insert a)
    refine ⟨hplaced, hperm.trans ?_⟩
    exact ((perm_insert hbs.pos a).append_left items).trans List.perm_middle

@[simp] theorem length_rehash (n : ℕ) (items : List α) : (rehash h n items).length = n := by
  rw [rehash]
  suffices hfold : ∀ bs : List (List α), (items.foldl (insert h) bs).length = bs.length by
    rw [hfold, empty, List.length_replicate]
  induction items with
  | nil => exact fun _ => rfl
  | cons a items ih =>
    intro bs
    rw [List.foldl_cons, ih, length_insert]

/-- A bucket is what belongs in it of the table. -/
theorem Placed.filter_flatten {bs : List (List α)} (hbs : Placed h bs) (a : α) :
    bs.flatten.filter (fun b => decide (index h bs.length b = index h bs.length a)) =
      bucketOf h bs a := by
  have hindex : ∀ (k : ℕ) (hk : k < bs.length), ∀ b ∈ bs.get ⟨k, hk⟩, index h bs.length b = k := by
    intro k hk b hb
    refine hbs.index_eq k b ?_
    simpa [List.getD_eq_getElem?_getD, hk] using hb
  have hbefore : (bs.take (index h bs.length a)).flatten.filter
      (fun b => decide (index h bs.length b = index h bs.length a)) = [] := by
    refine List.filter_eq_nil_iff.2 fun b hb => ?_
    obtain ⟨bucket, hbucket, hb⟩ := List.mem_flatten.1 hb
    obtain ⟨k, hk, rfl⟩ := List.mem_iff_getElem.1 hbucket
    rw [List.getElem_take] at hb
    rw [List.length_take] at hk
    have hbk := hindex k (by omega) b hb
    simp only [decide_eq_true_eq]
    omega
  have hafter : (bs.drop (index h bs.length a + 1)).flatten.filter
      (fun b => decide (index h bs.length b = index h bs.length a)) = [] := by
    refine List.filter_eq_nil_iff.2 fun b hb => ?_
    obtain ⟨bucket, hbucket, hb⟩ := List.mem_flatten.1 hb
    obtain ⟨k, hk, rfl⟩ := List.mem_iff_getElem.1 hbucket
    rw [List.getElem_drop] at hb
    rw [List.length_drop] at hk
    have hbk := hindex (index h bs.length a + 1 + k) (by omega) b hb
    simp only [decide_eq_true_eq]
    omega
  have hin : (bucketOf h bs a).filter
      (fun b => decide (index h bs.length b = index h bs.length a)) = bucketOf h bs a :=
    List.filter_eq_self.2 fun b hb => decide_eq_true (hbs.index_eq _ b hb)
  rw [flatten_eq hbs.pos a, List.filter_append, List.filter_append, hbefore, hafter, hin,
    List.append_nil, List.nil_append]

theorem placed_rehash {n : ℕ} (hn : 0 < n) (items : List α) : Placed h (rehash h n items) :=
  (placed_foldl_insert items (placed_empty hn)).1

theorem perm_rehash {n : ℕ} (hn : 0 < n) (items : List α) :
    (rehash h n items).flatten.Perm items := by
  have := (placed_foldl_insert items (placed_empty (h := h) hn)).2
  simpa [rehash, empty] using this

end Buckets

end Meld
