import Mathlib.Data.List.Pairwise
import Mathlib.Logic.Function.Basic
import Mathlib.Tactic.Linarith

/-!
# The groups of the memory pool

A `mixedgroup` cuts blocks of any size from pages, and keeps the blocks that were freed in one list
for each size.  The lists are found through a table of 32 entries that is searched by bisection.
The table is an array that nothing initialises, so that its content at the start is arbitrary here.

* `bisect`, `getFreeSize`: the search, and the insertion of a new size.  The size is a `size_t`, but
  the table stores a `uint32_t`.
* `allocate`, `deallocate`: the operations of a group, over the first words of the freed blocks.
* `Sorted`: the table is strictly sorted.  `bisect_spec`: the search finds an entry of a sorted
  table, or the place next to which it belongs.
* `sorted_insertAt`: the table after an insertion.
-/

namespace Meld

/-- An entry of the table. -/
structure FreeSize where
  size : ℕ
  list : ℕ

/-- A page: `ptr` bytes of it are used, the header included. -/
structure Page where
  base : ℕ
  ptr : ℕ
  size : ℕ

/-- `mixedgroup`; the current page comes first. -/
structure MixedGroup where
  numFree : ℕ
  frees : ℕ → FreeSize
  pages : List Page

namespace MixedGroup

/-- `ALLOCATOR_FREE_SIZE`. -/
def tableSize : ℕ := 32

/-- `sizeof(page)`. -/
def pageHeader : ℕ := 32

/-- The loop of `get_free_size`: whether the size is in the table, and `middle`. -/
def bisect (frees : ℕ → FreeSize) (size : ℕ) : ℕ → ℤ → ℤ → ℤ → Bool × ℤ
  | 0, _, _, middle => (false, middle)
  | fuel + 1, left, right, middle =>
    if left ≤ right then
      let middle := left + (right - left) / 2
      if (frees middle.toNat).size = size then (true, middle)
      else if left = right then (false, middle)
      else if (frees middle.toNat).size < size then bisect frees size fuel (middle + 1) right middle
      else bisect frees size fuel left middle middle
    else (false, middle)

/-- The search of `get_free_size`.  The interval shrinks in every round. -/
def search (g : MixedGroup) (size : ℕ) : Bool × ℤ :=
  bisect g.frees size (g.numFree + 1) 0 ((g.numFree : ℤ) - 1) 0

/-- The entries from `middle` on are shifted and a new one is written.  The field of the entry is a
`uint32_t`. -/
def insertAt (frees : ℕ → FreeSize) (numFree middle size : ℕ) : ℕ → FreeSize := fun i =>
  if i = middle then ⟨size % 2 ^ 32, 0⟩
  else if middle < numFree ∧ middle < i ∧ i ≤ numFree then frees (i - 1)
  else frees i

/-- Where `get_free_size` inserts a new size. -/
def position (g : MixedGroup) (size : ℕ) : ℕ :=
  let middle := (g.search size).2.toNat
  if (g.frees middle).size < size then middle + 1 else middle

/-- `get_free_size` with `create`: the index of the entry, or `none` if it aborts. -/
def getFreeSize (g : MixedGroup) (size : ℕ) : Option (MixedGroup × ℕ) :=
  if (g.search size).1 then some (g, (g.search size).2.toNat)
  else if tableSize < g.numFree + 1 then none
  else some ({ g with
    numFree := g.numFree + 1
    frees := insertAt g.frees g.numFree (g.position size) size }, g.position size)

/-- The loop of `allocate_new_page`.  Every round makes the size larger. -/
def growPage (atleast : ℕ) : ℕ → ℕ → ℕ
  | 0, size => size
  | fuel + 1, size => if size + pageHeader < 8 * atleast then growPage atleast fuel (size * 2) else size

/-- The size of a new page. -/
def newPageSize (size atleast : ℕ) : ℕ := growPage atleast (8 * atleast) size

/-- `allocate_new_page`, when the system returns `base`. -/
def allocateNewPage (g : MixedGroup) (size atleast base : ℕ) : MixedGroup :=
  { g with pages := ⟨base, pageHeader, newPageSize size atleast⟩ :: g.pages }

/-- `create`: a page of the given size.  The table keeps what was in memory. -/
def create (frees : ℕ → FreeSize) (size base : ℕ) : MixedGroup :=
  allocateNewPage ⟨0, frees, []⟩ size 0 base

/-- Cut a block from the current page. -/
def bump (g : MixedGroup) (size : ℕ) : MixedGroup × ℕ :=
  match g.pages with
  | [] => (g, 0)
  | p :: ps => ({ g with pages := { p with ptr := p.ptr + size } :: ps }, p.base + p.ptr)

/-- The current page has no room for the block. -/
def full (g : MixedGroup) (size : ℕ) : Bool :=
  match g.pages with
  | [] => true
  | p :: _ => p.size < p.ptr + size

/-- The size of the current page. -/
def currentSize (g : MixedGroup) : ℕ := (g.pages.head?.map Page.size).getD 0

/-- The rest of `allocate`, when no freed block is found. -/
def allocateFresh (g : MixedGroup) (size base : ℕ) : MixedGroup × ℕ :=
  if g.full size then (g.allocateNewPage (g.currentSize * 2) size base).bump size else g.bump size

/-- `MIN_SIZE_OBJ`. -/
def minSizeObj : ℕ := 8

/-- The body of `allocate`, for a size that is large enough. -/
def allocateObj (g : MixedGroup) (next : ℕ → ℕ) (size base : ℕ) : MixedGroup × ℕ :=
  let r := g.search size
  let i := r.2.toNat
  if r.1 ∧ (g.frees i).list ≠ 0 then
    ({ g with frees := Function.update g.frees i ⟨(g.frees i).size, next (g.frees i).list⟩ },
      (g.frees i).list)
  else g.allocateFresh size base

/-- `allocate`: the group and the block.  `next` are the first words of the blocks, and `base` is
what the system returns if a page is needed. -/
def allocate (g : MixedGroup) (next : ℕ → ℕ) (size base : ℕ) : MixedGroup × ℕ :=
  g.allocateObj next (max minSizeObj size) base

/-- The body of `deallocate`, for a size that is large enough. -/
def deallocateObj (g : MixedGroup) (next : ℕ → ℕ) (ptr size : ℕ) : Option (MixedGroup × (ℕ → ℕ)) :=
  (g.getFreeSize size).map fun r =>
    ({ r.1 with frees := Function.update r.1.frees r.2 ⟨(r.1.frees r.2).size, ptr⟩ },
      Function.update next ptr (r.1.frees r.2).list)

/-- `deallocate`: the group and the first words of the blocks, or `none` if it aborts. -/
def deallocate (g : MixedGroup) (next : ℕ → ℕ) (ptr size : ℕ) : Option (MixedGroup × (ℕ → ℕ)) :=
  g.deallocateObj next ptr (max minSizeObj size)

/-! ## The table -/

/-- **The table is strictly sorted by size.** -/
def Sorted (frees : ℕ → FreeSize) (n : ℕ) : Prop :=
  ∀ i j, i < j → j < n → (frees i).size < (frees j).size

variable {frees : ℕ → FreeSize} {n size : ℕ}

/-- What the search returns: an entry of this size, or the place next to which it belongs. -/
structure Found (frees : ℕ → FreeSize) (n size : ℕ) (r : Bool × ℤ) : Prop where
  nonneg : 0 ≤ r.2
  lt : 0 < n → r.2.toNat < n
  hit : r.1 = true → 0 < n ∧ (frees r.2.toNat).size = size
  miss : r.1 = false → ∀ i, i < n → (frees i).size ≠ size
  below : r.1 = false → ∀ i, i < r.2.toNat → (frees i).size < size
  above : r.1 = false → ∀ i, r.2.toNat < i → i < n → size < (frees i).size

/-- **The bisection.**  The sizes before `left` are smaller and those behind `right` larger; the
interval between them shrinks in every round. -/
theorem found_bisect (h : Sorted frees n) (fuel : ℕ) (left right middle : ℤ) (hleft : 0 ≤ left)
    (hle : left ≤ right) (hright : right < n) (hfuel : right - left < fuel)
    (hbelow : ∀ i : ℕ, (i : ℤ) < left → (frees i).size < size)
    (habove : ∀ i : ℕ, right < i → i < n → size < (frees i).size) :
    Found frees n size (bisect frees size fuel left right middle) := by
  induction fuel generalizing left right middle with
  | zero => exact absurd hfuel (by push_cast; omega)
  | succ fuel ih =>
    rw [bisect, if_pos hle]
    obtain ⟨m, hm⟩ : ∃ m : ℕ, (m : ℤ) = left + (right - left) / 2 :=
      ⟨(left + (right - left) / 2).toNat, Int.toNat_of_nonneg (by omega)⟩
    dsimp only
    rw [← hm, Int.toNat_natCast]
    have hmn : m < n := by omega
    by_cases heq : (frees m).size = size
    · rw [if_pos heq]
      exact ⟨by simp, fun _ => by simpa using hmn, fun _ => ⟨by omega, by simpa using heq⟩,
        by simp, by simp, by simp⟩
    rw [if_neg heq]
    by_cases hlr : left = right
    · rw [if_pos hlr]
      refine ⟨by simp, fun _ => by simpa using hmn, by simp, fun _ i hi hsize => ?_,
        fun _ i hi => hbelow i ?_, fun _ i hi hn => habove i ?_ hn⟩
      · -- the only entry left is the one in the middle
        rcases lt_trichotomy (i : ℤ) m with hlt | he | hgt
        · exact absurd (hbelow i (by omega)) (by omega)
        · obtain rfl : i = m := by omega
          exact heq hsize
        · exact absurd (habove i (by omega) hi) (by omega)
      · have hi' : i < m := by simpa using hi
        omega
      · have hi' : m < i := by simpa using hi
        omega
    rw [if_neg hlr]
    by_cases hlt : (frees m).size < size
    · rw [if_pos hlt]
      refine ih _ right _ (by omega) (by omega) hright (by omega) (fun i hi => ?_) habove
      rcases Nat.lt_or_ge i m with him | him
      · exact lt_trans (h i m him hmn) hlt
      · obtain rfl : i = m := by omega
        exact hlt
    · rw [if_neg hlt]
      refine ih left _ _ hleft (by omega) (by omega) (by omega) hbelow fun i hi hn => ?_
      have hgt : size < (frees m).size := by omega
      exact lt_trans hgt (h m i (by omega) hn)

/-- The search of a sorted table. -/
theorem found_search {g : MixedGroup} (h : Sorted g.frees g.numFree) :
    Found g.frees g.numFree size (g.search size) := by
  rw [search]
  rcases Nat.eq_zero_or_pos g.numFree with hzero | hpos
  · rw [hzero, bisect, if_neg (by simp)]
    exact ⟨le_refl _, by simp, by simp, by simp, by simp, by simp⟩
  · exact found_bisect h _ 0 _ 0 (le_refl _) (by omega) (by omega) (by push_cast; omega)
      (fun i hi => absurd hi (by omega)) fun i hi hn => absurd hi (by omega)

/-- **When a size can be freed**: it fits the field of the table; an empty table has by chance a
larger size in its first entry, since the insertion reads that entry even if it was never written;
and a full table has the size already. -/
structure CanFree (g : MixedGroup) (size : ℕ) : Prop where
  fits : size < 2 ^ 32
  first : g.numFree = 0 → size ≤ (g.frees 0).size
  room : g.numFree < tableSize ∨ ∃ i, i < g.numFree ∧ (g.frees i).size = size

/-- The place where a new size is inserted. -/
theorem position_spec {g : MixedGroup} (h : Sorted g.frees g.numFree)
    (hfirst : g.numFree = 0 → size ≤ (g.frees 0).size) (hmiss : (g.search size).1 = false) :
    g.position size ≤ g.numFree ∧ (∀ i, i < g.position size → (g.frees i).size < size) ∧
      ∀ i, g.position size ≤ i → i < g.numFree → size < (g.frees i).size := by
  have hfound : Found g.frees g.numFree size (g.search size) := found_search h
  rw [position]
  obtain ⟨m, hm⟩ : ∃ m, m = (g.search size).2.toNat := ⟨_, rfl⟩
  have hlt := hfound.lt
  have hmiss' := hfound.miss hmiss
  have hbelow := hfound.below hmiss
  have habove := hfound.above hmiss
  rw [← hm] at hlt hbelow habove ⊢
  rcases Nat.eq_zero_or_pos g.numFree with hzero | hpos
  · have hm0 : m = 0 := by
      rw [hm, search, hzero, bisect, if_neg (by simp)]
      rfl
    subst hm0
    rw [if_neg (Nat.not_lt.mpr (hfirst hzero))]
    exact ⟨Nat.zero_le _, fun i hi => absurd hi (Nat.not_lt_zero i), fun i _ hi => by omega⟩
  · have hmn := hlt hpos
    have hne := hmiss' m hmn
    split
    · next hcmp =>
      refine ⟨hmn, fun i hi => ?_, fun i hi hn => habove i hi hn⟩
      rcases Nat.eq_or_lt_of_le (Nat.le_of_lt_succ hi) with heq | hlt'
      · subst heq
        exact hcmp
      · exact hbelow i hlt'
    · next hcmp =>
      refine ⟨hmn.le, hbelow, fun i hi hn => ?_⟩
      rcases Nat.eq_or_lt_of_le hi with heq | hlt'
      · subst heq
        omega
      · exact habove i hlt' hn

/-- The entries of the table after an insertion: the old ones, around the new one. -/
theorem insertAt_cases {p : ℕ} (hp : p ≤ n) (i : ℕ) (hi : i ≤ n) :
    (i < p ∧ insertAt frees n p size i = frees i) ∨
      (i = p ∧ insertAt frees n p size i = ⟨size % 2 ^ 32, 0⟩) ∨
      (p < i ∧ insertAt frees n p size i = frees (i - 1)) := by
  rw [insertAt]
  rcases lt_trichotomy i p with hlt | heq | hgt
  · refine Or.inl ⟨hlt, ?_⟩
    rw [if_neg (by omega), if_neg (by omega)]
  · exact Or.inr (Or.inl ⟨heq, if_pos heq⟩)
  · refine Or.inr (Or.inr ⟨hgt, ?_⟩)
    rw [if_neg (by omega), if_pos (by omega)]

/-- **An insertion keeps the table sorted.** -/
theorem sorted_insertAt {p : ℕ} (h : Sorted frees n) (hsize : size < 2 ^ 32) (hp : p ≤ n)
    (hbelow : ∀ i, i < p → (frees i).size < size)
    (habove : ∀ i, p ≤ i → i < n → size < (frees i).size) :
    Sorted (insertAt frees n p size) (n + 1) := by
  intro i j hij hj
  have hmod : size % 2 ^ 32 = size := Nat.mod_eq_of_lt hsize
  rcases insertAt_cases hp i (by omega) with ⟨hi, hei⟩ | ⟨hi, hei⟩ | ⟨hi, hei⟩ <;>
    rcases insertAt_cases hp j (by omega) with ⟨hj', hej⟩ | ⟨hj', hej⟩ | ⟨hj', hej⟩ <;>
    rw [hei, hej]
  · exact h i j hij (by omega)
  · show (frees i).size < size % 2 ^ 32
    rw [hmod]
    exact hbelow i hi
  · exact h i (j - 1) (by omega) (by omega)
  · omega
  · omega
  · show size % 2 ^ 32 < (frees (j - 1)).size
    rw [hmod]
    exact habove (j - 1) (by omega) (by omega)
  · omega
  · omega
  · exact h (i - 1) (j - 1) (by omega) (by omega)

/-! ## New pages -/

/-- The loop makes the page large enough. -/
theorem growPage_spec (atleast fuel size : ℕ) (hsize : 0 < size)
    (hfuel : 8 * atleast ≤ size + fuel) :
    size ≤ growPage atleast fuel size ∧ 8 * atleast ≤ growPage atleast fuel size + pageHeader := by
  induction fuel generalizing size with
  | zero =>
    rw [growPage]
    exact ⟨le_refl _, by omega⟩
  | succ fuel ih =>
    rw [growPage]
    split
    · obtain ⟨h1, h2⟩ := ih (size * 2) (by omega) (by omega)
      exact ⟨by omega, h2⟩
    · exact ⟨le_refl _, by omega⟩

/-- A new page has room for its header and for the block. -/
theorem newPageSize_spec (size atleast : ℕ) (hsize : 128 ≤ size) :
    size ≤ newPageSize size atleast ∧ pageHeader + atleast ≤ newPageSize size atleast := by
  obtain ⟨h1, h2⟩ := growPage_spec atleast (8 * atleast) size (by omega) (by omega)
  rw [newPageSize]
  rw [pageHeader] at h2 ⊢
  exact ⟨h1, by omega⟩

end MixedGroup

end Meld
