import Meld.Mem.Pool
import Mathlib.Data.List.Perm.Basic

/-!
# The memory pool

The invariant covers the blocks that were freed as well: they are apart from the blocks in use and
from each other, so that the clients cannot write to the words that link them, and the words are
still what `deallocate` wrote.

* `PoolInv`: the invariant.
* `PoolInv.allocate`, `PoolInv.deallocate`, `PoolInv.write`: the requests.
* `pool_good`: **in every run of careful requests the state is good and the next request is
  served.**
* `not_forall_pool_good`: the first block that is freed may be lost, since the insertion into the
  empty table reads an entry that nothing has written.
-/

namespace Meld

open Linked MixedGroup

namespace MixedGroup

variable {g : MixedGroup} {next : ℕ → ℕ} {size base : ℕ}

/-- A block that is cut from a page: the current one, or a new one. -/
theorem allocateFresh_cases (hne : g.pages ≠ []) :
    (∃ p ps, g.pages = p :: ps ∧ p.ptr + size ≤ p.size ∧ g.allocateFresh size base =
      ({ g with pages := { p with ptr := p.ptr + size } :: ps }, p.base + p.ptr)) ∨
    g.allocateFresh size base = ({ g with
      pages := ⟨base, pageHeader + size, newPageSize (g.currentSize * 2) size⟩ :: g.pages },
      base + pageHeader) := by
  obtain ⟨p, ps, hp⟩ := List.exists_cons_of_ne_nil hne
  rw [allocateFresh]
  split
  · exact Or.inr rfl
  · next hfull =>
    refine Or.inl ⟨p, ps, hp, ?_, ?_⟩
    · rw [full, hp] at hfull
      simpa using hfull
    · rw [bump, hp]

/-- **`allocate`**: a freed block of this size, or a block of a page if there is none. -/
theorem allocateObj_cases (h : Sorted g.frees g.numFree) :
    (∃ i, i < g.numFree ∧ (g.frees i).size = size ∧ (g.frees i).list ≠ 0 ∧
      g.allocateObj next size base = ({ g with
        frees := Function.update g.frees i ⟨size, next (g.frees i).list⟩ }, (g.frees i).list)) ∨
    g.allocateObj next size base = g.allocateFresh size base := by
  have hfound : Found g.frees g.numFree size (g.search size) := found_search h
  rw [allocateObj]
  obtain ⟨r, hr⟩ : ∃ r, r = g.search size := ⟨_, rfl⟩
  rw [← hr] at hfound ⊢
  split
  · next hcond =>
    obtain ⟨hpos, hsize⟩ := hfound.hit hcond.1
    refine Or.inl ⟨r.2.toNat, hfound.lt hpos, hsize, hcond.2, ?_⟩
    rw [hsize]
  · exact Or.inr rfl

/-- **`deallocate`** finds the entry of the size, or inserts it. -/
theorem deallocateObj_cases (h : Sorted g.frees g.numFree) (hfree : g.CanFree size)
    (next : ℕ → ℕ) (ptr : ℕ) :
    (∃ i, i < g.numFree ∧ (g.frees i).size = size ∧
      g.deallocateObj next ptr size = some ({ g with
        frees := Function.update g.frees i ⟨size, ptr⟩ },
        Function.update next ptr (g.frees i).list)) ∨
    (∃ p, p ≤ g.numFree ∧ g.numFree < tableSize ∧ (∀ i, i < p → (g.frees i).size < size) ∧
      (∀ i, p ≤ i → i < g.numFree → size < (g.frees i).size) ∧
      g.deallocateObj next ptr size = some (⟨g.numFree + 1,
        Function.update (insertAt g.frees g.numFree p size) p ⟨size, ptr⟩, g.pages⟩,
        Function.update next ptr 0)) := by
  have hfound : Found g.frees g.numFree size (g.search size) := found_search h
  rw [deallocateObj, getFreeSize]
  cases hhit : (g.search size).1 with
  | true =>
    obtain ⟨hpos, hsize⟩ := hfound.hit hhit
    refine Or.inl ⟨(g.search size).2.toNat, hfound.lt hpos, hsize, ?_⟩
    rw [if_pos rfl, Option.map_some]
    dsimp only
    rw [hsize]
  | false =>
    obtain ⟨hle, hbelow, habove⟩ := position_spec h hfree.first hhit
    -- a full table would have the size
    have hroom : g.numFree < tableSize := by
      rcases hfree.room with hlt | ⟨i, hi, hsize⟩
      · exact hlt
      · exact absurd hsize (hfound.miss hhit i hi)
    refine Or.inr ⟨g.position size, hle, hroom, hbelow, habove, ?_⟩
    have hentry : insertAt g.frees g.numFree (g.position size) size (g.position size) =
        ⟨size, 0⟩ := by
      rw [insertAt, if_pos rfl, Nat.mod_eq_of_lt hfree.fits]
    rw [if_neg (by simp), if_neg (by omega), Option.map_some]
    dsimp only
    rw [hentry]

/-! ## The lists of a group -/

/-- **The table of a group**: it is sorted, its entries are the sizes that were freed, and every
entry leads to the freed blocks of its size. -/
structure TableOk (next : ℕ → ℕ) (g : MixedGroup) (freedOf : ℕ → List ℕ) (sizes : List ℕ) :
    Prop where
  sorted : Sorted g.frees g.numFree
  numFree : g.numFree ≤ tableSize
  entries : ∀ z, z ∈ sizes ↔ ∃ i, i < g.numFree ∧ (g.frees i).size = z
  lists : ∀ i, i < g.numFree → Chain next (g.frees i).list (freedOf (g.frees i).size)
  freed : ∀ z, z ∉ sizes → freedOf z = []

namespace TableOk

variable {next' : ℕ → ℕ} {g' : MixedGroup} {freedOf freedOf' : ℕ → List ℕ} {sizes : List ℕ}
  {i x z : ℕ}

/-- The table does not look at the pages, and at no words but those of the freed blocks. -/
theorem congr (h : TableOk next g freedOf sizes) (hnum : g'.numFree = g.numFree)
    (hfrees : g'.frees = g.frees) (hnext : ∀ z, ∀ x ∈ freedOf z, next' x = next x) :
    TableOk next' g' freedOf sizes := by
  refine ⟨?_, ?_, fun z => ?_, fun i hi => ?_, h.freed⟩
  · rw [hnum, hfrees]
    exact h.sorted
  · rw [hnum]
    exact h.numFree
  · rw [hnum, hfrees]
    exact h.entries z
  · rw [hnum] at hi
    rw [hfrees]
    exact (h.lists i hi).congr (hnext _)

/-- Different entries have different sizes. -/
theorem size_ne (h : TableOk next g freedOf sizes) {j : ℕ} (hi : i < g.numFree)
    (hj : j < g.numFree) (hne : j ≠ i) : (g.frees j).size ≠ (g.frees i).size := by
  rcases Nat.lt_or_gt_of_ne hne with hlt | hgt
  · exact Nat.ne_of_lt (h.sorted j i hlt hi)
  · exact Nat.ne_of_gt (h.sorted i j hgt hj)

/-- The entry `i` leads to other blocks of its size, and nothing else changes. -/
theorem update (h : TableOk next g freedOf sizes) (hi : i < g.numFree)
    (hsize : (g.frees i).size = z) (hchain : Chain next' x (freedOf' z))
    (hother : ∀ w, w ≠ z → freedOf' w = freedOf w ∧ ∀ y ∈ freedOf w, next' y = next y) :
    TableOk next' { g with frees := Function.update g.frees i ⟨z, x⟩ } freedOf' sizes := by
  have hentry : ∀ j, (Function.update g.frees i ⟨z, x⟩ j).size = (g.frees j).size := by
    intro j
    by_cases hji : j = i
    · subst hji
      rw [Function.update_self]
      exact hsize.symm
    · rw [Function.update_of_ne hji]
  refine ⟨fun j j' hlt hj' => ?_, h.numFree, fun w => ?_, fun j hj => ?_, fun w hw => ?_⟩
  · show (Function.update g.frees i ⟨z, x⟩ j).size < (Function.update g.frees i ⟨z, x⟩ j').size
    rw [hentry, hentry]
    exact h.sorted j j' hlt hj'
  · rw [h.entries]
    simp only [hentry]
  · show Chain next' (Function.update g.frees i ⟨z, x⟩ j).list
      (freedOf' (Function.update g.frees i ⟨z, x⟩ j).size)
    rw [hentry]
    by_cases hji : j = i
    · subst hji
      rw [Function.update_self, hsize]
      exact hchain
    · have hne : (g.frees j).size ≠ z := hsize ▸ h.size_ne hi hj hji
      rw [Function.update_of_ne hji, (hother _ hne).1]
      exact (h.lists j hj).congr (hother _ hne).2
  · have hwz : w ≠ z := by
      rintro rfl
      exact hw ((h.entries w).mpr ⟨i, hi, hsize⟩)
    rw [(hother w hwz).1]
    exact h.freed w hw

/-- A new entry leads to the first block of its size. -/
theorem insert (h : TableOk next g freedOf sizes) {p : ℕ} (hfits : z < 2 ^ 32)
    (hp : p ≤ g.numFree) (hroom : g.numFree < tableSize)
    (hbelow : ∀ i, i < p → (g.frees i).size < z)
    (habove : ∀ i, p ≤ i → i < g.numFree → z < (g.frees i).size)
    (hchain : Chain next' x (freedOf' z))
    (hother : ∀ w, w ≠ z → freedOf' w = freedOf w ∧ ∀ y ∈ freedOf w, next' y = next y) :
    TableOk next' ⟨g.numFree + 1,
      Function.update (insertAt g.frees g.numFree p z) p ⟨z, x⟩, g.pages⟩ freedOf' (z :: sizes) := by
  obtain ⟨f, hf⟩ : ∃ f, f = Function.update (insertAt g.frees g.numFree p z) p ⟨z, x⟩ := ⟨_, rfl⟩
  have hself : f p = ⟨z, x⟩ := by
    rw [hf, Function.update_self]
  have hbefore : ∀ k, k < p → f k = g.frees k := by
    intro k hk
    rw [hf, Function.update_of_ne (Nat.ne_of_lt hk), insertAt, if_neg (by omega), if_neg (by omega)]
  have hbehind : ∀ k, p ≤ k → k < g.numFree → f (k + 1) = g.frees k := by
    intro k hk hn
    rw [hf, Function.update_of_ne (by omega), insertAt, if_neg (by omega), if_pos (by omega)]
    rfl
  -- the entries are the new one and the old ones
  have hcases : ∀ j, j < g.numFree + 1 → f j = ⟨z, x⟩ ∨
      ∃ k, k < g.numFree ∧ (g.frees k).size ≠ z ∧ f j = g.frees k := by
    intro j hj
    rcases lt_trichotomy j p with hlt | rfl | hgt
    · exact Or.inr ⟨j, by omega, Nat.ne_of_lt (hbelow j hlt), hbefore j hlt⟩
    · exact Or.inl hself
    · obtain ⟨k, rfl⟩ : ∃ k, j = k + 1 := ⟨j - 1, by omega⟩
      exact Or.inr ⟨k, by omega, Nat.ne_of_gt (habove k (by omega) (by omega)),
        hbehind k (by omega) (by omega)⟩
  have hsize : ∀ j, (f j).size = (insertAt g.frees g.numFree p z j).size := by
    intro j
    by_cases hjp : j = p
    · subst hjp
      rw [hself, insertAt, if_pos rfl]
      exact (Nat.mod_eq_of_lt hfits).symm
    · rw [hf, Function.update_of_ne hjp]
  rw [← hf]
  refine ⟨fun j j' hlt hj' => ?_, hroom, fun w => ?_, fun j hj => ?_, fun w hw => ?_⟩
  · show (f j).size < (f j').size
    rw [hsize, hsize]
    exact sorted_insertAt h.sorted hfits hp hbelow habove j j' hlt hj'
  · rw [List.mem_cons, h.entries]
    constructor
    · rintro (rfl | ⟨k, hk, rfl⟩)
      · exact ⟨p, by dsimp only; omega, congrArg FreeSize.size hself⟩
      · rcases Nat.lt_or_ge k p with hkp | hkp
        · exact ⟨k, by dsimp only; omega, congrArg FreeSize.size (hbefore k hkp)⟩
        · exact ⟨k + 1, by dsimp only; omega, congrArg FreeSize.size (hbehind k hkp hk)⟩
    · rintro ⟨j, hj, rfl⟩
      dsimp only at hj ⊢
      rcases hcases j hj with heq | ⟨k, hk, -, heq⟩
      · rw [heq]
        exact Or.inl rfl
      · rw [heq]
        exact Or.inr ⟨k, hk, rfl⟩
  · show Chain next' (f j).list (freedOf' (f j).size)
    rcases hcases j hj with heq | ⟨k, hk, hne, heq⟩
    · rw [heq]
      exact hchain
    · rw [heq, (hother _ hne).1]
      exact (h.lists k hk).congr (hother _ hne).2
  · rw [List.mem_cons, not_or] at hw
    rw [(hother w hw.1).1]
    exact h.freed w hw.2

/-- **A block is freed**: the table serves it, and its size has the block in front. -/
theorem free (h : TableOk next g freedOf sizes) (hfree : g.CanFree z) (hx : x ≠ 0)
    (hout : ∀ w, x ∉ freedOf w) (hself : freedOf' z = x :: freedOf z)
    (hother : ∀ w, w ≠ z → freedOf' w = freedOf w) :
    ∃ g' v, g.deallocateObj next x z = some (g', Function.update next x v) ∧ g'.pages = g.pages ∧
      TableOk (Function.update next x v) g' freedOf' (z :: sizes) := by
  have hkeep : ∀ v w, ∀ y ∈ freedOf w, Function.update next x v y = next y := by
    intro v w y hy
    refine Function.update_of_ne ?_ _ _
    rintro rfl
    exact hout w hy
  rcases deallocateObj_cases h.sorted hfree next x with
    ⟨i, hi, hsize, heq⟩ | ⟨p, hp, hroom, hbelow, habove, heq⟩
  · have hchain := h.lists i hi
    rw [hsize] at hchain
    refine ⟨_, _, heq, rfl, ?_⟩
    have hok : TableOk (Function.update next x (g.frees i).list)
        { g with frees := Function.update g.frees i ⟨z, x⟩ } freedOf' sizes := by
      refine h.update hi hsize ?_ fun w hw => ⟨hother w hw, hkeep _ w⟩
      rw [hself]
      refine ⟨rfl, hx, ?_⟩
      rw [Function.update_self]
      exact hchain.congr (hkeep _ z)
    -- the size was in the table already
    have hz : z ∈ sizes := (h.entries z).mpr ⟨i, hi, hsize⟩
    refine { hok with
      entries := fun w => ?_
      freed := fun w hw => hok.freed w fun hmem => hw (List.mem_cons_of_mem z hmem) }
    rw [← hok.entries w, List.mem_cons]
    exact ⟨fun hw => hw.elim (fun he => he ▸ hz) id, Or.inr⟩
  · refine ⟨_, _, heq, rfl, ?_⟩
    have hz : z ∉ sizes := by
      intro hmem
      obtain ⟨i, hi, hsize⟩ := (h.entries z).mp hmem
      rcases Nat.lt_or_ge i p with hlt | hge
      · exact absurd (hbelow i hlt) (by omega)
      · exact absurd (habove i hge hi) (by omega)
    refine h.insert hfree.fits hp hroom hbelow habove ?_ fun w hw => ⟨hother w hw, hkeep _ w⟩
    rw [hself, h.freed z hz]
    refine ⟨rfl, hx, ?_⟩
    rw [Function.update_self]
    rfl

end TableOk

end MixedGroup

namespace Block

variable {b c : Block}

theorem Apart.symm (h : b.Apart c) : c.Apart b := Or.symm h

/-- Blocks that are apart start at different places. -/
theorem Apart.ptr_ne (h : b.Apart c) (hb : 0 < b.size) (hc : 0 < c.size) : b.ptr ≠ c.ptr := by
  rcases h with h | h <;> omega

end Block

theorem Page.Apart.symm {p q : Page} (h : p.Apart q) : q.Apart p := Or.symm h

namespace PoolState

instance : Std.Symm Block.Apart := ⟨fun _ _ => Block.Apart.symm⟩

/-- **The invariant of the pool.** -/
structure PoolInv (s : PoolState) : Prop where
  apart : (s.live ++ s.freed).Pairwise Block.Apart
  size : ∀ b ∈ s.live ++ s.freed, 0 < b.size
  inside : ∀ b ∈ s.live ++ s.freed, ∃ p ∈ (s.group b.group).pages,
    p.base + pageHeader ≤ b.ptr ∧ b.ptr + b.size ≤ p.base + p.ptr
  pages_ne : ∀ g, (s.group g).pages ≠ []
  page : ∀ g, ∀ p ∈ (s.group g).pages,
    0 < p.base ∧ pageHeader ≤ p.ptr ∧ p.ptr ≤ p.size ∧ 256 ≤ p.size
  pages : ∀ g, (s.group g).pages.Pairwise Page.Apart
  across : ∀ g h, g ≠ h → ∀ p ∈ (s.group g).pages, ∀ q ∈ (s.group h).pages, p.Apart q
  table : ∀ g, TableOk s.next (s.group g) (s.freedOf g) (s.sizes g)

variable {s s' : PoolState} {g : GroupId} {x z : ℕ}

theorem PoolInv.good (h : s.PoolInv) : s.PoolGood := by
  refine ⟨(List.pairwise_append.mp h.apart).1, fun b hb => ?_, fun g => (h.table g).sorted,
    fun g => (h.table g).numFree, fun g => (h.table g).entries, fun g => (h.table g).lists⟩
  obtain ⟨p, hp, h1, h2⟩ := h.inside b (List.mem_append_left _ hb)
  have h3 := (h.page b.group p hp).2.2.1
  exact ⟨p, hp, h1, by omega⟩

/-- A freed block, found by its place. -/
theorem mem_freedOf : x ∈ s.freedOf g z ↔ (⟨g, x, z⟩ : Block) ∈ s.freed := by
  rw [freedOf, List.mem_map]
  constructor
  · rintro ⟨b, hb, rfl⟩
    obtain ⟨hmem, hcond⟩ := List.mem_filter.mp hb
    obtain ⟨rfl, rfl⟩ := of_decide_eq_true hcond
    exact hmem
  · intro hmem
    exact ⟨_, List.mem_filter.mpr ⟨hmem, by simp⟩, rfl⟩

/-- The freed blocks of a size when the first of them is taken. -/
theorem freedOf_take {l : List ℕ} (hl : s.freedOf g z = x :: l)
    (hfreed : s'.freed = s.freed.erase ⟨g, x, z⟩) :
    s'.freedOf g z = l ∧ ∀ h w, (h, w) ≠ (g, z) → s'.freedOf h w = s.freedOf h w := by
  constructor
  · rw [freedOf, List.map_eq_cons_iff] at hl
    obtain ⟨b, bs, hfilter, rfl, rfl⟩ := hl
    have hb : b ∈ s.freed.filter fun b => b.group = g ∧ b.size = z := by
      rw [hfilter]
      exact List.mem_cons_self
    obtain ⟨rfl, rfl⟩ := of_decide_eq_true (List.mem_filter.mp hb).2
    rw [freedOf, hfreed, ← List.erase_filter, hfilter, List.erase_cons_head]
  · intro h w hne
    rw [freedOf, freedOf, hfreed, ← List.erase_filter, List.erase_of_not_mem]
    intro hmem
    obtain ⟨h1, h2⟩ := of_decide_eq_true (List.mem_filter.mp hmem).2
    exact hne (by rw [← h1, ← h2])

/-- The freed blocks of a size when another is freed. -/
theorem freedOf_put (hfreed : s'.freed = ⟨g, x, z⟩ :: s.freed) :
    s'.freedOf g z = x :: s.freedOf g z ∧
      ∀ h w, (h, w) ≠ (g, z) → s'.freedOf h w = s.freedOf h w := by
  constructor
  · rw [freedOf, freedOf, hfreed, List.filter_cons_of_pos (by simp), List.map_cons]
  · intro h w hne
    rw [freedOf, freedOf, hfreed, List.filter_cons_of_neg]
    intro hcond
    obtain ⟨h1, h2⟩ := of_decide_eq_true hcond
    exact hne (by rw [← h1, ← h2])

/-- **A client writes to a block that it holds**: no list of freed blocks is touched. -/
theorem PoolInv.write (h : s.PoolInv) {a v : ℕ} (hallowed : s.Allowed (.write a v)) :
    PoolInv { s with next := Function.update s.next a v } := by
  obtain ⟨b, hb, hle, hlt⟩ := hallowed
  refine { h with table := fun g => (h.table g).congr rfl rfl fun z x hx => ?_ }
  refine Function.update_of_ne ?_ _ _
  rintro rfl
  have hmem := mem_freedOf.mp hx
  have hapart := (List.pairwise_append.mp h.apart).2.2 b hb _ hmem
  have hpos := h.size _ (List.mem_append_right _ hmem)
  rcases hapart with hap | hap <;> dsimp only at hap hpos <;> omega

/-- Requests that move blocks between the clients and the lists, and leave the pages alone. -/
theorem PoolInv.of_perm (h : s.PoolInv) (hperm : (s'.live ++ s'.freed).Perm (s.live ++ s.freed))
    (hpages : ∀ k, (s'.group k).pages = (s.group k).pages)
    (htable : ∀ k, TableOk s'.next (s'.group k) (s'.freedOf k) (s'.sizes k)) : s'.PoolInv := by
  refine ⟨(hperm.pairwise_iff Block.Apart.symm).mpr h.apart,
    fun b hb => h.size b (hperm.mem_iff.mp hb), fun b hb => ?_, fun k => ?_, fun k => ?_,
    fun k => ?_, fun k k' hk => ?_, htable⟩
  · rw [hpages]
    exact h.inside b (hperm.mem_iff.mp hb)
  · rw [hpages]
    exact h.pages_ne k
  · rw [hpages]
    exact h.page k
  · rw [hpages]
    exact h.pages k
  · rw [hpages, hpages]
    exact h.across k k' hk

/-- A freed block is handed out again. -/
theorem PoolInv.take (h : s.PoolInv) {i : ℕ} (hi : i < (s.group g).numFree)
    (hsize : ((s.group g).frees i).size = z) (hx : ((s.group g).frees i).list = x) (hx0 : x ≠ 0)
    (hgroup : s'.group = Function.update s.group g { s.group g with
      frees := Function.update (s.group g).frees i ⟨z, s.next x⟩ })
    (hnext : s'.next = s.next) (hsizes : s'.sizes = s.sizes)
    (hlive : s'.live = ⟨g, x, z⟩ :: s.live) (hfreed : s'.freed = s.freed.erase ⟨g, x, z⟩) :
    (⟨g, x, z⟩ : Block) ∈ s.freed ∧ s'.PoolInv := by
  have hchain := (h.table g).lists i hi
  rw [hx, hsize] at hchain
  obtain ⟨l, hl, hrest⟩ : ∃ l, s.freedOf g z = x :: l ∧ Chain s.next (s.next x) l := by
    cases hcase : s.freedOf g z with
    | nil =>
      rw [hcase] at hchain
      exact absurd hchain hx0
    | cons y l =>
      rw [hcase] at hchain
      obtain ⟨rfl, -, hrest⟩ := hchain
      exact ⟨l, rfl, hrest⟩
  have hmem : (⟨g, x, z⟩ : Block) ∈ s.freed := by
    rw [← mem_freedOf, hl]
    exact List.mem_cons_self
  obtain ⟨htake, hother⟩ := freedOf_take hl hfreed
  refine ⟨hmem, h.of_perm ?_ (fun k => ?_) fun k => ?_⟩
  · rw [hlive, hfreed, List.cons_append]
    exact List.perm_middle.symm.trans ((List.perm_cons_erase hmem).symm.append_left s.live)
  · rw [hgroup]
    by_cases hk : k = g
    · subst hk
      rw [Function.update_self]
    · rw [Function.update_of_ne hk]
  · rw [hgroup, hnext, hsizes]
    by_cases hk : k = g
    · subst hk
      rw [Function.update_self]
      refine (h.table k).update hi hsize (htake ▸ hrest) fun w hw => ⟨hother k w ?_, fun _ _ => rfl⟩
      exact fun heq => hw (Prod.mk.inj heq).2
    · rw [Function.update_of_ne hk]
      have hsame : s'.freedOf k = s.freedOf k := by
        funext w
        exact hother k w fun heq => hk (Prod.mk.inj heq).1
      rw [hsame]
      exact h.table k

/-- **A block is freed.** -/
theorem PoolInv.deallocate (h : s.PoolInv) {ptr : ℕ} {r : Request}
    (hallowed : s.Allowed (.deallocate ptr r)) (hcareful : s.Careful (.deallocate ptr r)) :
    ∃ s', s.step (.deallocate ptr r) = some s' ∧ s'.PoolInv := by
  have hlive : (⟨r.group, ptr, r.rounded⟩ : Block) ∈ s.live := hallowed
  have hfree : (s.group r.group).CanFree r.rounded := hcareful
  obtain ⟨p, hp, hptr, -⟩ := h.inside _ (List.mem_append_left _ hlive)
  have hbase := (h.page _ p hp).1
  have hptr0 : ptr ≠ 0 := by
    have hptr' : p.base + pageHeader ≤ ptr := hptr
    omega
  -- the block is in no list
  have hout : ∀ k w, ptr ∉ s.freedOf k w := by
    intro k w hmem
    have hmem' := mem_freedOf.mp hmem
    have hapart := (List.pairwise_append.mp h.apart).2.2 _ hlive _ hmem'
    exact hapart.ptr_ne (h.size _ (List.mem_append_left _ hlive))
      (h.size _ (List.mem_append_right _ hmem')) rfl
  obtain ⟨sizes, hsizes⟩ : ∃ sizes, sizes =
      Function.update s.sizes r.group (r.rounded :: s.sizes r.group) := ⟨_, rfl⟩
  obtain ⟨freed, hfreed⟩ : ∃ freed, freed = (⟨r.group, ptr, r.rounded⟩ : Block) :: s.freed := ⟨_, rfl⟩
  obtain ⟨hput, hother⟩ := (freedOf_put hfreed :
    (⟨s.group, s.next, [], freed, sizes⟩ : PoolState).freedOf r.group r.rounded = _ ∧ _)
  obtain ⟨g', v, heq, hpages, hok⟩ := (h.table r.group).free hfree hptr0 (hout r.group) hput
    fun w hw => hother r.group w fun he => hw (Prod.mk.inj he).2
  refine ⟨⟨Function.update s.group r.group g', Function.update s.next ptr v,
    s.live.erase ⟨r.group, ptr, r.rounded⟩, freed, sizes⟩, ?_, h.of_perm ?_ (fun k => ?_)
    fun k => ?_⟩
  · rw [step, MixedGroup.deallocate]
    rw [Request.rounded] at heq
    rw [heq, hfreed, hsizes]
    rfl
  · rw [hfreed]
    exact List.perm_middle.trans ((List.perm_cons_erase hlive).symm.append_right s.freed)
  · show (Function.update s.group r.group g' k).pages = _
    by_cases hk : k = r.group
    · subst hk
      rw [Function.update_self, hpages]
    · rw [Function.update_of_ne hk]
  · show TableOk _ (Function.update s.group r.group g' k) _ (sizes k)
    by_cases hk : k = r.group
    · subst hk
      rw [Function.update_self, hsizes, Function.update_self]
      exact hok
    · rw [Function.update_of_ne hk, hsizes, Function.update_of_ne hk]
      have hsame : freedOf ⟨Function.update s.group r.group g', Function.update s.next ptr v,
          s.live.erase ⟨r.group, ptr, r.rounded⟩, freed, sizes⟩ k = s.freedOf k := by
        funext w
        exact hother k w fun he => hk (Prod.mk.inj he).1
      rw [hsizes] at hsame
      rw [hsame]
      refine (h.table k).congr rfl rfl fun w y hy => Function.update_of_ne ?_ _ _
      rintro rfl
      exact hout k w hy

/-- A block that is cut from a page is apart from all others: each is in another page, or before it
in the same page. -/
theorem PoolInv.apart_cut (h : s.PoolInv) {p : Page} {ps : List Page} {b : Block}
    (hx : x + z = p.base + p.ptr) (hbase : p.base + pageHeader ≤ x) (hroom : p.ptr ≤ p.size)
    (hold : ∀ q ∈ (s.group g).pages, q ∈ ps ∨ q.base = p.base ∧ q.size = p.size ∧
      q.base + q.ptr ≤ x)
    (hpairwise : (p :: ps).Pairwise Page.Apart)
    (hacross : ∀ k, k ≠ g → ∀ q ∈ (s.group k).pages, q.Apart p) (hb : b ∈ s.live ++ s.freed) :
    b.Apart ⟨g, x, z⟩ := by
  obtain ⟨q, hq, hq1, hq2⟩ := h.inside b hb
  have hqsize := (h.page _ q hq).2.2.1
  have hpages : (q.Apart p) ∨ (q.base = p.base ∧ q.size = p.size ∧ q.base + q.ptr ≤ x) := by
    by_cases hbg : b.group = g
    · rw [hbg] at hq
      rcases hold q hq with hmem | hsame
      · exact Or.inl ((List.pairwise_cons.mp hpairwise).1 q hmem).symm
      · exact Or.inr hsame
    · exact Or.inl (hacross b.group hbg q hq)
  rcases hpages with (hap | hap) | ⟨h1, h2, h3⟩
  · refine Or.inl ?_
    show b.ptr + b.size ≤ x
    omega
  · refine Or.inr ?_
    show x + z ≤ b.ptr
    omega
  · refine Or.inl ?_
    show b.ptr + b.size ≤ x
    omega

/-- The pages of two groups, one of which may be the group that the block is cut in. -/
theorem PoolInv.across_cut (h : s.PoolInv) {p : Page} {ps : List Page}
    (hps : ∀ q ∈ ps, q ∈ (s.group g).pages)
    (hacross : ∀ k, k ≠ g → ∀ q ∈ (s.group k).pages, q.Apart p)
    (hself : (s'.group g).pages = p :: ps) (hother : ∀ k, k ≠ g → s'.group k = s.group k) :
    ∀ k k', k ≠ k' → ∀ q ∈ (s'.group k).pages, ∀ q' ∈ (s'.group k').pages, q.Apart q' := by
  intro k k' hk q hq q' hq'
  have hnew : ∀ k, k ≠ g → ∀ q ∈ (s.group k).pages, ∀ q' ∈ (s'.group g).pages, q.Apart q' := by
    intro k hk q hq q' hq'
    rw [hself, List.mem_cons] at hq'
    rcases hq' with rfl | hq'
    · exact hacross k hk q hq
    · exact h.across k g hk q hq q' (hps q' hq')
  by_cases hkg : k = g
  · subst hkg
    rw [hother k' (Ne.symm hk)] at hq'
    exact (hnew k' (Ne.symm hk) q' hq' q hq).symm
  · rw [hother k hkg] at hq
    by_cases hkg' : k' = g
    · subst hkg'
      exact hnew k hkg q hq q' hq'
    · rw [hother k' hkg'] at hq'
      exact h.across k k' hk q hq q' hq'

/-- **A block is cut from a page**, when its group has the pages `p :: ps` afterwards and `q` is
what the page was before, or a new page. -/
theorem PoolInv.cut (h : s.PoolInv) (p : Page) (ps : List Page) (hz : 0 < z)
    (hx : x + z = p.base + p.ptr) (hp : 0 < p.base ∧ p.base + pageHeader ≤ x ∧ p.ptr ≤ p.size ∧
      256 ≤ p.size)
    (hold : ∀ q ∈ (s.group g).pages, q ∈ ps ∨ q.base = p.base ∧ q.size = p.size ∧
      q.base + q.ptr ≤ x)
    (hps : ∀ q ∈ ps, q ∈ (s.group g).pages) (hpairwise : (p :: ps).Pairwise Page.Apart)
    (hacross : ∀ k, k ≠ g → ∀ q ∈ (s.group k).pages, q.Apart p)
    (hgroup : s'.group = Function.update s.group g { s.group g with pages := p :: ps })
    (hnext : s'.next = s.next) (hsizes : s'.sizes = s.sizes)
    (hlive : s'.live = ⟨g, x, z⟩ :: s.live) (hfreed : s'.freed = s.freed.erase ⟨g, x, z⟩) :
    (∀ b ∈ s.live ++ s.freed, b.Apart ⟨g, x, z⟩) ∧ s'.PoolInv := by
  have hself : (s'.group g).pages = p :: ps := by
    rw [hgroup, Function.update_self]
  have hother : ∀ k, k ≠ g → s'.group k = s.group k := by
    intro k hk
    rw [hgroup, Function.update_of_ne hk]
  have hapart : ∀ b ∈ s.live ++ s.freed, b.Apart ⟨g, x, z⟩ := fun b hb =>
    h.apart_cut hx hp.2.1 hp.2.2.1 hold hpairwise hacross hb
  have hnot : (⟨g, x, z⟩ : Block) ∉ s.freed := by
    intro hmem
    exact (hapart _ (List.mem_append_right _ hmem)).ptr_ne hz hz rfl
  rw [List.erase_of_not_mem hnot] at hfreed
  have hblocks : s'.live ++ s'.freed = ⟨g, x, z⟩ :: (s.live ++ s.freed) := by
    rw [hlive, hfreed, List.cons_append]
  refine ⟨hapart, ?_, fun b hb => ?_, fun b hb => ?_, fun k => ?_, fun k q hq => ?_, fun k => ?_,
    fun k k' hk q hq q' hq' => ?_, fun k => ?_⟩
  · rw [hblocks, List.pairwise_cons]
    exact ⟨fun b hb => (hapart b hb).symm, h.apart⟩
  · rw [hblocks, List.mem_cons] at hb
    rcases hb with rfl | hb
    · exact hz
    · exact h.size b hb
  · rw [hblocks, List.mem_cons] at hb
    rcases hb with rfl | hb
    · refine ⟨p, ?_, hp.2.1, le_of_eq hx⟩
      show p ∈ (s'.group g).pages
      rw [hself]
      exact List.mem_cons_self
    · obtain ⟨q, hq, hq1, hq2⟩ := h.inside b hb
      by_cases hbg : b.group = g
      · rw [hbg] at hq ⊢
        rw [hself]
        rcases hold q hq with hmem | ⟨h1, h2, h3⟩
        · exact ⟨q, List.mem_cons_of_mem p hmem, hq1, hq2⟩
        · exact ⟨p, List.mem_cons_self, by omega, by omega⟩
      · rw [hother _ hbg]
        exact ⟨q, hq, hq1, hq2⟩
  · by_cases hk : k = g
    · subst hk
      rw [hself]
      simp
    · rw [hother k hk]
      exact h.pages_ne k
  · by_cases hk : k = g
    · subst hk
      rw [hself, List.mem_cons] at hq
      rcases hq with rfl | hq
      · exact ⟨hp.1, by omega, hp.2.2⟩
      · exact h.page k q (hps q hq)
    · rw [hother k hk] at hq
      exact h.page k q hq
  · by_cases hk : k = g
    · subst hk
      rw [hself]
      exact hpairwise
    · rw [hother k hk]
      exact h.pages k
  · exact h.across_cut hps hacross hself hother k k' hk q hq q' hq'
  · have hsame : s'.freedOf k = s.freedOf k := by
      funext w
      rw [freedOf, freedOf, hfreed]
    rw [hsame, hnext, hsizes]
    by_cases hk : k = g
    · subst hk
      rw [hgroup, Function.update_self]
      exact (h.table k).congr rfl rfl fun _ _ _ => rfl
    · rw [hother k hk]
      exact h.table k

/-- **A block is allocated**: it was freed with this size, or it is apart from all others. -/
theorem PoolInv.allocate (h : s.PoolInv) {r : Request} {base : ℕ}
    (hallowed : s.Allowed (.allocate r base)) (hstep : s.step (.allocate r base) = some s') :
    (∀ b ∈ s.freed, b = s.newBlock r base ∨ b.Apart (s.newBlock r base)) ∧ s'.PoolInv := by
  obtain ⟨hbase, hfresh⟩ := hallowed
  have hz : 0 < r.rounded := Nat.lt_of_lt_of_le (by decide) (Nat.le_max_left _ _)
  have hs' := (Option.some.inj hstep).symm
  obtain ⟨q, hq⟩ : ∃ q, q = (s.group r.group).allocateObj s.next r.rounded base := ⟨_, rfl⟩
  have hblock : s.newBlock r base = ⟨r.group, q.2, r.rounded⟩ := by
    rw [hq]
    rfl
  have hgroup : s'.group = Function.update s.group r.group q.1 := by
    rw [hs', hq]
    rfl
  have hlive : s'.live = ⟨r.group, q.2, r.rounded⟩ :: s.live := by
    rw [hs', ← hblock]
  have hfreed : s'.freed = s.freed.erase ⟨r.group, q.2, r.rounded⟩ := by
    rw [hs', ← hblock]
  have hnext : s'.next = s.next := by rw [hs']
  have hsizes : s'.sizes = s.sizes := by rw [hs']
  rw [hblock]
  rcases allocateObj_cases (h.table r.group).sorted with ⟨i, hi, hsize, hlist, heq⟩ | heq
  · rw [← hq] at heq
    have hq2 : q.2 = ((s.group r.group).frees i).list := by rw [heq]
    obtain ⟨hmem, hinv⟩ := h.take hi hsize hq2.symm (hq2 ▸ hlist)
      (by rw [hgroup, hq2, heq]) hnext hsizes hlive hfreed
    refine ⟨fun b hb => ?_, hinv⟩
    by_cases hbq : b = ⟨r.group, q.2, r.rounded⟩
    · exact Or.inl hbq
    · exact Or.inr (List.Pairwise.forall (List.pairwise_append.mp h.apart).2.1 hb hmem hbq)
  · rw [← hq] at heq
    have hcut : (∀ b ∈ s.live ++ s.freed, b.Apart ⟨r.group, q.2, r.rounded⟩) ∧ s'.PoolInv := by
      rcases allocateFresh_cases (h.pages_ne r.group) with ⟨p, ps, hp, hroom, hcases⟩ | hcases
      · rw [hcases] at heq
        have hpage := h.page r.group p (hp ▸ List.mem_cons_self)
        have hpairwise := h.pages r.group
        rw [hp] at hpairwise
        refine h.cut { p with ptr := p.ptr + r.rounded } ps hz ?_ ?_ ?_ ?_ ?_ ?_ ?_ hnext hsizes hlive
          hfreed
        · rw [heq]
          dsimp only
          omega
        · rw [heq]
          exact ⟨hpage.1, by dsimp only; omega, hroom, hpage.2.2.2⟩
        · intro p' hp'
          rw [hp, List.mem_cons] at hp'
          rcases hp' with rfl | hp'
          · exact Or.inr ⟨rfl, rfl, by rw [heq]⟩
          · exact Or.inl hp'
        · intro p' hp'
          rw [hp]
          exact List.mem_cons_of_mem p hp'
        · rw [List.pairwise_cons] at hpairwise ⊢
          exact ⟨fun p' hp' => hpairwise.1 p' hp', hpairwise.2⟩
        · intro k hk p' hp'
          exact h.across k r.group hk p' hp' p (hp ▸ List.mem_cons_self)
        · rw [hgroup, heq]
      · rw [hcases] at heq
        have hcurrent : 256 ≤ (s.group r.group).currentSize := by
          obtain ⟨p, ps, hp⟩ := List.exists_cons_of_ne_nil (h.pages_ne r.group)
          rw [currentSize, hp]
          exact (h.page r.group p (hp ▸ List.mem_cons_self)).2.2.2
        obtain ⟨size, hnew⟩ : ∃ size, size =
            newPageSize ((s.group r.group).currentSize * 2) r.rounded := ⟨_, rfl⟩
        obtain ⟨hlarge, hroom⟩ :=
          newPageSize_spec ((s.group r.group).currentSize * 2) r.rounded (by omega)
        rw [← hnew] at hlarge hroom heq hfresh
        refine h.cut ⟨base, pageHeader + r.rounded, size⟩ (s.group r.group).pages hz ?_ ?_ ?_ ?_ ?_ ?_
          ?_ hnext hsizes hlive hfreed
        · rw [heq]
          dsimp only
          omega
        · rw [heq]
          exact ⟨hbase, le_refl _, hroom, by dsimp only; omega⟩
        · exact fun p' hp' => Or.inl hp'
        · exact fun p' hp' => hp'
        · rw [List.pairwise_cons]
          exact ⟨fun p' hp' => (hfresh r.group p' hp').symm, h.pages r.group⟩
        · exact fun k _ p' hp' => hfresh k p' hp'
        · rw [hgroup, heq]
    exact ⟨fun b hb => Or.inr (hcut.1 b (List.mem_append_right _ hb)), hcut.2⟩

/-! ## Runs -/

/-- The pool at the start. -/
theorem inv_init (frees : GroupId → ℕ → FreeSize) (next : ℕ → ℕ) {base : GroupId → ℕ}
    (h : StartPages base) : PoolInv (init frees next base) := by
  have hpages : ∀ g, ((init frees next base).group g).pages =
      [⟨base g, pageHeader, startPageSize g⟩] := fun g => rfl
  have hstart : ∀ g, 256 ≤ startPageSize g := by
    intro g
    cases g <;> decide
  refine ⟨List.Pairwise.nil, by simp [init], by simp [init], fun g => ?_, fun g p hp => ?_,
    fun g => ?_, fun g k hk p hp q hq => ?_, fun g => ?_⟩
  · rw [hpages]
    simp
  · rw [hpages, List.mem_singleton] at hp
    subst hp
    exact ⟨h.1 g, le_refl _, le_trans (by decide : pageHeader ≤ 256) (hstart g), hstart g⟩
  · rw [hpages]
    exact List.pairwise_singleton _ _
  · rw [hpages, List.mem_singleton] at hp hq
    subst hp
    subst hq
    exact h.2 g k hk
  · have hzero : ((init frees next base).group g).numFree = 0 := rfl
    refine ⟨fun i j _ hj => ?_, ?_, fun z => ?_, fun i hi => ?_, fun z _ => rfl⟩
    · rw [hzero] at hj
      exact absurd hj (Nat.not_lt_zero j)
    · rw [hzero]
      exact Nat.zero_le _
    · constructor
      · exact fun hz => absurd hz (by simp [init])
      · rintro ⟨i, hi, -⟩
        exact absurd hi (Nat.not_lt_zero i)
    · exact absurd hi (Nat.not_lt_zero i)

theorem Reach.inv (h : Reach Careful s) : s.PoolInv := by
  induction h with
  | init frees next base hbase => exact inv_init frees next hbase
  | step e _ hallowed hcareful hstep ih =>
    cases e with
    | allocate r base => exact (ih.allocate hallowed hstep).2
    | deallocate ptr r =>
      obtain ⟨s₁, hs₁, hinv⟩ := ih.deallocate hallowed hcareful
      rw [hs₁] at hstep
      exact Option.some.inj hstep ▸ hinv
    | write a v => exact Option.some.inj hstep ▸ ih.write hallowed

/-- **In every run of careful requests** the state is good, and the next careful request is
served. -/
theorem pool_good (h : Reach Careful s) :
    s.PoolGood ∧ ∀ e, s.Allowed e → s.Careful e → s.RequestGood e := by
  have hinv := h.inv
  refine ⟨hinv.good, fun e hallowed hcareful => ?_⟩
  cases e with
  | allocate r base =>
    refine ⟨⟨_, rfl⟩, fun r' base' heq => ?_⟩
    obtain ⟨rfl, rfl⟩ := PoolEvent.allocate.inj heq
    exact (hinv.allocate hallowed rfl).1
  | deallocate ptr r =>
    obtain ⟨s₁, hs₁, -⟩ := hinv.deallocate hallowed hcareful
    exact ⟨⟨s₁, hs₁⟩, fun r' base' heq => absurd heq (by simp)⟩
  | write a v => exact ⟨⟨_, rfl⟩, fun r' base' heq => absurd heq (by simp)⟩

/-! ## A block that is lost -/

/-- Where the system puts the first pages. -/
def exampleBase : GroupId → ℕ
  | .conses => 10000
  | .small => 20000
  | .medium => 30000
  | .large => 40000

theorem startPages_exampleBase : StartPages exampleBase := by
  refine ⟨fun g => by cases g <;> decide, fun g h hne => ?_⟩
  cases g <;> cases h <;> first | exact absurd rfl hne | (left; decide) | (right; decide)

/-- The pool at the start, when all entries of the tables have the size `c` in memory. -/
def exampleStart (c : ℕ) : PoolState := init (fun _ _ => ⟨c, 0⟩) (fun _ => 0) exampleBase

/-- The state after one block of 16 bytes was allocated. -/
def exampleHeld (c : ℕ) : PoolState :=
  { exampleStart c with
    group := Function.update (exampleStart c).group .small
      ⟨0, fun _ => ⟨c, 0⟩, [⟨20000, 48, 1024⟩]⟩
    live := [⟨.small, 20032, 16⟩] }

theorem reach_exampleHeld {P : PoolState → PoolEvent → Prop} {c : ℕ}
    (hP : P (exampleStart c) (.allocate ⟨false, 16⟩ 1000000)) : Reach P (exampleHeld c) := by
  refine (Reach.init _ _ _ startPages_exampleBase).step (.allocate ⟨false, 16⟩ 1000000) ?_ hP rfl
  refine ⟨by decide, fun g p hp => Or.inl ?_⟩
  have hmem : p ∈ [(⟨exampleBase g, pageHeader, startPageSize g⟩ : Page)] := hp
  rw [List.mem_singleton] at hmem
  subst hmem
  show exampleBase g + startPageSize g ≤ 1000000
  cases g <;> decide

/-- **A pool whose memory was zero loses the first block that is freed**: the size is entered behind
the first entry, which is the only one that counts. -/
theorem not_forall_pool_good :
    ¬ ∀ s, Reach (fun _ _ => True) s → s.PoolGood ∧ ∀ e, s.Allowed e → s.RequestGood e := by
  intro h
  have hs : ((exampleHeld 0).step (.deallocate 20032 ⟨false, 16⟩)).map (fun s =>
      (s.sizes .small, (s.group .small).numFree, ((s.group .small).frees 0).size)) =
      some ([16], 1, 0) := by
    decide +kernel
  obtain ⟨s, hstep, hvalues⟩ := Option.map_eq_some_iff.mp hs
  obtain ⟨hsizes, hrest⟩ := Prod.mk.inj hvalues
  obtain ⟨hnum, hfirst⟩ := Prod.mk.inj hrest
  have hreach : Reach (fun _ _ => True) s :=
    (reach_exampleHeld trivial).step (.deallocate 20032 ⟨false, 16⟩) List.mem_cons_self trivial hstep
  have hentry := (h s hreach).1.entries .small 16
  rw [hsizes, hnum] at hentry
  obtain ⟨i, hi, hsize⟩ := hentry.mp List.mem_cons_self
  obtain rfl : i = 0 := by omega
  rw [hfirst] at hsize
  exact absurd hsize (by decide)

/-- With a larger size in the first entry, the block that is freed is found again. -/
theorem pool_good_freed : ∃ s, Reach Careful s ∧ s.freed = [⟨.small, 20032, 16⟩] ∧ s.PoolGood ∧
    (s.Allowed (.allocate ⟨false, 16⟩ 1000000) → s.RequestGood (.allocate ⟨false, 16⟩ 1000000)) := by
  have hs : ((exampleHeld 100).step (.deallocate 20032 ⟨false, 16⟩)).map PoolState.freed =
      some [⟨.small, 20032, 16⟩] := by
    decide +kernel
  obtain ⟨s, hstep, hfreed⟩ := Option.map_eq_some_iff.mp hs
  have hcareful : (exampleHeld 100).Careful (.deallocate 20032 ⟨false, 16⟩) :=
    ⟨by decide, fun _ => by decide, Or.inl (by decide)⟩
  have hreach : Reach Careful s :=
    (reach_exampleHeld trivial).step (.deallocate 20032 ⟨false, 16⟩) List.mem_cons_self hcareful
      hstep
  obtain ⟨hgood, hrequest⟩ := pool_good hreach
  exact ⟨s, hreach, hfreed, hgood, fun hallowed => hrequest _ hallowed trivial⟩

end PoolState

end Meld
