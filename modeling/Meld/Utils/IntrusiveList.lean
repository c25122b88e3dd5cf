import Mathlib.Data.List.Perm.Subperm
import Mathlib.Data.Option.Basic
import Meld.Lib.Linked

/-!
# Intrusive lists

`intrusive_list` links its elements through two pointers that lie in the elements themselves, or
for `indirect_intrusive_next` and `indirect_intrusive_prev` in the object that `data` of the element
points to.  The list has a head, a tail and a size.  `pop_front`, `erase` and `clear` leave the
pointers of an element that goes as they are.

An element is a natural number and `0` is the null pointer.  Every read and write of a pointer of an
element that is not there fails, and so does an assertion that is false.

* `pushFront`, `pushBack`, `popFront`, `erase`, `spliceFront`, `spliceBack`, `clear`, `isEmpty`: the
  operations.
* `Holds links s l`: the list `s` is the list `l`.
* `Holds.pushFront`, `Holds.pushBack`, `Holds.popFront`, `Holds.erase`, `Holds.spliceFront`,
  `Holds.spliceBack`, `Holds.isEmpty`: the operations do not fail on a list that holds one.
-/

namespace Meld

open Linked (Links Seg join)

/-- `intrusive_list`. -/
structure IntrusiveList where
  head : ℕ
  tail : ℕ
  size : BitVec 64
  deriving DecidableEq

namespace IntrusiveList

/-- The list after its constructor, and after `clear`. -/
def nil : IntrusiveList := ⟨0, 0, 0⟩

/-! ## The pointers of the elements -/

/-- `Prev()(x)`. -/
def prev (links : Links) (x : ℕ) : Option ℕ := (links x).map Prod.fst

/-- `Next()(x)`. -/
def next (links : Links) (x : ℕ) : Option ℕ := (links x).map Prod.snd

/-- The pointers after `prev` of `x` is written. -/
def withPrev (links : Links) (x p : ℕ) : Links := fun a =>
  (links a).map fun l => (if a = x then p else l.1, l.2)

/-- The pointers after `next` of `x` is written. -/
def withNext (links : Links) (x n : ℕ) : Links := fun a =>
  (links a).map fun l => (l.1, if a = x then n else l.2)

/-- `Prev().set(x, p)`. -/
def setPrev (links : Links) (x p : ℕ) : Option Links :=
  if (links x).isSome then some (withPrev links x p) else none

/-- `Next().set(x, n)`. -/
def setNext (links : Links) (x n : ℕ) : Option Links :=
  if (links x).isSome then some (withNext links x n) else none

/-! ## The operations -/

/-- `empty`. -/
def isEmpty (s : IntrusiveList) : Option Bool := do
  guard (s.head = 0 ∧ s.size = 0 ∨ s.head ≠ 0 ∧ 0 < s.size)
  return s.head = 0

/-- `push_front`. -/
def pushFront (links : Links) (s : IntrusiveList) (n : ℕ) : Option (Links × IntrusiveList) := do
  let (links, head, tail) ←
    if s.head = 0 then do
      guard (s.size = 0)
      guard (s.tail = 0)
      pure (← setNext links n 0, n, n)
    else do
      guard (s.head ≠ 0 ∧ s.tail ≠ 0)
      guard (0 < s.size)
      let links ← setPrev links s.head n
      pure (← setNext links n s.head, n, s.tail)
  let links ← setPrev links n 0
  guard (n = head)
  guard ((← next links tail) = 0)
  guard ((← prev links head) = 0)
  return (links, ⟨head, tail, s.size + 1⟩)

/-- `push_back`. -/
def pushBack (links : Links) (s : IntrusiveList) (n : ℕ) : Option (Links × IntrusiveList) := do
  let (links, head, tail) ←
    if s.head = 0 then do
      guard (s.size = 0)
      guard (s.tail = 0)
      pure (← setPrev links n 0, n, n)
    else do
      guard (s.tail ≠ 0)
      guard (0 < s.size)
      let links ← setNext links s.tail n
      let links ← setPrev links n s.tail
      guard ((← prev links s.tail) ≠ s.tail)
      guard (n ≠ s.head)
      pure (links, s.head, n)
  let links ← setNext links tail 0
  guard (n = tail)
  guard ((← next links tail) = 0)
  guard ((← prev links head) = 0)
  return (links, ⟨head, tail, s.size + 1⟩)

/-- `pop_front`: the element, or `0` if the list is empty. -/
def popFront (links : Links) (s : IntrusiveList) : Option (ℕ × Links × IntrusiveList) :=
  if s.head = 0 then some (0, links, s)
  else do
    let head ← next links s.head
    let (links, tail) ←
      if head ≠ 0 then do pure (← setPrev links head 0, s.tail) else pure (links, 0)
    return (s.head, links, ⟨head, tail, s.size - 1⟩)

/-- `erase` of the element that the iterator points to.  The result is the iterator behind it. -/
def erase (links : Links) (s : IntrusiveList) (obj : ℕ) : Option (ℕ × Links × IntrusiveList) := do
  let it2 ← next links obj
  guard (0 < s.size)
  if obj = s.head then
    let head ← next links s.head
    guard ((← prev links obj) = 0)
    if obj = s.tail then
      guard (s.size = 1)
      guard (head = 0)
      guard ((← next links obj) = 0)
      return (it2, links, ⟨head, 0, s.size - 1⟩)
    else
      let links ← setPrev links head 0
      guard ((← next links s.tail) = 0)
      guard ((← prev links head) = 0)
      return (it2, links, ⟨head, s.tail, s.size - 1⟩)
  else
    guard (1 < s.size)
    let p ← prev links obj
    let n ← next links obj
    guard (p ≠ 0)
    let links ← setNext links p n
    let (links, tail) ←
      if n ≠ 0 then do pure (← setPrev links n p, s.tail)
      else do
        guard (n = 0)
        pure (links, p)
    guard ((← next links tail) = 0)
    guard ((← prev links s.head) = 0)
    return (it2, links, ⟨s.head, tail, s.size - 1⟩)

/-- `splice_front`: this list, behind which `ls` is cleared. -/
def spliceFront (links : Links) (s ls : IntrusiveList) : Option (Links × IntrusiveList) := do
  let (links, head, tail) ←
    if s.tail = 0 then do
      guard (s.head = 0)
      guard (ls.tail = 0 ∨ next links ls.tail = some 0)
      guard (ls.head = 0 ∨ prev links ls.head = some 0)
      pure (links, ls.head, ls.tail)
    else do
      guard (s.head ≠ 0)
      let links ← setPrev links s.head ls.tail
      let (links, head) ←
        if ls.tail ≠ 0 then do
          let links ← setNext links ls.tail s.head
          guard (ls.head ≠ 0)
          pure (links, ls.head)
        else do
          guard (ls.head = 0)
          guard ((← prev links s.head) = 0)
          pure (links, s.head)
      guard ((← next links s.tail) = 0)
      guard ((← prev links head) = 0)
      pure (links, head, s.tail)
  return (links, ⟨head, tail, s.size + ls.size⟩)

/-- `splice_back`: this list, behind which `ls` is cleared. -/
def spliceBack (links : Links) (s ls : IntrusiveList) : Option (Links × IntrusiveList) := do
  let (links, head, tail) ←
    if s.head = 0 then do
      guard (s.tail = 0)
      guard (ls.tail = 0 ∨ next links ls.tail = some 0)
      guard (ls.head = 0 ∨ prev links ls.head = some 0)
      pure (links, ls.head, ls.tail)
    else do
      guard (s.tail ≠ 0)
      let links ← setNext links s.tail ls.head
      let (links, tail) ←
        if ls.head ≠ 0 then do
          let links ← setPrev links ls.head s.tail
          guard (ls.tail ≠ 0)
          pure (links, ls.tail)
        else do
          guard (ls.tail = 0)
          guard ((← next links s.tail) = 0)
          pure (links, s.tail)
      guard ((← next links tail) = 0)
      guard ((← prev links s.head) = 0)
      pure (links, s.head, tail)
  return (links, ⟨head, tail, s.size + ls.size⟩)

/-! ## Pointers that are written -/

section Fields

variable {links : Links} {x y p n : ℕ}

theorem setPrev_eq (hx : (links x).isSome) (p : ℕ) :
    setPrev links x p = some (withPrev links x p) := by
  rw [setPrev, if_pos hx]

theorem setNext_eq (hx : (links x).isSome) (n : ℕ) :
    setNext links x n = some (withNext links x n) := by
  rw [setNext, if_pos hx]

@[simp] theorem isSome_withPrev : (withPrev links x p y).isSome = (links y).isSome := by
  rw [withPrev, Option.isSome_map]

@[simp] theorem isSome_withNext : (withNext links x n y).isSome = (links y).isSome := by
  rw [withNext, Option.isSome_map]

@[simp] theorem isSome_join : (join links p n y).isSome = (links y).isSome := by
  rw [join, Option.isSome_map]

/-- Two elements become neighbours when `prev` of the second is written, then `next` of the
first. -/
theorem withNext_withPrev : withNext (withPrev links n p) p n = join links p n := by
  funext a
  rw [withNext, withPrev, join, Option.map_map]
  rfl

theorem withPrev_withNext : withPrev (withNext links p n) n p = join links p n := by
  funext a
  rw [withPrev, withNext, join, Option.map_map]
  rfl

/-- The first element has the null pointer before it. -/
theorem withPrev_zero (h0 : links 0 = none) (n : ℕ) : withPrev links n 0 = join links 0 n := by
  funext a
  by_cases ha : a = 0
  · subst ha
    rw [withPrev, join, h0, Option.map_none, Option.map_none]
  · simp only [withPrev, join, if_neg ha]

/-- The last element has the null pointer behind it. -/
theorem withNext_zero (h0 : links 0 = none) (p : ℕ) : withNext links p 0 = join links p 0 := by
  funext a
  by_cases ha : a = 0
  · subst ha
    rw [withNext, join, h0, Option.map_none, Option.map_none]
  · simp only [withNext, join, if_neg ha]

theorem prev_join (hx : x ≠ n) : prev (join links p n) x = prev links x := by
  rw [prev, prev, join, Option.map_map]
  exact Option.map_congr fun l _ => if_neg hx

theorem join_zero_zero (h0 : links 0 = none) : join links 0 0 = links := by
  funext a
  by_cases ha : a = 0
  · subst ha
    rw [join, h0, Option.map_none]
  · simp only [join, if_neg ha, Option.map_id']

end Fields

/-! ## Changes to the elements -/

/-- No element comes or goes, and only the pointers of the elements `l` are written. -/
structure Changed (links links' : Links) (l : List ℕ) : Prop where
  isSome : ∀ a, (links' a).isSome = (links a).isSome
  elsewhere : ∀ a, a ∉ l → links' a = links a

theorem Changed.refl (links : Links) (l : List ℕ) : Changed links links l :=
  ⟨fun _ => rfl, fun _ _ => rfl⟩

theorem Changed.trans {links₁ links₂ links₃ : Links} {l : List ℕ} (h : Changed links₁ links₂ l)
    (h' : Changed links₂ links₃ l) : Changed links₁ links₃ l :=
  ⟨fun a => (h'.isSome a).trans (h.isSome a),
    fun a ha => (h'.elsewhere a ha).trans (h.elsewhere a ha)⟩

/-- Neighbours that are joined are written, unless they are null. -/
theorem changed_join {links : Links} (h0 : links 0 = none) {p n : ℕ} {l : List ℕ}
    (hp : p = 0 ∨ p ∈ l) (hn : n = 0 ∨ n ∈ l) : Changed links (join links p n) l := by
  refine ⟨fun a => isSome_join, fun a ha => ?_⟩
  by_cases ha0 : a = 0
  · rw [ha0, h0, Linked.join_eq_none, h0]
  · have hne : ∀ b, b = 0 ∨ b ∈ l → a ≠ b := by
      rintro b (rfl | hb) rfl
      · exact ha0 rfl
      · exact ha hb
    exact Linked.join_of_ne (hne p hp) (hne n hn)

/-! ## Lists of elements -/

/-- **The list is `l`.** -/
structure Holds (links : Links) (s : IntrusiveList) (l : List ℕ) : Prop where
  head : s.head = l.headD 0
  tail : s.tail = l.getLastD 0
  size : s.size = BitVec.ofNat 64 l.length
  seg : Seg links 0 l 0
  nodup : l.Nodup
  null : 0 ∉ l
  word : ∀ x ∈ l, x < 2 ^ 64

section Segments

variable {links : Links} {prv nxt x : ℕ} {l xs ys : List ℕ}

/-- The elements of a list are there. -/
theorem isSome_of_seg (hs : Seg links prv l nxt) (hx : x ∈ l) : (links x).isSome := by
  obtain ⟨xs, ys, rfl⟩ := List.append_of_mem hx
  rw [(Linked.seg_append.mp hs).2.1, Option.isSome_some]

theorem next_of_seg (xs : List ℕ) (hs : Seg links prv (xs ++ x :: ys) 0) :
    next links x = some (ys.headD 0) := by
  rw [next, (Linked.seg_append.mp hs).2.1, Option.map_some]

theorem prev_of_seg (xs : List ℕ) (hs : Seg links 0 (xs ++ x :: ys) nxt) :
    prev links x = some (xs.getLastD 0) := by
  rw [prev, (Linked.seg_append.mp hs).2.1, Option.map_some]

theorem headD_eq_or (l : List ℕ) : l.headD 0 = 0 ∨ l.headD 0 ∈ l := by
  cases l with
  | nil => exact Or.inl rfl
  | cons a l => exact Or.inr List.mem_cons_self

theorem getLastD_eq_or (l : List ℕ) : l.getLastD 0 = 0 ∨ l.getLastD 0 ∈ l := by
  by_cases hl : l = []
  · exact Or.inl (by rw [hl]; rfl)
  · exact Or.inr (Linked.getLastD_mem hl)

/-- Nothing is before the head. -/
theorem prev_headD (hs : Seg links 0 l 0) (hl : l ≠ []) : prev links (l.headD 0) = some 0 := by
  obtain ⟨a, as, rfl⟩ := List.exists_cons_of_ne_nil hl
  exact prev_of_seg [] hs

/-- Nothing is behind the tail. -/
theorem next_getLastD (hs : Seg links 0 l 0) (hl : l ≠ []) :
    next links (l.getLastD 0) = some 0 := by
  obtain ⟨xs, a, rfl⟩ := (List.eq_nil_or_concat' l).resolve_left hl
  rw [List.getLastD_concat]
  exact next_of_seg xs hs

end Segments

variable {links : Links} {s ls : IntrusiveList} {l l' xs ys : List ℕ} {x n : ℕ}

/-- An empty list. -/
theorem holds_nil (links : Links) : Holds links nil [] :=
  ⟨rfl, rfl, rfl, trivial, List.nodup_nil, List.not_mem_nil, fun _ h => absurd h List.not_mem_nil⟩

/-- A list is what it is as long as the pointers of its elements stay. -/
theorem Holds.congr (h : Holds links s l) {links' : Links} (heq : ∀ x ∈ l, links' x = links x) :
    Holds links' s l :=
  ⟨h.head, h.tail, h.size, Linked.seg_congr heq h.seg, h.nodup, h.null, h.word⟩

theorem Holds.ne_zero (h : Holds links s l) (hx : x ∈ l) : x ≠ 0 := by
  rintro rfl
  exact h.null hx

theorem Holds.isSome (h : Holds links s l) (hx : x ∈ l) : (links x).isSome :=
  isSome_of_seg h.seg hx

/-- The list is empty exactly when its head is null. -/
theorem Holds.head_eq_zero (h : Holds links s l) : s.head = 0 ↔ l = [] := by
  rw [h.head]
  refine ⟨fun hl => ?_, fun hl => by rw [hl]; rfl⟩
  by_contra hne
  exact h.ne_zero (Linked.headD_mem hne) hl

/-- The list is empty exactly when its tail is null. -/
theorem Holds.tail_eq_zero (h : Holds links s l) : s.tail = 0 ↔ l = [] := by
  rw [h.tail]
  refine ⟨fun hl => ?_, fun hl => by rw [hl]; rfl⟩
  by_contra hne
  exact h.ne_zero (Linked.getLastD_mem hne) hl

/-- Nothing is behind the tail, if there is one. -/
theorem Holds.next_tail (h : Holds links s l) : s.tail = 0 ∨ next links s.tail = some 0 := by
  by_cases hl : l = []
  · exact Or.inl (h.tail_eq_zero.mpr hl)
  · exact Or.inr (h.tail ▸ next_getLastD h.seg hl)

/-- Nothing is before the head, if there is one. -/
theorem Holds.prev_head (h : Holds links s l) : s.head = 0 ∨ prev links s.head = some 0 := by
  by_cases hl : l = []
  · exact Or.inl (h.head_eq_zero.mpr hl)
  · exact Or.inr (h.head ▸ prev_headD h.seg hl)

/-- A list of different addresses has fewer than `2 ^ 64` elements. -/
theorem Holds.length_lt (h : Holds links s l) : l.length < 2 ^ 64 := by
  have hsub : 0 :: l ⊆ List.range (2 ^ 64) := by
    intro x hx
    rw [List.mem_range]
    rcases List.mem_cons.mp hx with rfl | hx
    · exact Nat.two_pow_pos 64
    · exact h.word x hx
  have hnodup : (0 :: l).Nodup := List.nodup_cons.mpr ⟨h.null, h.nodup⟩
  have hlen := (List.subperm_of_subset hnodup hsub).length_le
  rwa [List.length_range] at hlen

/-- `size` is the number of elements. -/
theorem Holds.size_eq (h : Holds links s l) : s.size.toNat = l.length := by
  rw [h.size, BitVec.toNat_ofNat, Nat.mod_eq_of_lt h.length_lt]

/-- A list with more elements than a number. -/
theorem Holds.lt_size (h : Holds links s l) {k : ℕ} (hk : k < l.length) :
    BitVec.ofNat 64 k < s.size := by
  rw [BitVec.lt_def, h.size_eq, BitVec.toNat_ofNat, Nat.mod_eq_of_lt (Nat.lt_trans hk h.length_lt)]
  exact hk

/-- The element before the tail is another one. -/
theorem Holds.prev_tail (h : Holds links s l) (hl : l ≠ []) :
    ∃ p, prev links s.tail = some p ∧ p ≠ s.tail := by
  obtain ⟨xs, a, rfl⟩ := (List.eq_nil_or_concat' l).resolve_left hl
  rw [h.tail, List.getLastD_concat]
  refine ⟨_, prev_of_seg xs h.seg, fun heq => ?_⟩
  rcases getLastD_eq_or xs with hzero | hmem
  · exact h.ne_zero (List.mem_append_right xs List.mem_cons_self) (heq.symm.trans hzero)
  · exact List.disjoint_of_nodup_append h.nodup (heq ▸ hmem) List.mem_cons_self

/-! ## The operations on a list -/

/-- `empty`. -/
theorem Holds.isEmpty (h : Holds links s l) : s.isEmpty = some (decide (l = [])) := by
  have hassert : s.head = 0 ∧ s.size = 0 ∨ s.head ≠ 0 ∧ 0 < s.size := by
    by_cases hl : l = []
    · refine Or.inl ⟨h.head_eq_zero.mpr hl, ?_⟩
      rw [h.size, hl]
      rfl
    · exact Or.inr ⟨mt h.head_eq_zero.mp hl, h.lt_size (List.length_pos_of_ne_nil hl)⟩
  rw [IntrusiveList.isEmpty, guard, if_pos hassert]
  simp only [h.head_eq_zero]
  rfl

theorem Holds.size_of_nil (h : Holds links s []) : s.size = 0 := h.size

theorem Holds.size_pos (h : Holds links s l) (hl : l ≠ []) : 0#64 < s.size :=
  h.lt_size (List.length_pos_of_ne_nil hl)

/-- An element that is there is not the null pointer. -/
theorem ne_zero_of_isSome (h0 : links 0 = none) (hn : (links n).isSome) : n ≠ 0 := by
  rintro rfl
  rw [h0] at hn
  exact absurd hn (by decide)

/-- **A new head**: `n` is joined to the old head, then the null pointer to `n`. -/
theorem Holds.cons (h : Holds links s l) (h0 : links 0 = none) (hn : (links n).isSome)
    (hnl : n ∉ l) (hw : n < 2 ^ 64) :
    Holds (join (join links n s.head) 0 n) ⟨n, (n :: l).getLastD 0, s.size + 1⟩ (n :: l) ∧
      Changed links (join (join links n s.head) 0 n) (n :: l) := by
  have hnodup : (n :: l).Nodup := List.nodup_cons.mpr ⟨hnl, h.nodup⟩
  have hnull : 0 ∉ n :: l := by
    rw [List.mem_cons, not_or]
    exact ⟨(ne_zero_of_isSome h0 hn).symm, h.null⟩
  rw [h.head]
  constructor
  · refine ⟨rfl, rfl, ?_, ?_, hnodup, hnull, ?_⟩
    · show s.size + 1 = BitVec.ofNat 64 (l.length + 1)
      rw [h.size, BitVec.ofNat_add]
      rfl
    · obtain ⟨p, hp⟩ : ∃ p, join links n (l.headD 0) n = some (p, l.headD 0) := by
        obtain ⟨c, hc⟩ := Option.isSome_iff_exists.mp hn
        simp [join, hc]
      have hseg : Seg (join links n (l.headD 0)) p (n :: l) 0 :=
        ⟨hp, Linked.seg_join_right h.nodup hnl h.seg⟩
      exact Linked.seg_join_right hnodup hnull hseg
    · intro x hx
      rcases List.mem_cons.mp hx with rfl | hx
      · exact hw
      · exact h.word x hx
  · have hhead := (headD_eq_or l).imp_right (List.mem_cons_of_mem n)
    exact (changed_join h0 (Or.inr List.mem_cons_self) hhead).trans
      (changed_join (Linked.join_eq_none.mpr h0) (Or.inl rfl) (Or.inr List.mem_cons_self))

/-- **`push_front`** of an element that is not in the list. -/
theorem Holds.pushFront (h : Holds links s l) (h0 : links 0 = none) (hn : (links n).isSome)
    (hnl : n ∉ l) (hw : n < 2 ^ 64) :
    ∃ links' s', pushFront links s n = some (links', s') ∧ Holds links' s' (n :: l) ∧
      Changed links links' (n :: l) := by
  obtain ⟨hholds, hchanged⟩ := h.cons h0 hn hnl hw
  refine ⟨_, _, ?_, hholds, hchanged⟩
  have hprev : setPrev (join links n s.head) n 0 = some (join (join links n s.head) 0 n) := by
    rw [setPrev_eq (isSome_join.trans hn), withPrev_zero (Linked.join_eq_none.mpr h0)]
  have hlast := next_getLastD hholds.seg (List.cons_ne_nil n l)
  have hfirst : prev (join (join links n s.head) 0 n) n = some 0 :=
    prev_headD hholds.seg (List.cons_ne_nil n l)
  by_cases hl : l = []
  · subst hl
    have hhead : s.head = 0 := h.head
    have htail : s.tail = 0 := h.tail
    have hset : setNext links n 0 = some (join links n 0) := by
      rw [setNext_eq hn, withNext_zero h0]
    simp_all [IntrusiveList.pushFront, h.size_of_nil]
  · have hhead : s.head ≠ 0 := mt h.head_eq_zero.mp hl
    have htail : s.tail ≠ 0 := mt h.tail_eq_zero.mp hl
    have hset : setPrev links s.head n = some (withPrev links s.head n) :=
      setPrev_eq (h.head ▸ h.isSome (Linked.headD_mem hl)) n
    have hset' : setNext (withPrev links s.head n) n s.head = some (join links n s.head) := by
      rw [setNext_eq (isSome_withPrev.trans hn), withNext_withPrev]
    have hsize : (guard (0#64 < s.size) : Option Unit) = some () :=
      (Option.guard_eq_some' ()).mpr (h.size_pos hl)
    have hlast' : (n :: l).getLastD 0 = s.tail := by
      rw [h.tail]
      exact Linked.getLastD_append_of_ne_nil [n] hl
    rw [hlast'] at hlast ⊢
    simp [IntrusiveList.pushFront, hhead, htail, hsize, hset, hset', hprev, hlast, hfirst]

/-- **A new tail**: the old tail is joined to `n`, then `n` to the null pointer. -/
theorem Holds.concat (h : Holds links s l) (h0 : links 0 = none) (hn : (links n).isSome)
    (hnl : n ∉ l) (hw : n < 2 ^ 64) :
    Holds (join (join links s.tail n) n 0) ⟨(l ++ [n]).headD 0, n, s.size + 1⟩ (l ++ [n]) ∧
      Changed links (join (join links s.tail n) n 0) (l ++ [n]) := by
  have hnodup : (l ++ [n]).Nodup :=
    List.nodup_append'.mpr ⟨h.nodup, List.nodup_singleton n, List.disjoint_singleton.mpr hnl⟩
  have hnull : 0 ∉ l ++ [n] := by
    rw [List.mem_append, List.mem_singleton, not_or]
    exact ⟨h.null, (ne_zero_of_isSome h0 hn).symm⟩
  rw [h.tail]
  constructor
  · refine ⟨rfl, List.getLastD_concat.symm, ?_, ?_, hnodup, hnull, ?_⟩
    · show s.size + 1 = BitVec.ofNat 64 (l ++ [n]).length
      rw [h.size, List.length_append, BitVec.ofNat_add]
      rfl
    · obtain ⟨q, hq⟩ : ∃ q, join links (l.getLastD 0) n n = some (l.getLastD 0, q) := by
        obtain ⟨c, hc⟩ := Option.isSome_iff_exists.mp hn
        simp [join, hc]
      have hseg : Seg (join links (l.getLastD 0) n) 0 (l ++ [n]) q :=
        Linked.seg_append.mpr ⟨Linked.seg_join_left h.nodup hnl h.seg, hq, trivial⟩
      have hjoin := Linked.seg_join_left hnodup hnull hseg
      rwa [List.getLastD_concat] at hjoin
    · intro x hx
      rcases List.mem_append.mp hx with hx | hx
      · exact h.word x hx
      · rwa [List.mem_singleton.mp hx]
  · have htail := (getLastD_eq_or l).imp_right (List.mem_append_left [n])
    have hmem : n ∈ l ++ [n] := List.mem_append_right l List.mem_cons_self
    exact (changed_join h0 htail (Or.inr hmem)).trans
      (changed_join (Linked.join_eq_none.mpr h0) (Or.inr hmem) (Or.inl rfl))

/-- **`push_back`** of an element that is not in the list. -/
theorem Holds.pushBack (h : Holds links s l) (h0 : links 0 = none) (hn : (links n).isSome)
    (hnl : n ∉ l) (hw : n < 2 ^ 64) :
    ∃ links' s', pushBack links s n = some (links', s') ∧ Holds links' s' (l ++ [n]) ∧
      Changed links links' (l ++ [n]) := by
  obtain ⟨hholds, hchanged⟩ := h.concat h0 hn hnl hw
  refine ⟨_, _, ?_, hholds, hchanged⟩
  have hne : l ++ [n] ≠ [] := List.concat_ne_nil n l
  have hnext : setNext (join links s.tail n) n 0 = some (join (join links s.tail n) n 0) := by
    rw [setNext_eq (isSome_join.trans hn), withNext_zero (Linked.join_eq_none.mpr h0)]
  have hlast : next (join (join links s.tail n) n 0) n = some 0 := by
    have hlast := next_getLastD hholds.seg hne
    rwa [List.getLastD_concat] at hlast
  have hfirst := prev_headD hholds.seg hne
  by_cases hl : l = []
  · subst hl
    have hhead : s.head = 0 := h.head
    have htail : s.tail = 0 := h.tail
    have hset : setPrev links n 0 = some (join links 0 n) := by
      rw [setPrev_eq hn, withPrev_zero h0]
    simp_all [IntrusiveList.pushBack, h.size_of_nil]
  · have hhead : s.head ≠ 0 := mt h.head_eq_zero.mp hl
    have htail : s.tail ≠ 0 := mt h.tail_eq_zero.mp hl
    have hsize : (guard (0#64 < s.size) : Option Unit) = some () :=
      (Option.guard_eq_some' ()).mpr (h.size_pos hl)
    have hmem : s.tail ∈ l := h.tail ▸ Linked.getLastD_mem hl
    have hset : setNext links s.tail n = some (withNext links s.tail n) :=
      setNext_eq (h.isSome hmem) n
    have hset' : setPrev (withNext links s.tail n) n s.tail = some (join links s.tail n) := by
      rw [setPrev_eq (isSome_withNext.trans hn), withPrev_withNext]
    -- the element before the old tail is another one
    have hbefore : ∃ p, prev (join links s.tail n) s.tail = some p ∧ p ≠ s.tail := by
      obtain ⟨p, hp, hpne⟩ := h.prev_tail hl
      refine ⟨p, (prev_join ?_).trans hp, hpne⟩
      rintro rfl
      exact hnl hmem
    obtain ⟨p, hp, hpne⟩ := hbefore
    have hnhead : n ≠ s.head := by
      rintro rfl
      exact hnl (h.head ▸ Linked.headD_mem hl)
    have hhead' : (l ++ [n]).headD 0 = s.head := by
      rw [h.head, Linked.headD_append_of_ne_nil hl]
    rw [hhead'] at hfirst ⊢
    simp [IntrusiveList.pushBack, hhead, htail, hsize, hset, hset', hp, hpne, hnhead, hnext, hlast,
      hfirst]

/-- **An element goes**: its neighbours are joined. -/
theorem Holds.unlink (xs : List ℕ) (h : Holds links s (xs ++ x :: ys)) (h0 : links 0 = none) :
    Holds (join links (xs.getLastD 0) (ys.headD 0))
        ⟨(xs ++ ys).headD 0, (xs ++ ys).getLastD 0, s.size - 1⟩ (xs ++ ys) ∧
      Changed links (join links (xs.getLastD 0) (ys.headD 0)) (xs ++ x :: ys) := by
  have hsub : (xs ++ ys).Sublist (xs ++ x :: ys) :=
    List.Sublist.append_left (List.sublist_cons_self x ys) xs
  have hnodup : (xs ++ ys).Nodup := h.nodup.sublist hsub
  have hnull : 0 ∉ xs ++ ys := fun hmem => h.null (hsub.subset hmem)
  obtain ⟨hxs, -, hys⟩ := Linked.seg_append.mp h.seg
  constructor
  · refine ⟨rfl, rfl, ?_, Linked.seg_join hnodup hnull hxs hys, hnodup, hnull,
      fun y hy => h.word y (hsub.subset hy)⟩
    show s.size - 1 = BitVec.ofNat 64 (xs ++ ys).length
    have hlen : (xs ++ x :: ys).length = (xs ++ ys).length + 1 := by
      simp only [List.length_append, List.length_cons, Nat.add_assoc]
    rw [h.size, hlen, BitVec.ofNat_add]
    exact BitVec.add_sub_cancel _ _
  · refine changed_join h0 ?_ ?_
    · exact (getLastD_eq_or xs).imp_right (List.mem_append_left (x :: ys))
    · exact (headD_eq_or ys).imp_right
        fun hmem => List.mem_append_right xs (List.mem_cons_of_mem x hmem)

/-- **Two lists in a row**: the tail of the first is joined to the head of the second. -/
theorem Holds.append {s' : IntrusiveList} (h : Holds links s xs) (h' : Holds links s' ys)
    (h0 : links 0 = none) (hdisj : xs.Disjoint ys) :
    Holds (join links s.tail s'.head)
        ⟨(xs ++ ys).headD 0, (xs ++ ys).getLastD 0, s.size + s'.size⟩ (xs ++ ys) ∧
      Changed links (join links s.tail s'.head) (xs ++ ys) := by
  have hnodup : (xs ++ ys).Nodup := List.nodup_append'.mpr ⟨h.nodup, h'.nodup, hdisj⟩
  have hnull : 0 ∉ xs ++ ys := by
    rw [List.mem_append, not_or]
    exact ⟨h.null, h'.null⟩
  rw [h.tail, h'.head]
  constructor
  · refine ⟨rfl, rfl, ?_, Linked.seg_join hnodup hnull h.seg h'.seg, hnodup, hnull, ?_⟩
    · show s.size + s'.size = BitVec.ofNat 64 (xs ++ ys).length
      rw [h.size, h'.size, List.length_append, BitVec.ofNat_add]
    · intro x hx
      exact (List.mem_append.mp hx).elim (h.word x) (h'.word x)
  · refine changed_join h0 ?_ ?_
    · exact (getLastD_eq_or xs).imp_right (List.mem_append_left ys)
    · exact (headD_eq_or ys).imp_right (List.mem_append_right xs)

/-- **`pop_front`** of an empty list. -/
theorem Holds.popFront_nil (h : Holds links s []) : popFront links s = some (0, links, s) := by
  rw [IntrusiveList.popFront, if_pos (h.head_eq_zero.mpr rfl)]

/-- **`pop_front`** takes the first element. -/
theorem Holds.popFront (h : Holds links s (x :: ys)) (h0 : links 0 = none) :
    ∃ links' s', popFront links s = some (x, links', s') ∧ Holds links' s' ys ∧
      Changed links links' (x :: ys) := by
  obtain ⟨hholds, hchanged⟩ := h.unlink [] h0
  refine ⟨_, _, ?_, hholds, hchanged⟩
  have hhead : s.head = x := h.head
  have hx : x ≠ 0 := h.ne_zero List.mem_cons_self
  have hnext : next links x = some (ys.headD 0) := next_of_seg [] h.seg
  cases ys with
  | nil => simp [IntrusiveList.popFront, hhead, hx, hnext, join_zero_zero h0]
  | cons y ys =>
    have hy : y ∈ x :: y :: ys := List.mem_cons_of_mem x List.mem_cons_self
    have hy0 : y ≠ 0 := h.ne_zero hy
    have hset : setPrev links y 0 = some (join links 0 y) := by
      rw [setPrev_eq (h.isSome hy), withPrev_zero h0]
    have htail : s.tail = (y :: ys).getLastD 0 := h.tail
    simp [IntrusiveList.popFront, hhead, hx, hnext, hy0, hset, htail]

/-- `erase` of the head. -/
theorem Holds.erase_head (h : Holds links s (x :: ys)) (h0 : links 0 = none) :
    erase links s x = some (ys.headD 0, join links 0 (ys.headD 0),
      ⟨ys.headD 0, ys.getLastD 0, s.size - 1⟩) := by
  obtain ⟨hholds, -⟩ := h.unlink [] h0
  have hhead : s.head = x := h.head
  have hsize : (guard (0#64 < s.size) : Option Unit) = some () :=
    (Option.guard_eq_some' ()).mpr (h.size_pos (List.cons_ne_nil x ys))
  have hnext : next links x = some (ys.headD 0) := next_of_seg [] h.seg
  have hprev : prev links x = some 0 := prev_of_seg [] h.seg
  cases ys with
  | nil =>
    have htail : s.tail = x := h.tail
    have hone : s.size = 1 := h.size
    simp_all [IntrusiveList.erase, join_zero_zero h0]
  | cons y ys =>
    have htail : s.tail = (y :: ys).getLastD 0 := h.tail
    have hne : x ≠ (y :: ys).getLastD 0 := by
      intro heq
      exact (List.nodup_cons.mp h.nodup).1 (heq ▸ Linked.getLastD_mem (List.cons_ne_nil y ys))
    have hset : setPrev links y 0 = some (join links 0 y) := by
      rw [setPrev_eq (h.isSome (List.mem_cons_of_mem x List.mem_cons_self)), withPrev_zero h0]
    have hlast : next (join links 0 y) ((y :: ys).getLastD 0) = some 0 :=
      next_getLastD hholds.seg (List.cons_ne_nil y ys)
    have hfirst : prev (join links 0 y) y = some 0 :=
      prev_headD hholds.seg (List.cons_ne_nil y ys)
    rw [← htail] at hne hlast ⊢
    simp [IntrusiveList.erase, hhead, hsize, hnext, hprev, hne, hset, hlast, hfirst]

/-- `erase` of an element behind the head. -/
theorem Holds.erase_of_ne_nil (h : Holds links s (xs ++ x :: ys)) (h0 : links 0 = none)
    (hxs : xs ≠ []) :
    erase links s x = some (ys.headD 0, join links (xs.getLastD 0) (ys.headD 0),
      ⟨(xs ++ ys).headD 0, (xs ++ ys).getLastD 0, s.size - 1⟩) := by
  obtain ⟨hholds, -⟩ := h.unlink xs h0
  have hxsys : xs ++ ys ≠ [] := List.append_ne_nil_of_left_ne_nil hxs ys
  have hhead : (xs ++ ys).headD 0 = s.head := by
    rw [h.head, Linked.headD_append_of_ne_nil hxs, Linked.headD_append_of_ne_nil hxs]
  have hxhead : x ≠ s.head := by
    intro heq
    rw [h.head, Linked.headD_append_of_ne_nil hxs] at heq
    exact List.disjoint_of_nodup_append h.nodup (heq ▸ Linked.headD_mem hxs) List.mem_cons_self
  have hlen : 1 < (xs ++ x :: ys).length := by
    have hpos := List.length_pos_of_ne_nil hxs
    rw [List.length_append, List.length_cons]
    omega
  have hsize : (guard (0#64 < s.size) : Option Unit) = some () :=
    (Option.guard_eq_some' ()).mpr (h.lt_size (Nat.lt_trans Nat.zero_lt_one hlen))
  have hsize' : (guard (1#64 < s.size) : Option Unit) = some () :=
    (Option.guard_eq_some' ()).mpr (h.lt_size hlen)
  have hnext := next_of_seg xs h.seg
  have hprev := prev_of_seg xs h.seg
  have hpmem : xs.getLastD 0 ∈ xs ++ x :: ys :=
    List.mem_append_left (x :: ys) (Linked.getLastD_mem hxs)
  have hp0 : xs.getLastD 0 ≠ 0 := h.ne_zero hpmem
  have hset := setNext_eq (h.isSome hpmem) (ys.headD 0)
  have hlast := next_getLastD hholds.seg hxsys
  have hfirst := prev_headD hholds.seg hxsys
  rw [hhead] at hfirst ⊢
  cases ys with
  | nil =>
    have htail : (xs ++ []).getLastD 0 = xs.getLastD 0 := by rw [List.append_nil]
    rw [htail] at hlast ⊢
    rw [List.headD_nil] at hnext hset hlast hfirst ⊢
    rw [withNext_zero h0] at hset
    simp [-List.getLastD_eq_getLast?, IntrusiveList.erase, hnext, hprev, hsize, hsize', hxhead,
      hp0, hset, hlast, hfirst]
  | cons y ys =>
    have hymem : y ∈ xs ++ x :: y :: ys := by simp
    have hset' : setPrev (withNext links (xs.getLastD 0) y) y (xs.getLastD 0) =
        some (join links (xs.getLastD 0) y) := by
      rw [setPrev_eq (isSome_withNext.trans (h.isSome hymem)), withPrev_withNext]
    have htail : (xs ++ y :: ys).getLastD 0 = s.tail := by
      rw [h.tail, Linked.getLastD_append_of_ne_nil xs (List.cons_ne_nil y ys),
        Linked.getLastD_append_of_ne_nil xs (List.cons_ne_nil x (y :: ys))]
      exact (Linked.getLastD_append_of_ne_nil [x] (List.cons_ne_nil y ys)).symm
    have hy0 : y ≠ 0 := h.ne_zero hymem
    rw [htail] at hlast ⊢
    rw [List.headD_cons] at hnext hset hlast hfirst ⊢
    simp [-List.getLastD_eq_getLast?, IntrusiveList.erase, hnext, hprev, hsize, hsize', hxhead,
      hp0, hset, hset', hy0, hlast, hfirst]

/-- **`erase`** of a member, with an iterator to the one behind it. -/
theorem Holds.erase (h : Holds links s (xs ++ x :: ys)) (h0 : links 0 = none) :
    ∃ links' s', erase links s x = some (ys.headD 0, links', s') ∧ Holds links' s' (xs ++ ys) ∧
      Changed links links' (xs ++ x :: ys) := by
  obtain ⟨hholds, hchanged⟩ := h.unlink xs h0
  refine ⟨_, _, ?_, hholds, hchanged⟩
  by_cases hxs : xs = []
  · subst hxs
    exact h.erase_head h0
  · exact h.erase_of_ne_nil h0 hxs

/-- A list that takes over the head and the tail of another one, behind an empty list. -/
theorem Holds.of_empty (h : Holds links s []) (h' : Holds links ls l') :
    Holds links ⟨ls.head, ls.tail, s.size + ls.size⟩ l' := by
  refine ⟨h'.head, h'.tail, ?_, h'.seg, h'.nodup, h'.null, h'.word⟩
  show s.size + ls.size = BitVec.ofNat 64 l'.length
  rw [h.size_of_nil, ← h'.size]
  exact BitVec.zero_add ls.size

/-- **`splice_front`** of a list with other elements. -/
theorem Holds.spliceFront (h : Holds links s l) (h' : Holds links ls l') (h0 : links 0 = none)
    (hdisj : l.Disjoint l') :
    ∃ links' s', spliceFront links s ls = some (links', s') ∧ Holds links' s' (l' ++ l) ∧
      Changed links links' (l' ++ l) := by
  by_cases hl : l = []
  · subst hl
    rw [List.append_nil]
    refine ⟨_, _, ?_, h.of_empty h', Changed.refl links l'⟩
    have hhead : s.head = 0 := h.head
    have htail : s.tail = 0 := h.tail
    simp [IntrusiveList.spliceFront, hhead, htail, h'.next_tail, h'.prev_head]
  · obtain ⟨hholds, hchanged⟩ := h'.append h h0 (List.disjoint_comm.mp hdisj)
    rw [BitVec.add_comm] at hholds
    refine ⟨_, _, ?_, hholds, hchanged⟩
    have hne : l' ++ l ≠ [] := List.append_ne_nil_of_right_ne_nil l' hl
    have hhead : s.head ≠ 0 := mt h.head_eq_zero.mp hl
    have htail : s.tail ≠ 0 := mt h.tail_eq_zero.mp hl
    have hset : setPrev links s.head ls.tail = some (withPrev links s.head ls.tail) :=
      setPrev_eq (h.head ▸ h.isSome (Linked.headD_mem hl)) ls.tail
    have hlast := next_getLastD hholds.seg hne
    have hfirst := prev_headD hholds.seg hne
    have hlasteq : (l' ++ l).getLastD 0 = s.tail := by
      rw [h.tail, Linked.getLastD_append_of_ne_nil l' hl]
    rw [hlasteq] at hlast ⊢
    by_cases hl' : l' = []
    · subst hl'
      have hhead' : ls.head = 0 := h'.head
      have htail' : ls.tail = 0 := h'.tail
      have hfirsteq : ([] ++ l).headD 0 = s.head := h.head.symm
      rw [hfirsteq] at hfirst ⊢
      rw [htail'] at hset hlast hfirst ⊢
      rw [withPrev_zero h0] at hset
      simp [IntrusiveList.spliceFront, hhead, htail, hhead', htail', hset, hlast, hfirst]
    · have hhead' : ls.head ≠ 0 := mt h'.head_eq_zero.mp hl'
      have htail' : ls.tail ≠ 0 := mt h'.tail_eq_zero.mp hl'
      have hfirsteq : (l' ++ l).headD 0 = ls.head := by
        rw [h'.head, Linked.headD_append_of_ne_nil hl']
      rw [hfirsteq] at hfirst ⊢
      have hsome : (links ls.tail).isSome := h'.tail ▸ h'.isSome (Linked.getLastD_mem hl')
      have hset' : setNext (withPrev links s.head ls.tail) ls.tail s.head =
          some (join links ls.tail s.head) := by
        rw [setNext_eq (isSome_withPrev.trans hsome), withNext_withPrev]
      simp [IntrusiveList.spliceFront, hhead, htail, hhead', htail', hset, hset', hlast, hfirst]

/-- **`splice_back`** of a list with other elements. -/
theorem Holds.spliceBack (h : Holds links s l) (h' : Holds links ls l') (h0 : links 0 = none)
    (hdisj : l.Disjoint l') :
    ∃ links' s', spliceBack links s ls = some (links', s') ∧ Holds links' s' (l ++ l') ∧
      Changed links links' (l ++ l') := by
  by_cases hl : l = []
  · subst hl
    rw [List.nil_append]
    refine ⟨_, _, ?_, h.of_empty h', Changed.refl links l'⟩
    have hhead : s.head = 0 := h.head
    have htail : s.tail = 0 := h.tail
    simp [IntrusiveList.spliceBack, hhead, htail, h'.next_tail, h'.prev_head]
  · obtain ⟨hholds, hchanged⟩ := h.append h' h0 hdisj
    refine ⟨_, _, ?_, hholds, hchanged⟩
    have hne : l ++ l' ≠ [] := List.append_ne_nil_of_left_ne_nil hl l'
    have hhead : s.head ≠ 0 := mt h.head_eq_zero.mp hl
    have htail : s.tail ≠ 0 := mt h.tail_eq_zero.mp hl
    have hset : setNext links s.tail ls.head = some (withNext links s.tail ls.head) :=
      setNext_eq (h.tail ▸ h.isSome (Linked.getLastD_mem hl)) ls.head
    have hlast := next_getLastD hholds.seg hne
    have hfirst := prev_headD hholds.seg hne
    have hfirsteq : (l ++ l').headD 0 = s.head := by
      rw [h.head, Linked.headD_append_of_ne_nil hl]
    rw [hfirsteq] at hfirst ⊢
    by_cases hl' : l' = []
    · subst hl'
      have hhead' : ls.head = 0 := h'.head
      have htail' : ls.tail = 0 := h'.tail
      have hlasteq : (l ++ []).getLastD 0 = s.tail := by
        rw [List.append_nil, h.tail]
      rw [hlasteq] at hlast ⊢
      rw [hhead'] at hset hlast hfirst ⊢
      rw [withNext_zero h0] at hset
      simp [IntrusiveList.spliceBack, hhead, htail, hhead', htail', hset, hlast, hfirst]
    · have hhead' : ls.head ≠ 0 := mt h'.head_eq_zero.mp hl'
      have htail' : ls.tail ≠ 0 := mt h'.tail_eq_zero.mp hl'
      have hlasteq : (l ++ l').getLastD 0 = ls.tail := by
        rw [h'.tail, Linked.getLastD_append_of_ne_nil l hl']
      rw [hlasteq] at hlast ⊢
      have hsome : (links ls.head).isSome := h'.head ▸ h'.isSome (Linked.headD_mem hl')
      have hset' : setPrev (withNext links s.tail ls.head) ls.head s.tail =
          some (join links s.tail ls.head) := by
        rw [setPrev_eq (isSome_withNext.trans hsome), withPrev_withNext]
      simp [IntrusiveList.spliceBack, hhead, htail, hhead', htail', hset, hset', hlast, hfirst]

end IntrusiveList

end Meld
