import Meld.Db.HashTable
import Mathlib.Algebra.BigOperators.Group.Finset.Basic
import Mathlib.Algebra.Order.BigOperators.Group.Finset
import Mathlib.Algebra.Order.Group.Multiset
import Mathlib.Data.Finset.Card
import Mathlib.Tactic.Abel

/-!
# The shape of a hash table

What the pointers of a hash table draw is recorded in a `Shape`: for every table the slots that
lead to it from the root, and for every slot of a table the chain of bucket lists in it.  `Rep`
says that a heap has a given shape.  It is the representation invariant of the table, object by
object: the bitmap tells sub-tables from chains, the lists of a slot are linked in both directions
and know their table and slot, a list lies where the hash of its key sends it, the two counters of
a table count its lists and its sub-tables, and no table but the root is empty.

The counters have sixteen bits, so in `Rep` they are the counts modulo `2^16`.

* `SlotOk.frame`: a slot is untouched by changes to objects it does not own.
* `locate`: the slot at which the descent along a hash ends; `locate_eq` says that it exists and
  `locate_list` that the list of a key with that hash can only be there.
* `findBucket_spec`: what the search along a chain returns.
-/

namespace Meld
namespace Hash

variable {α : Type}

/-- The slot that a hash selects at a level of the tree. -/
def slotAt (hsh level : ℕ) : ℕ := modHash ((hsh >>> (level * subhashShift)) &&& subhashMask)

/-- The slots that a hash selects at the first `n` levels. -/
def slots (hsh n : ℕ) : List ℕ := (List.range n).map (slotAt hsh)

/-- The last slot of a table. -/
def lastSlot : ℕ := initialTableSize - 1

theorem slotAt_lt (hsh level : ℕ) : slotAt hsh level < prime := Nat.mod_lt _ (by decide)

theorem slots_succ (hsh n : ℕ) : slots hsh (n + 1) = slots hsh n ++ [slotAt hsh n] := by
  simp [slots, List.range_succ]

@[simp] theorem length_slots (hsh n : ℕ) : (slots hsh n).length = n := by simp [slots]

/-- Two keys count as the same in three cases. -/
theorem sameField0_iff {v w : Value} :
    sameField0 v w = true ↔
      v = w ∨ ((∃ x xs, v = .cons x xs) ∧ ∃ y ys, w = .cons y ys) := by
  cases v <;> cases w <;> simp [sameField0]

/-- Keys that count as the same have the same hash. -/
theorem hashField_eq_of_same {v w : Value} (h : sameField0 v w = true) :
    hashField v = hashField w := by
  obtain rfl | ⟨⟨x, xs, rfl⟩, y, ys, rfl⟩ := sameField0_iff.mp h
  · rfl
  · rfl

@[simp] theorem sameField0_self (v : Value) : sameField0 v v = true :=
  sameField0_iff.mpr (Or.inl rfl)

theorem sameField0_symm {v w : Value} (h : sameField0 v w = true) : sameField0 w v = true := by
  rw [sameField0_iff] at h ⊢
  exact h.imp Eq.symm And.symm

theorem sameField0_trans {u v w : Value} (h : sameField0 u v = true)
    (h' : sameField0 v w = true) : sameField0 u w = true := by
  obtain rfl | ⟨hu, y, ys, rfl⟩ := sameField0_iff.mp h
  · exact h'
  · obtain rfl | ⟨-, hw⟩ := sameField0_iff.mp h'
    · exact h
    · exact sameField0_iff.mpr (Or.inr ⟨hu, hw⟩)

/-! ## Shapes -/

/-- The slots that lead to each table, and the chain in each slot of a table. -/
structure Shape where
  path : Ptr → List ℕ
  chain : Ptr → ℕ → List Ptr

namespace Shape

/-- The number of bucket lists of a table. -/
def held (S : Shape) (p : Ptr) : ℕ := ∑ i ∈ Finset.range prime, (S.chain p i).length

/-- Replace the chain of one slot. -/
def setChain (S : Shape) (p : Ptr) (i : ℕ) (c : List Ptr) : Shape :=
  { S with chain := Function.update S.chain p (Function.update (S.chain p) i c) }

/-- Above the last level the chains are short.  A chain is split when it reaches the threshold, but
all its lists can land in one slot of the new table, so each level allows one list more. -/
def Short (S : Shape) : Prop :=
  ∀ p i, (S.path p).length + 1 < maxLevels →
    (S.chain p i).length < createHashtableThreshold + (S.path p).length

@[simp] theorem path_setChain (S : Shape) (p : Ptr) (i : ℕ) (c : List Ptr) :
    (S.setChain p i c).path = S.path := rfl

@[simp] theorem chain_setChain_self (S : Shape) (p : Ptr) (i : ℕ) (c : List Ptr) :
    (S.setChain p i c).chain p i = c := by simp [setChain]

theorem chain_setChain_of_ne (S : Shape) {p q : Ptr} {i j : ℕ} (c : List Ptr)
    (h : q ≠ p ∨ j ≠ i) : (S.setChain p i c).chain q j = S.chain q j := by
  by_cases hq : q = p
  · subst hq
    have hj : j ≠ i := h.resolve_left (not_not_intro rfl)
    simp [setChain, hj]
  · simp [setChain, hq]

theorem held_setChain_of_ne (S : Shape) {p q : Ptr} (i : ℕ) (c : List Ptr) (h : q ≠ p) :
    (S.setChain p i c).held q = S.held q := by
  simp only [held, chain_setChain_of_ne S c (Or.inl h)]

/-- The count of a table after one of its chains is replaced. -/
theorem held_setChain (S : Shape) (p : Ptr) {i : ℕ} (hi : i < prime) (c : List Ptr) :
    (S.setChain p i c).held p + (S.chain p i).length = S.held p + c.length := by
  have hmem : i ∈ Finset.range prime := Finset.mem_range.mpr hi
  unfold held
  rw [← Finset.add_sum_erase _ _ hmem, ← Finset.add_sum_erase _ (fun j => (S.chain p j).length) hmem,
    chain_setChain_self]
  have hrest : ∑ j ∈ (Finset.range prime).erase i, ((S.setChain p i c).chain p j).length =
      ∑ j ∈ (Finset.range prime).erase i, (S.chain p j).length := by
    refine Finset.sum_congr rfl fun j hj => ?_
    rw [chain_setChain_of_ne S c (Or.inr (Finset.ne_of_mem_erase hj))]
  omega

theorem held_eq_zero {S : Shape} {p : Ptr} (h : S.held p = 0) {i : ℕ} (hi : i < prime) :
    S.chain p i = [] := by
  have hsum := (Finset.sum_eq_zero_iff.mp h) i (Finset.mem_range.mpr hi)
  exact List.length_eq_zero_iff.mp hsum

/-- A table above the last level holds few lists. -/
theorem Short.held_lt {S : Shape} (h : S.Short) {p : Ptr}
    (hp : (S.path p).length + 1 < maxLevels) : S.held p < 65536 := by
  have hlevels : maxLevels = 4 := rfl
  have hle : S.held p ≤ ∑ _i ∈ Finset.range prime, (createHashtableThreshold + 2) := by
    refine Finset.sum_le_sum fun i _ => ?_
    have hlt := h p i hp
    omega
  have hval : ∑ _i ∈ Finset.range prime, (createHashtableThreshold + 2) = 290 := by
    simp [prime, createHashtableThreshold]
  omega

end Shape

/-- The number of sub-tables of a table. -/
def subs (t : SubhashTable) : ℕ := ((Finset.range prime).filter fun i => t.isSubhash i = true).card

theorem subs_le (t : SubhashTable) : subs t ≤ prime := by
  have h := Finset.card_filter_le (Finset.range prime) fun i => t.isSubhash i = true
  rwa [Finset.card_range] at h

/-! ## The representation invariant -/

/-- Slot `i` of table `p`, which holds the word `w` and the bit `b`. -/
structure SlotOk (h : Heap α) (S : Shape) (p : Ptr) (i : ℕ) (b : Bool) (w : Ptr) : Prop where
  nodup : (S.chain p i).Nodup
  own : ∀ a ∈ S.chain p i, ∃ l, h.lists a = some l ∧ l.parent = p ∧ l.idx = i
  sub : b = true → S.chain p i = [] ∧ ∃ s, h.tables w = some s ∧ s.parent = p ∧
    s.get lastSlot = i ∧ S.path w = S.path p ++ [i]
  chain : b = false → w = (S.chain p i).headD 0 ∧ Linked.Seg h.links 0 (S.chain p i) 0

/-- What holds of the table at `p`. -/
structure TableOk (h : Heap α) (S : Shape) (p : Ptr) (t : SubhashTable) : Prop where
  capacity : t.bitmap.capacity = 64
  unused : ∀ i, prime ≤ i → t.isSubhash i = false
  depth : (S.path p).length < maxLevels
  slot : ∀ i < prime, SlotOk h S p i (t.isSubhash i) (t.get i)
  uniqueLists : t.uniqueLists = UInt16.ofNat (S.held p)
  uniqueSubs : t.uniqueSubs = UInt16.ofNat (subs t)

/-- What holds of the bucket list at `a`. -/
structure ListOk (key : α → Value) (h : Heap α) (S : Shape) (a : Ptr) (l : HashTableList α) :
    Prop where
  nonempty : l.list ≠ []
  keys : ∀ x ∈ l.list, sameField0 (key x) l.value = true
  table : ∃ t, h.tables l.parent = some t ∧ t.isSubhash l.idx = false
  idx_lt : l.idx < prime
  mem : a ∈ S.chain l.parent l.idx
  place : S.path l.parent ++ [l.idx] = slots (hashField l.value) ((S.path l.parent).length + 1)

/-- The heap has the shape `S` and the root `root`.  The table `e` may be empty; with `e = 0` no
table is exempt. -/
structure Rep (key : α → Value) (h : Heap α) (root : Ptr) (S : Shape) (e : Ptr) : Prop where
  root_table : ∃ t, h.tables root = some t ∧ t.parent = 0
  path_root : S.path root = []
  tables_zero : h.tables 0 = none
  lists_zero : h.lists 0 = none
  fresh_tables : ∀ p t, h.tables p = some t → p < h.fresh
  fresh_lists : ∀ a l, h.lists a = some l → a < h.fresh
  tables : ∀ p t, h.tables p = some t → TableOk h S p t
  lists : ∀ a l, h.lists a = some l → ListOk key h S a l
  parent : ∀ p t, h.tables p = some t → p ≠ root → t.get lastSlot < prime ∧
    ∃ q, h.tables t.parent = some q ∧ q.isSubhash (t.get lastSlot) = true ∧
      q.get (t.get lastSlot) = p
  distinct : ∀ a b l m, h.lists a = some l → h.lists b = some m →
    sameField0 l.value m.value = true → a = b
  nonempty : ∀ p t, h.tables p = some t → p ≠ root → p ≠ e → S.held p ≠ 0 ∨ subs t ≠ 0

/-! ## Frames -/

section Frame

variable {h h' : Heap α} {S S' : Shape} {p : Ptr} {i : ℕ} {b : Bool} {w : Ptr}

/-- The two lists lie in the same slot, between the same neighbours. -/
def SamePlace (l l' : HashTableList α) : Prop :=
  l'.parent = l.parent ∧ l'.idx = l.idx ∧ l'.prev = l.prev ∧ l'.next = l.next

theorem SamePlace.refl (l : HashTableList α) : SamePlace l l := ⟨rfl, rfl, rfl, rfl⟩

/-- A slot stays right when its own lists and the parent and index of its sub-table stay. -/
theorem SlotOk.frame (ok : SlotOk h S p i b w) (hpath : S'.path p = S.path p)
    (hchain : S'.chain p i = S.chain p i)
    (hlists : ∀ a l, h.lists a = some l → l.parent = p → l.idx = i →
      ∃ l', h'.lists a = some l' ∧ SamePlace l l')
    (hsub : ∀ s, b = true → h.tables w = some s → s.parent = p → s.get lastSlot = i →
      S'.path w = S.path w ∧ ∃ s', h'.tables w = some s' ∧ s'.parent = s.parent ∧
        s'.get lastSlot = s.get lastSlot) :
    SlotOk h' S' p i b w := by
  have hlinks : ∀ a ∈ S.chain p i, h'.links a = h.links a := by
    intro a ha
    obtain ⟨l, hl, hlp, hli⟩ := ok.own a ha
    obtain ⟨l', hl', -, -, hprev, hnext⟩ := hlists a l hl hlp hli
    simp [Heap.links, hl, hl', hprev, hnext]
  refine ⟨hchain ▸ ok.nodup, ?_, ?_, ?_⟩
  · intro a ha
    rw [hchain] at ha
    obtain ⟨l, hl, hlp, hli⟩ := ok.own a ha
    obtain ⟨l', hl', hlp', hli', -⟩ := hlists a l hl hlp hli
    exact ⟨l', hl', hlp'.trans hlp, hli'.trans hli⟩
  · intro hb
    obtain ⟨hnil, s, hs, hsp, hsi, hpw⟩ := ok.sub hb
    obtain ⟨hpath', s', hs', hsp', hsi'⟩ := hsub s hb hs hsp hsi
    refine ⟨hchain ▸ hnil, s', hs', hsp' ▸ hsp, hsi' ▸ hsi, ?_⟩
    rw [hpath', hpw, hpath]
  · intro hb
    obtain ⟨hw, hseg⟩ := ok.chain hb
    refine ⟨hchain ▸ hw, ?_⟩
    rw [hchain]
    exact Linked.seg_congr hlinks hseg

/-- The two lists hold the same tuples and lie in the same slot. -/
def SameContent (l l' : HashTableList α) : Prop :=
  l'.list = l.list ∧ l'.value = l.value ∧ l'.parent = l.parent ∧ l'.idx = l.idx

theorem SameContent.refl (l : HashTableList α) : SameContent l l := ⟨rfl, rfl, rfl, rfl⟩

/-- A list stays right when its slot keeps it. -/
theorem ListOk.frame {key : α → Value} {a : Ptr} {l l' : HashTableList α}
    (ok : ListOk key h S a l) (hsame : SameContent l l')
    (hpath : S'.path l.parent = S.path l.parent)
    (hchain : a ∈ S'.chain l.parent l.idx)
    (htable : ∀ t, h.tables l.parent = some t → t.isSubhash l.idx = false →
      ∃ t', h'.tables l.parent = some t' ∧ t'.isSubhash l.idx = false) :
    ListOk key h' S' a l' := by
  obtain ⟨hlist, hvalue, hparent, hidx⟩ := hsame
  obtain ⟨t, ht, hb⟩ := ok.table
  constructor
  case nonempty => rw [hlist]; exact ok.nonempty
  case keys => rw [hlist, hvalue]; exact ok.keys
  case table => rw [hparent, hidx]; exact htable t ht hb
  case idx_lt => rw [hidx]; exact ok.idx_lt
  case mem => rw [hparent, hidx]; exact hchain
  case place => rw [hparent, hidx, hvalue, hpath]; exact ok.place

end Frame

/-! ## Consequences of the invariant -/

namespace Rep

variable {key : α → Value} {h : Heap α} {root e : Ptr} {S : Shape}

theorem ne_zero_of_table (R : Rep key h root S e) {p : Ptr} {t : SubhashTable}
    (ht : h.tables p = some t) : p ≠ 0 := by
  rintro rfl
  simp [R.tables_zero] at ht

theorem ne_zero_of_list (R : Rep key h root S e) {a : Ptr} {l : HashTableList α}
    (hl : h.lists a = some l) : a ≠ 0 := by
  rintro rfl
  simp [R.lists_zero] at hl

theorem zero_notMem_chain (R : Rep key h root S e) {p : Ptr} {t : SubhashTable}
    (ht : h.tables p = some t) {i : ℕ} (hi : i < prime) : 0 ∉ S.chain p i := by
  intro hmem
  obtain ⟨l, hl, -⟩ := ((R.tables p t ht).slot i hi).own 0 hmem
  exact R.ne_zero_of_list hl rfl

theorem length_chain_le (R : Rep key h root S e) {p : Ptr} {t : SubhashTable}
    (ht : h.tables p = some t) {i : ℕ} (hi : i < prime) : (S.chain p i).length ≤ h.fresh := by
  have hslot := (R.tables p t ht).slot i hi
  have hsub : S.chain p i ⊆ List.range h.fresh := by
    intro a ha
    obtain ⟨l, hl, -⟩ := hslot.own a ha
    exact List.mem_range.mpr (R.fresh_lists a l hl)
  have hle := (List.subperm_of_subset hslot.nodup hsub).length_le
  rwa [List.length_range] at hle

/-- A table other than the root lies one level below its parent. -/
theorem path_parent (R : Rep key h root S e) {p : Ptr} {t : SubhashTable}
    (ht : h.tables p = some t) (hp : p ≠ root) :
    S.path p = S.path t.parent ++ [t.get lastSlot] := by
  obtain ⟨hlt, q, hq, hbit, hget⟩ := R.parent p t ht hp
  obtain ⟨-, s, hs, -, -, hpath⟩ := ((R.tables _ q hq).slot _ hlt).sub hbit
  rw [hget] at hpath
  exact hpath

end Rep

/-! ## The descent along a hash -/

/-- The descent of `insert` and `lookup_list`: the table, the slot and the level at which it meets
a chain. -/
def locate (h : Heap α) : ℕ → Ptr → ℕ → ℕ → Option (Ptr × ℕ × ℕ)
  | 0, _, _, _ => none
  | fuel + 1, p, id, level =>
    (h.tables p).bind fun t =>
      if t.isSubhash (modHash (id &&& subhashMask)) then
        locate h fuel (t.get (modHash (id &&& subhashMask))) (id >>> subhashShift) (level + 1)
      else some (p, modHash (id &&& subhashMask), level)

theorem insert_eq_locate (v : Value) (item : α) (fuel : ℕ) (h : Heap α) (p : Ptr)
    (id level : ℕ) :
    h.insert v item fuel p id level =
      (locate h fuel p id level).bind fun r => h.insertBucket r.1 r.2.1 r.2.2 v item := by
  induction fuel generalizing p id level with
  | zero => rfl
  | succ fuel ih =>
    unfold Heap.insert locate
    cases ht : h.tables p with
    | none => rfl
    | some t =>
      simp only [Option.bind_eq_bind, Option.bind_some]
      split
      · exact ih _ _ _
      · rfl

theorem lookupList_eq_locate (v : Value) (fuel : ℕ) (h : Heap α) (p : Ptr) (id level : ℕ) :
    h.lookupList v fuel p id =
      (locate h fuel p id level).bind fun r =>
        (h.tables r.1).bind fun t => h.findList v h.fresh (t.get r.2.1) := by
  induction fuel generalizing p id level with
  | zero => rfl
  | succ fuel ih =>
    unfold Heap.lookupList locate
    cases ht : h.tables p with
    | none => rfl
    | some t =>
      simp only [Option.bind_eq_bind, Option.bind_some]
      split
      · exact ih _ _ _
      · simp [ht]

section Locate

variable {key : α → Value} {h : Heap α} {root e : Ptr} {S : Shape}

/-- One level of the descent. -/
theorem locate_succ {p : Ptr} {t : SubhashTable} (ht : h.tables p = some t) (fuel hsh n : ℕ) :
    locate h (fuel + 1) p (hsh >>> (n * subhashShift)) n =
      if t.isSubhash (slotAt hsh n) then
        locate h fuel (t.get (slotAt hsh n)) (hsh >>> ((n + 1) * subhashShift)) (n + 1)
      else some (p, slotAt hsh n, n) := by
  have hshift : hsh >>> (n * subhashShift) >>> subhashShift =
      hsh >>> ((n + 1) * subhashShift) := by
    rw [← Nat.shiftRight_add, Nat.succ_mul]
  rw [locate, ht, Option.bind_some, hshift]
  rfl

/-- The descent from a table on the way of the hash ends, on that way, at a slot with a chain. -/
theorem Rep.locate_from (R : Rep key h root S e) {p : Ptr} {t : SubhashTable}
    (ht : h.tables p = some t) {hsh : ℕ} (hp : S.path p = slots hsh (S.path p).length) {fuel : ℕ}
    (hfuel : maxLevels ≤ fuel + (S.path p).length) :
    ∃ q u, h.tables q = some u ∧ S.path q = slots hsh (S.path q).length ∧
      u.isSubhash (slotAt hsh (S.path q).length) = false ∧
      locate h fuel p (hsh >>> ((S.path p).length * subhashShift)) (S.path p).length =
        some (q, slotAt hsh (S.path q).length, (S.path q).length) := by
  induction fuel generalizing p t with
  | zero =>
    have hdepth := (R.tables p t ht).depth
    omega
  | succ fuel ih =>
    rw [locate_succ ht]
    set n := (S.path p).length with hn
    have hslot := (R.tables p t ht).slot (slotAt hsh n) (slotAt_lt hsh n)
    by_cases hb : t.isSubhash (slotAt hsh n) = true
    · obtain ⟨-, s, hs, -, -, hpath⟩ := hslot.sub hb
      have hlen : (S.path (t.get (slotAt hsh n))).length = n + 1 := by
        rw [hpath]
        simp [hn]
      have hway : S.path (t.get (slotAt hsh n)) =
          slots hsh (S.path (t.get (slotAt hsh n))).length := by
        rw [hlen, slots_succ, hpath, hp]
      rw [if_pos hb]
      obtain ⟨q, u, hq, hqp, hqb, hloc⟩ := ih hs hway (by omega)
      rw [hlen] at hloc
      exact ⟨q, u, hq, hqp, hqb, hloc⟩
    · rw [if_neg hb]
      exact ⟨p, t, ht, hp, by simpa using hb, rfl⟩

/-- **The descent ends**: for every hash, at a slot of the way of that hash that holds a chain. -/
theorem Rep.locate_eq (R : Rep key h root S e) (hsh : ℕ) :
    ∃ q u, h.tables q = some u ∧ S.path q = slots hsh (S.path q).length ∧
      u.isSubhash (slotAt hsh (S.path q).length) = false ∧
      locate h maxLevels root hsh 0 =
        some (q, slotAt hsh (S.path q).length, (S.path q).length) := by
  obtain ⟨t, ht, -⟩ := R.root_table
  have hlen : (S.path root).length = 0 := by simp [R.path_root]
  have hway : S.path root = slots hsh (S.path root).length := by
    rw [hlen, R.path_root]
    rfl
  obtain ⟨q, u, hq, hqp, hqb, hloc⟩ := R.locate_from ht hway (Nat.le_add_right maxLevels _)
  rw [hlen] at hloc
  exact ⟨q, u, hq, hqp, hqb, by simpa using hloc⟩

/-- The descent passes through every table on the way of the hash. -/
theorem Rep.locate_through (R : Rep key h root S e) {hsh n : ℕ} {p : Ptr} {t : SubhashTable}
    (ht : h.tables p = some t) (hp : S.path p = slots hsh n) (fuel : ℕ) :
    locate h (fuel + n) root hsh 0 = locate h fuel p (hsh >>> (n * subhashShift)) n := by
  induction n generalizing p t fuel with
  | zero =>
    have hroot : p = root := by
      by_contra hne
      have hpath := R.path_parent ht hne
      rw [hp] at hpath
      simpa [slots] using congrArg List.length hpath
    subst hroot
    simp
  | succ n ih =>
    have hne : p ≠ root := by
      rintro rfl
      rw [R.path_root] at hp
      simpa using congrArg List.length hp
    obtain ⟨-, q, hq, hbit, hget⟩ := R.parent p t ht hne
    have hpath := R.path_parent ht hne
    rw [hp, slots_succ] at hpath
    obtain ⟨hway, hlast⟩ := List.append_inj' hpath rfl
    have hlast' : t.get lastSlot = slotAt hsh n := by simpa using hlast.symm
    rw [hlast'] at hbit hget
    have hstep := ih hq hway.symm (fuel + 1)
    rw [Nat.add_right_comm, Nat.add_assoc] at hstep
    rw [hstep, locate_succ hq, if_pos hbit, hget]

/-- The descent along a hash ends at every list that lies on the way of that hash. -/
theorem Rep.locate_of_place (R : Rep key h root S e) {a : Ptr} {l : HashTableList α}
    (hl : h.lists a = some l) {hsh : ℕ}
    (hplace : S.path l.parent ++ [l.idx] = slots hsh ((S.path l.parent).length + 1)) :
    locate h maxLevels root hsh 0 = some (l.parent, l.idx, (S.path l.parent).length) := by
  obtain ⟨t, ht, hb⟩ := (R.lists a l hl).table
  have hdepth := (R.tables _ t ht).depth
  rw [slots_succ] at hplace
  obtain ⟨hway, hlast⟩ := List.append_inj' hplace rfl
  have hidx : l.idx = slotAt hsh (S.path l.parent).length := by simpa using hlast
  obtain ⟨fuel, hfuel⟩ : ∃ fuel, maxLevels = fuel + 1 + (S.path l.parent).length :=
    ⟨maxLevels - (S.path l.parent).length - 1, by omega⟩
  rw [hfuel, R.locate_through ht hway, locate_succ ht, ← hidx, hb]
  simp

/-- The list of a key lies in the slot where the descent along the hash of the key ends. -/
theorem Rep.locate_list (R : Rep key h root S e) {a : Ptr} {l : HashTableList α}
    (hl : h.lists a = some l) :
    locate h maxLevels root (hashField l.value) 0 =
      some (l.parent, l.idx, (S.path l.parent).length) :=
  R.locate_of_place hl (R.lists a l hl).place

/-- The slots that lead to a table determine it. -/
theorem Rep.path_inj (R : Rep key h root S e) {p p' : Ptr} {t t' : SubhashTable}
    (ht : h.tables p = some t) (ht' : h.tables p' = some t') (hpath : S.path p = S.path p') :
    p = p' := by
  obtain ⟨n, hn⟩ : ∃ n, n = (S.path p).length := ⟨_, rfl⟩
  have hroot : ∀ q u, h.tables q = some u → S.path q = [] → q = root := by
    intro q u hu hnil
    by_contra hne
    have hpar := R.path_parent hu hne
    rw [hnil] at hpar
    simpa using congrArg List.length hpar
  induction n generalizing p p' t t' with
  | zero =>
    have hnil : S.path p = [] := List.length_eq_zero_iff.mp hn.symm
    rw [hroot p t ht hnil, hroot p' t' ht' (hpath ▸ hnil)]
  | succ n ih =>
    have hne : ∀ q, S.path q = S.path p → q ≠ root := by
      rintro q hq rfl
      rw [← hq, R.path_root] at hn
      simp at hn
    have hp := R.path_parent ht (hne p rfl)
    have hp' := R.path_parent ht' (hne p' hpath.symm)
    obtain ⟨-, q, hq, -, hget⟩ := R.parent p t ht (hne p rfl)
    obtain ⟨-, q', hq', -, hget'⟩ := R.parent p' t' ht' (hne p' hpath.symm)
    have hboth := hpath
    rw [hp, hp'] at hboth
    obtain ⟨hparents, hlast⟩ := List.append_inj' hboth rfl
    have hslot : t.get lastSlot = t'.get lastSlot := by simpa using hlast
    have hlen : n = (S.path t.parent).length := by
      rw [hp, List.length_append, List.length_singleton] at hn
      omega
    have hsame := ih hq hq' hparents hlen
    rw [hsame, hq', Option.some.injEq] at hq
    rw [← hget, ← hget', hslot, hq]

end Locate

/-! ## The search along a chain -/

section Find

variable {h : Heap α} {v : Value}

theorem findList_eq (fuel : ℕ) (ls last : Ptr) (count : ℕ) :
    h.findList v fuel ls = (h.findBucket v fuel ls last count).map fun r => r.1 := by
  induction fuel generalizing ls last count with
  | zero =>
    unfold Heap.findList Heap.findBucket
    split <;> rfl
  | succ fuel ih =>
    unfold Heap.findList Heap.findBucket
    split
    · rfl
    · cases h.lists ls with
      | none => rfl
      | some l =>
        simp only [Option.bind_eq_bind, Option.bind_some]
        split
        · rfl
        · exact ih _ _ _

/-- The search along a chain finds a list of the key, or it passes all lists of the chain. -/
theorem findBucket_spec {c : List Ptr} {prv : Ptr} (hseg : Linked.Seg h.links prv c 0)
    (h0 : 0 ∉ c) {fuel : ℕ} (hfuel : c.length ≤ fuel) (last count : ℕ) :
    (∃ a ∈ c, ∃ l, h.lists a = some l ∧ sameField0 v l.value = true ∧
      ∃ last' count', h.findBucket v fuel (c.headD 0) last count = some (a, last', count')) ∨
    ((∀ a ∈ c, ∀ l, h.lists a = some l → sameField0 v l.value = false) ∧
      h.findBucket v fuel (c.headD 0) last count =
        some (0, c.getLastD last, count + c.length)) := by
  induction c generalizing prv fuel last count with
  | nil =>
    refine Or.inr ⟨by simp, ?_⟩
    cases fuel <;> rfl
  | cons a c ih =>
    obtain ⟨ha0, h0c⟩ := not_or.mp (mt List.mem_cons.mpr h0)
    obtain ⟨hlink, hrest⟩ := hseg
    cases fuel with
    | zero => simp at hfuel
    | succ fuel =>
      simp only [Heap.links, Option.map_eq_some_iff] at hlink
      obtain ⟨l, hl, hpn⟩ := hlink
      have hnext : l.next = c.headD 0 := congrArg Prod.snd hpn
      have hstep : h.findBucket v (fuel + 1) ((a :: c).headD 0) last count =
          if sameField0 v l.value = true then some (a, last, count)
          else h.findBucket v fuel (c.headD 0) a (count + 1) := by
        rw [List.headD_cons, Heap.findBucket, if_neg (Ne.symm ha0), hl, ← hnext]
        rfl
      rw [hstep]
      by_cases hsame : sameField0 v l.value = true
      · exact Or.inl ⟨a, List.mem_cons_self, l, hl, hsame, last, count, if_pos hsame⟩
      · rw [if_neg hsame]
        have hle : c.length ≤ fuel := by simpa using hfuel
        obtain ⟨b, hb, hfound⟩ | ⟨hnone, heq⟩ := ih hrest h0c hle a (count + 1)
        · exact Or.inl ⟨b, List.mem_cons_of_mem a hb, hfound⟩
        · refine Or.inr ⟨?_, ?_⟩
          · intro b hb m hm
            rcases List.mem_cons.mp hb with rfl | hb
            · rw [hl, Option.some.injEq] at hm
              subst hm
              simpa using hsame
            · exact hnone b hb m hm
          · rw [heq, List.getLastD_cons, List.length_cons]
            congr 3
            omega

end Find

section Search

variable {key : α → Value} {h : Heap α} {root e : Ptr} {S : Shape}

/-- **The search for a key**: the descent along its hash ends at a slot, and the chain of that slot
holds the list of the key if there is one anywhere. -/
theorem Rep.search (R : Rep key h root S e) (v : Value) :
    ∃ q u, h.tables q = some u ∧ S.path q = slots (hashField v) (S.path q).length ∧
      u.isSubhash (slotAt (hashField v) (S.path q).length) = false ∧
      locate h maxLevels root (hashField v) 0 =
        some (q, slotAt (hashField v) (S.path q).length, (S.path q).length) ∧
      ((∃ a l last count, h.lists a = some l ∧ sameField0 v l.value = true ∧
          h.findBucket v h.fresh (u.get (slotAt (hashField v) (S.path q).length)) 0 0 =
            some (a, last, count)) ∨
        (∀ a l, h.lists a = some l → sameField0 v l.value = false) ∧
          h.findBucket v h.fresh (u.get (slotAt (hashField v) (S.path q).length)) 0 0 =
            some (0, (S.chain q (slotAt (hashField v) (S.path q).length)).getLastD 0,
              (S.chain q (slotAt (hashField v) (S.path q).length)).length)) := by
  obtain ⟨q, u, hu, hway, hbit, hloc⟩ := R.locate_eq (hashField v)
  refine ⟨q, u, hu, hway, hbit, hloc, ?_⟩
  have hi := slotAt_lt (hashField v) (S.path q).length
  generalize slotAt (hashField v) (S.path q).length = i at hbit hloc hi ⊢
  obtain ⟨hget, hseg⟩ := ((R.tables q u hu).slot i hi).chain hbit
  rw [hget]
  obtain ⟨a, -, l, hl, hsame, last, count, hfind⟩ | ⟨hnone, hfind⟩ :=
    findBucket_spec hseg (R.zero_notMem_chain hu hi) (R.length_chain_le hu hi) 0 0
  · exact Or.inl ⟨a, l, last, count, hl, hsame, hfind⟩
  · refine Or.inr ⟨?_, by simpa using hfind⟩
    intro a l hl
    by_contra hsame
    rw [Bool.not_eq_false] at hsame
    have hthere := R.locate_list hl
    rw [← hashField_eq_of_same hsame, hloc, Option.some.injEq, Prod.mk.injEq,
      Prod.mk.injEq] at hthere
    obtain ⟨rfl, rfl, -⟩ := hthere
    rw [hnone a (R.lists a l hl).mem l hl] at hsame
    cases hsame

/-- **`lookup_list`** returns the list of the key, or null when no list has that key. -/
theorem Rep.lookupList_eq (R : Rep key h root S e) (v : Value) :
    (∃ a l, h.lists a = some l ∧ sameField0 v l.value = true ∧
      h.lookupList v maxLevels root (hashField v) = some a) ∨
    (∀ a l, h.lists a = some l → sameField0 v l.value = false) ∧
      h.lookupList v maxLevels root (hashField v) = some 0 := by
  obtain ⟨q, u, hu, -, -, hloc, hfind⟩ := R.search v
  rw [lookupList_eq_locate v maxLevels h root (hashField v) 0, hloc, Option.bind_some, hu,
    Option.bind_some, findList_eq _ _ 0 0]
  obtain ⟨a, l, last, count, hl, hsame, hfind⟩ | ⟨hnone, hfind⟩ := hfind
  · exact Or.inl ⟨a, l, hl, hsame, by rw [hfind]; rfl⟩
  · exact Or.inr ⟨hnone, by rw [hfind]; rfl⟩

end Search

/-! ## The stored tuples -/

/-- The tuples of the bucket list at an address, none where no list is allocated. -/
def Heap.tuples (h : Heap α) (a : Ptr) : List α := ((h.lists a).map fun l => l.list).getD []

/-- All tuples in the bucket lists of the heap. -/
def Heap.stored (h : Heap α) : Multiset α :=
  ∑ a ∈ Finset.range h.fresh, (h.tuples a : Multiset α)

section Stored

variable {h h' : Heap α}

theorem Heap.tuples_of_list {a : Ptr} {l : HashTableList α} (hl : h.lists a = some l) :
    h.tuples a = l.list := by
  simp [Heap.tuples, hl]

theorem Heap.tuples_of_none {a : Ptr} (hl : h.lists a = none) : h.tuples a = [] := by
  simp [Heap.tuples, hl]

/-- The stored tuples, summed over any range that reaches all lists. -/
theorem Heap.stored_eq_sum {n : ℕ} (hn : h.fresh ≤ n)
    (hout : ∀ b, h.fresh ≤ b → h.tuples b = []) :
    h.stored = ∑ a ∈ Finset.range n, (h.tuples a : Multiset α) := by
  refine Finset.sum_subset (Finset.range_mono hn) ?_
  intro b _ hb
  rw [hout b (by simpa using hb)]
  rfl

/-- The stored tuples after the list at one address changes. -/
theorem Heap.stored_update {a : Ptr} (hfresh : h.fresh ≤ h'.fresh) (ha : a < h'.fresh)
    (hout : ∀ b, h.fresh ≤ b → h.tuples b = [])
    (hother : ∀ b, b ≠ a → h'.tuples b = h.tuples b) :
    h'.stored + h.tuples a = h.stored + h'.tuples a := by
  have hmem : a ∈ Finset.range h'.fresh := Finset.mem_range.mpr ha
  have hrest : ∑ b ∈ (Finset.range h'.fresh).erase a, (h'.tuples b : Multiset α) =
      ∑ b ∈ (Finset.range h'.fresh).erase a, (h.tuples b : Multiset α) := by
    refine Finset.sum_congr rfl fun b hb => ?_
    rw [hother b (Finset.ne_of_mem_erase hb)]
  rw [h.stored_eq_sum hfresh hout, Heap.stored, ← Finset.add_sum_erase _ _ hmem,
    ← Finset.add_sum_erase _ (fun b => (h.tuples b : Multiset α)) hmem, hrest]
  abel

/-- Moving lists about does not change what is stored. -/
theorem Heap.stored_congr (hfresh : h.fresh ≤ h'.fresh)
    (hout : ∀ b, h.fresh ≤ b → h.tuples b = []) (hsame : ∀ b, h'.tuples b = h.tuples b) :
    h'.stored = h.stored := by
  rw [h.stored_eq_sum hfresh hout, Heap.stored]
  simp only [hsame]

theorem Rep.tuples_of_fresh {key : α → Value} {root e : Ptr} {S : Shape}
    (R : Rep key h root S e) (b : Ptr) (hb : h.fresh ≤ b) : h.tuples b = [] := by
  cases hl : h.lists b with
  | none => exact Heap.tuples_of_none hl
  | some l => exact absurd (R.fresh_lists b l hl) (Nat.not_lt.mpr hb)

end Stored

end Hash
end Meld
