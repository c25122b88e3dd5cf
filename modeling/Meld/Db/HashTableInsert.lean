import Meld.Db.HashTableShape

/-!
# Insertion into a hash table

Each of the three things that `insert` can do to the heap keeps the representation invariant and
says how the shape changes:

* `setTuples_rep`: a tuple joins the list of its key;
* `newList_rep`: a list for a new key is hung at the end of a chain;
* `split_rep`: a crowded chain becomes a sub-table.

`insert_rep` puts them together along the descent.
-/

namespace Meld
namespace Hash

variable {α : Type} {key : α → Value} {h : Heap α} {root e : Ptr} {S : Shape}

theorem ne_lastSlot {i : ℕ} (hi : i < prime) : i ≠ lastSlot := by
  have : lastSlot = 31 := rfl
  have : prime = 29 := rfl
  omega

@[simp] theorem get_set_self (t : SubhashTable) (i : ℕ) (w : Ptr) : (t.set i w).get i = w := by
  simp [SubhashTable.get, SubhashTable.set]

theorem get_set_of_ne (t : SubhashTable) {i j : ℕ} (w : Ptr) (hij : j ≠ i) :
    (t.set i w).get j = t.get j := by
  simp [SubhashTable.get, SubhashTable.set, hij]

@[simp] theorem isSubhash_set (t : SubhashTable) (i j : ℕ) (w : Ptr) :
    (t.set i w).isSubhash j = t.isSubhash j := rfl

@[simp] theorem parent_set (t : SubhashTable) (i : ℕ) (w : Ptr) :
    (t.set i w).parent = t.parent := rfl

@[simp] theorem subs_set (t : SubhashTable) (i : ℕ) (w : Ptr) : subs (t.set i w) = subs t := rfl

/-! ## A tuple joins its list -/

/-- The heap with the tuples of the list `l` at `a` replaced. -/
def withTuples (h : Heap α) (a : Ptr) (l : HashTableList α) (xs : List α) : Heap α :=
  { h with lists := Function.update h.lists a (some { l with list := xs }) }

/-- The tuples of a list may be replaced by others of its key. -/
theorem setTuples_rep (R : Rep key h root S e) {a : Ptr} {l : HashTableList α}
    (hl : h.lists a = some l) {xs : List α} (hxs : xs ≠ [])
    (hkeys : ∀ x ∈ xs, sameField0 (key x) l.value = true) :
    Rep key (withTuples h a l xs) root S e := by
  have hlists : ∀ b m, Function.update h.lists a (some { l with list := xs }) b = some m →
      ∃ m', h.lists b = some m' ∧ SamePlace m' m ∧ m.value = m'.value ∧
        (m.list = m'.list ∨ b = a ∧ m.list = xs) := by
    intro b m hm
    by_cases hb : b = a
    · subst hb
      rw [Function.update_self, Option.some.injEq] at hm
      subst hm
      exact ⟨l, hl, ⟨rfl, rfl, rfl, rfl⟩, rfl, Or.inr ⟨rfl, rfl⟩⟩
    · rw [Function.update_of_ne hb] at hm
      exact ⟨m, hm, SamePlace.refl m, rfl, Or.inl rfl⟩
  have hback : ∀ b m, h.lists b = some m →
      ∃ m', Function.update h.lists a (some { l with list := xs }) b = some m' ∧
        SamePlace m m' := by
    intro b m hm
    by_cases hb : b = a
    · subst hb
      rw [hl, Option.some.injEq] at hm
      subst hm
      exact ⟨{ l with list := xs }, Function.update_self .., rfl, rfl, rfl, rfl⟩
    · exact ⟨m, by rw [Function.update_of_ne hb, hm], SamePlace.refl m⟩
  constructor
  case root_table => exact R.root_table
  case path_root => exact R.path_root
  case tables_zero => exact R.tables_zero
  case lists_zero =>
    have hne := (R.ne_zero_of_list hl).symm
    simpa [withTuples, hne] using R.lists_zero
  case fresh_tables => exact R.fresh_tables
  case fresh_lists =>
    intro b m hm
    obtain ⟨m', hm', -⟩ := hlists b m hm
    exact R.fresh_lists b m' hm'
  case tables =>
    intro p t ht
    have ok := R.tables p t ht
    refine ⟨ok.capacity, ok.unused, ok.depth, ?_, ok.uniqueLists, ok.uniqueSubs⟩
    intro i hi
    refine (ok.slot i hi).frame rfl rfl (fun b m hm _ _ => hback b m hm) ?_
    intro s _ hs _ _
    exact ⟨rfl, s, hs, rfl, rfl⟩
  case lists =>
    intro b m hm
    obtain ⟨m', hm', ⟨hp, hi, -, -⟩, hval, hlist⟩ := hlists b m hm
    have ok := R.lists b m' hm'
    refine ⟨?_, ?_, ?_, ?_, ?_, ?_⟩
    · rcases hlist with heq | ⟨-, heq⟩
      · rw [heq]; exact ok.nonempty
      · rw [heq]; exact hxs
    · rcases hlist with heq | ⟨rfl, heq⟩
      · rw [heq, hval]; exact ok.keys
      · rw [hl, Option.some.injEq] at hm'
        rw [heq, hval, ← hm']
        exact hkeys
    · rw [hp, hi]; exact ok.table
    · rw [hi]; exact ok.idx_lt
    · rw [hp, hi]; exact ok.mem
    · rw [hp, hi, hval]; exact ok.place
  case parent => exact R.parent
  case distinct =>
    intro b c m n hm hn hsame
    obtain ⟨m', hm', -, hvalm, -⟩ := hlists b m hm
    obtain ⟨n', hn', -, hvaln, -⟩ := hlists c n hn
    rw [hvalm, hvaln] at hsame
    exact R.distinct b c m' n' hm' hn' hsame
  case nonempty => exact R.nonempty

/-- What is stored after the tuples of one list are replaced. -/
theorem setTuples_stored (R : Rep key h root S e) {a : Ptr} {l : HashTableList α}
    (hl : h.lists a = some l) (xs : List α) :
    (withTuples h a l xs).stored + (l.list : Multiset α) = h.stored + (xs : Multiset α) := by
  have hself : (withTuples h a l xs).tuples a = xs := by
    simp [Heap.tuples, withTuples]
  have hother : ∀ b, b ≠ a → (withTuples h a l xs).tuples b = h.tuples b := by
    intro b hb
    simp [Heap.tuples, withTuples, hb]
  have hle : h.fresh ≤ (withTuples h a l xs).fresh := le_rfl
  have hlt : a < (withTuples h a l xs).fresh := R.fresh_lists a l hl
  have hsum := Heap.stored_update hle hlt R.tuples_of_fresh hother
  rw [hself, Heap.tuples_of_list hl] at hsum
  exact hsum

/-! ## Changing one table -/

/-- Table `p`, which was `t`, is `t'` now.  The tables with `f` may be new or gone, and every other
table is as before. -/
structure TableChanged (h h' : Heap α) (p : Ptr) (t t' : SubhashTable) (f : Ptr → Prop) : Prop where
  before : h.tables p = some t
  after : h'.tables p = some t'
  parent : t'.parent = t.parent
  last : t'.get lastSlot = t.get lastSlot
  rest : ∀ q, q ≠ p → ¬ f q → h'.tables q = h.tables q

namespace TableChanged

variable {h' : Heap α} {S' : Shape} {p q : Ptr} {t t' u u' : SubhashTable} {f : Ptr → Prop}

/-- What becomes of an old table. -/
theorem of_before (C : TableChanged h h' p t t' f) (hu : h.tables q = some u) (hq : ¬ f q) :
    ∃ u', h'.tables q = some u' ∧ u'.parent = u.parent ∧ u'.get lastSlot = u.get lastSlot ∧
      (q = p ∧ u = t ∧ u' = t' ∨ q ≠ p ∧ u' = u) := by
  by_cases hqp : q = p
  · subst hqp
    obtain rfl := Option.some.inj (C.before.symm.trans hu)
    exact ⟨t', C.after, C.parent, C.last, Or.inl ⟨rfl, rfl, rfl⟩⟩
  · exact ⟨u, by rw [C.rest q hqp hq, hu], rfl, rfl, Or.inr ⟨hqp, rfl⟩⟩

/-- Where a table comes from. -/
theorem of_after (C : TableChanged h h' p t t' f) (hu' : h'.tables q = some u') (hq : ¬ f q) :
    ∃ u, h.tables q = some u ∧ u'.parent = u.parent ∧ u'.get lastSlot = u.get lastSlot ∧
      (q = p ∧ u = t ∧ u' = t' ∨ q ≠ p ∧ u' = u) := by
  by_cases hqp : q = p
  · subst hqp
    obtain rfl := Option.some.inj (C.after.symm.trans hu')
    exact ⟨t, C.before, C.parent, C.last, Or.inl ⟨rfl, rfl, rfl⟩⟩
  · exact ⟨u', by rw [← C.rest q hqp hq, hu'], rfl, rfl, Or.inr ⟨hqp, rfl⟩⟩

theorem root_table (C : TableChanged h h' p t t' f) (R : Rep key h root S e) (hroot : ¬ f root) :
    ∃ r, h'.tables root = some r ∧ r.parent = 0 := by
  obtain ⟨r, hr, hr0⟩ := R.root_table
  obtain ⟨r', hr', hpar, -⟩ := C.of_before hr hroot
  exact ⟨r', hr', hpar.trans hr0⟩

/-- A slot of an old table stays right when its lists and the way to its sub-table stay. -/
theorem slotOk (C : TableChanged h h' p t t' f) (R : Rep key h root S e) (hu : h.tables q = some u)
    {j : ℕ} (hj : j < prime) (hpath : S'.path q = S.path q) (hchain : S'.chain q j = S.chain q j)
    (hlists : ∀ a l, h.lists a = some l → l.parent = q → l.idx = j → h'.lists a = some l)
    (hsub : ∀ s, h.tables (u.get j) = some s → s.parent = q → s.get lastSlot = j →
      ¬ f (u.get j) ∧ S'.path (u.get j) = S.path (u.get j)) :
    SlotOk h' S' q j (u.isSubhash j) (u.get j) := by
  refine ((R.tables q u hu).slot j hj).frame hpath hchain ?_ ?_
  · intro a l hl hlp hli
    exact ⟨l, hlists a l hl hlp hli, SamePlace.refl l⟩
  · intro s _ hs hsp hsi
    obtain ⟨hf, hway⟩ := hsub s hs hsp hsi
    obtain ⟨s', hs', hpar, hlast, -⟩ := C.of_before hs hf
    exact ⟨hway, s', hs', hpar, hlast⟩

/-- A list stays right where it is when its slot stays a slot with a chain. -/
theorem listOk (C : TableChanged h h' p t t' f) (R : Rep key h root S e) {a : Ptr}
    {l : HashTableList α} (hl : h.lists a = some l) (hf : ¬ f l.parent)
    (hpath : S'.path l.parent = S.path l.parent) (hmem : a ∈ S'.chain l.parent l.idx)
    (hbit : l.parent = p → t.isSubhash l.idx = false → t'.isSubhash l.idx = false) :
    ListOk key h' S' a l := by
  refine (R.lists a l hl).frame (SameContent.refl l) hpath hmem ?_
  intro u hu hub
  obtain ⟨u', hu', -, -, ⟨hlp, rfl, rfl⟩ | ⟨-, rfl⟩⟩ := C.of_before hu hf
  · exact ⟨u', hu', hbit hlp hub⟩
  · exact ⟨u', hu', hub⟩

/-- The parent of an old table still leads to it. -/
theorem parent_of (C : TableChanged h h' p t t' f) (R : Rep key h root S e)
    (hf : ∀ r v j, h.tables r = some v → j < prime → v.isSubhash j = true → ¬ f r)
    (hbit : ∀ j, t.isSubhash j = true → t.get j = q → t'.isSubhash j = true ∧ t'.get j = q)
    (hu' : h'.tables q = some u') (hq : ¬ f q) (hroot : q ≠ root) :
    u'.get lastSlot < prime ∧ ∃ r, h'.tables u'.parent = some r ∧
      r.isSubhash (u'.get lastSlot) = true ∧ r.get (u'.get lastSlot) = q := by
  obtain ⟨u, hu, hpar, hlast, -⟩ := C.of_after hu' hq
  obtain ⟨hlt, r, hr, hrbit, hget⟩ := R.parent q u hu hroot
  obtain ⟨r', hr', -, -, hcase⟩ := C.of_before hr (hf _ r _ hr hlt hrbit)
  rw [hpar, hlast]
  refine ⟨hlt, r', hr', ?_⟩
  obtain ⟨-, rfl, rfl⟩ | ⟨-, rfl⟩ := hcase
  · exact hbit _ hrbit hget
  · exact ⟨hrbit, hget⟩

end TableChanged

/-- A table stays right when its slots do and it keeps its place and its number of lists. -/
theorem TableOk.frame {h' : Heap α} {S' : Shape} {p : Ptr} {t : SubhashTable}
    (ok : TableOk h S p t) (hpath : S'.path p = S.path p) (hheld : S'.held p = S.held p)
    (hslot : ∀ j < prime, SlotOk h' S' p j (t.isSubhash j) (t.get j)) : TableOk h' S' p t := by
  refine ⟨ok.capacity, ok.unused, ?_, hslot, ?_, ok.uniqueSubs⟩
  · rw [hpath]
    exact ok.depth
  · rw [hheld]
    exact ok.uniqueLists

/-! ## Changing one chain -/

/-- A bucket list that belongs in slot `i` of table `p`. -/
structure Member (key : α → Value) (S : Shape) (p i : ℕ) (l : HashTableList α) : Prop where
  parent : l.parent = p
  idx : l.idx = i
  nonempty : l.list ≠ []
  keys : ∀ x ∈ l.list, sameField0 (key x) l.value = true
  place : S.path p ++ [i] = slots (hashField l.value) ((S.path p).length + 1)

theorem ListOk.member {a : Ptr} {l : HashTableList α} (ok : ListOk key h S a l) :
    Member key S l.parent l.idx l :=
  ⟨rfl, rfl, ok.nonempty, ok.keys, ok.place⟩

/-- The table `t` with the chain of slot `i` replaced by one that starts at `w`, and its count. -/
def rechained (t : SubhashTable) (i : ℕ) (w : Ptr) (n : ℕ) : SubhashTable :=
  { t.set i w with uniqueLists := UInt16.ofNat n }

section Rechained

variable (t : SubhashTable) (i : ℕ) (w : Ptr) (n : ℕ)

@[simp] theorem rechained_parent : (rechained t i w n).parent = t.parent := rfl

@[simp] theorem rechained_bitmap : (rechained t i w n).bitmap = t.bitmap := rfl

@[simp] theorem rechained_uniqueLists : (rechained t i w n).uniqueLists = UInt16.ofNat n := rfl

@[simp] theorem rechained_uniqueSubs : (rechained t i w n).uniqueSubs = t.uniqueSubs := rfl

@[simp] theorem rechained_isSubhash (j : ℕ) : (rechained t i w n).isSubhash j = t.isSubhash j := rfl

@[simp] theorem rechained_subs : subs (rechained t i w n) = subs t := rfl

@[simp] theorem rechained_get_self : (rechained t i w n).get i = w := get_set_self t i w

theorem rechained_get_of_ne {j : ℕ} (hj : j ≠ i) : (rechained t i w n).get j = t.get j :=
  get_set_of_ne t w hj

variable {t i w n}

theorem rechained_changed {h' : Heap α} {p : Ptr} (ht : h.tables p = some t) (hi : i < prime)
    (hT : h'.tables = Function.update h.tables p (some (rechained t i w n))) :
    TableChanged h h' p t (rechained t i w n) fun _ => False := by
  refine ⟨ht, by rw [hT, Function.update_self], rfl, ?_, fun q hq _ => ?_⟩
  · exact rechained_get_of_ne t i w n (ne_lastSlot hi).symm
  · rw [hT, Function.update_of_ne hq]

end Rechained

/-- **Changing one chain**: the chain of slot `i` of table `p` becomes `c`, and every other list
stays as it is.  The table may become empty if it is the exempt one. -/
theorem Rep.rechain (R : Rep key h root S e) {p i : ℕ} {t : SubhashTable}
    (ht : h.tables p = some t) (hi : i < prime) (hb : t.isSubhash i = false) {h' : Heap α}
    {c : List Ptr} {e' : Ptr}
    (hT : h'.tables = Function.update h.tables p
      (some (rechained t i (c.headD 0) ((S.setChain p i c).held p))))
    (hfresh : h.fresh ≤ h'.fresh) (hfresh' : ∀ a l, h'.lists a = some l → a < h'.fresh)
    (h0 : h'.lists 0 = none)
    (hother : ∀ a l, h.lists a = some l → l.parent ≠ p ∨ l.idx ≠ i → h'.lists a = some l)
    (hback : ∀ a l, h'.lists a = some l →
      a ∈ c ∨ h.lists a = some l ∧ (l.parent ≠ p ∨ l.idx ≠ i))
    (hnodup : c.Nodup) (hseg : Linked.Seg h'.links 0 c 0)
    (hmem : ∀ a ∈ c, ∃ l, h'.lists a = some l ∧ Member key S p i l)
    (hdist : ∀ a b l m, h'.lists a = some l → h'.lists b = some m →
      sameField0 l.value m.value = true → a = b)
    (he : e = 0 ∨ e = e')
    (hne : p ≠ root → p ≠ e' → (S.setChain p i c).held p ≠ 0 ∨ subs t ≠ 0) :
    Rep key h' root (S.setChain p i c) e' := by
  have C := rechained_changed ht hi hT
  have hframe : ∀ q u, h.tables q = some u → ∀ j < prime, q ≠ p ∨ j ≠ i →
      SlotOk h' (S.setChain p i c) q j (u.isSubhash j) (u.get j) := by
    intro q u hu j hj hqj
    refine C.slotOk R hu hj rfl (S.chain_setChain_of_ne c hqj) ?_ fun _ _ _ _ => ⟨id, rfl⟩
    intro a l hl hlp hli
    exact hother a l hl (by rw [hlp, hli]; exact hqj)
  have hchanged : SlotOk h' (S.setChain p i c) p i (t.isSubhash i) (c.headD 0) := by
    rw [hb]
    constructor
    case nodup => rw [Shape.chain_setChain_self]; exact hnodup
    case own =>
      intro a ha
      rw [Shape.chain_setChain_self] at ha
      obtain ⟨l, hl, hm⟩ := hmem a ha
      exact ⟨l, hl, hm.parent, hm.idx⟩
    case sub => exact fun hbit => absurd hbit (by decide)
    case chain =>
      intro _
      rw [Shape.chain_setChain_self]
      exact ⟨rfl, hseg⟩
  constructor
  case root_table => exact C.root_table R id
  case path_root => exact R.path_root
  case tables_zero =>
    rw [C.rest 0 (R.ne_zero_of_table ht).symm id]
    exact R.tables_zero
  case lists_zero => exact h0
  case fresh_tables =>
    intro q u' hu'
    obtain ⟨u, hu, -⟩ := C.of_after hu' id
    exact lt_of_lt_of_le (R.fresh_tables q u hu) hfresh
  case fresh_lists => exact hfresh'
  case tables =>
    intro q u' hu'
    obtain ⟨u, hu, -, -, ⟨rfl, rfl, rfl⟩ | ⟨hq, rfl⟩⟩ := C.of_after hu' id
    · have ok := R.tables q u hu
      refine ⟨ok.capacity, ok.unused, ok.depth, ?_, rechained_uniqueLists .., ok.uniqueSubs⟩
      intro j hj
      rw [rechained_isSubhash]
      by_cases hji : j = i
      · subst hji
        rw [rechained_get_self]
        exact hchanged
      · rw [rechained_get_of_ne _ _ _ _ hji]
        exact hframe q u hu j hj (Or.inr hji)
    · exact (R.tables q u' hu).frame rfl (S.held_setChain_of_ne i c hq) fun j hj =>
        hframe q u' hu j hj (Or.inl hq)
  case lists =>
    intro a l hl
    rcases hback a l hl with hac | ⟨hl0, hdiff⟩
    · obtain ⟨l', hl', hm⟩ := hmem a hac
      rw [hl, Option.some.injEq] at hl'
      subst hl'
      obtain ⟨rfl, rfl, hnonempty, hkeys, hplace⟩ := hm
      refine ⟨hnonempty, hkeys, ⟨_, C.after, hb⟩, hi, ?_, hplace⟩
      rw [Shape.chain_setChain_self]
      exact hac
    · refine C.listOk R hl0 id rfl ?_ fun _ hbit => hbit
      rw [S.chain_setChain_of_ne c hdiff]
      exact (R.lists a l hl0).mem
  case parent =>
    intro q u' hu' hroot
    refine C.parent_of R (fun _ _ _ _ _ _ => id) ?_ hu' id hroot
    intro j hbit hget
    have hji : j ≠ i := by
      rintro rfl
      rw [hb] at hbit
      cases hbit
    rw [rechained_isSubhash, rechained_get_of_ne _ _ _ _ hji]
    exact ⟨hbit, hget⟩
  case distinct => exact hdist
  case nonempty =>
    intro q u' hu' hroot hqe
    obtain ⟨u, hu, -, -, ⟨rfl, rfl, rfl⟩ | ⟨hq, rfl⟩⟩ := C.of_after hu' id
    · rw [rechained_subs]
      exact hne hroot hqe
    · rw [S.held_setChain_of_ne i c hq]
      refine R.nonempty q u' hu hroot ?_
      rcases he with rfl | rfl
      · exact R.ne_zero_of_table hu
      · exact hqe

/-! ## A list for a new key -/

/-- What `newList` leaves in the heap. -/
theorem newList_eq {p i : ℕ} {t : SubhashTable} (ht : h.tables p = some t) {last : Ptr}
    (hlast : last ≠ 0 → ∃ l, h.lists last = some l) (hne : last ≠ h.fresh)
    (h0 : h.lists 0 = none) (v : Value) (item : α) :
    h.newList p i last v item = some
      { tables := Function.update h.tables p (some
          { (if last = 0 then t.set i h.fresh else t) with uniqueLists := t.uniqueLists + 1 })
        lists := fun x =>
          if x = h.fresh then some ⟨[item], v, p, i, last, 0⟩
          else (h.lists x).map fun l => if x = last then { l with next := h.fresh } else l
        fresh := h.fresh + 1 } := by
  unfold Heap.newList
  by_cases h0l : last = 0
  · subst h0l
    have hfun : ∀ x, (h.lists x).map
        (fun l => if x = 0 then { l with next := h.fresh } else l) = h.lists x := by
      intro x
      by_cases hx : x = 0
      · subst hx
        simp [h0]
      · simp [hx]
    simp only [Heap.allocList, Heap.writeTable, ht, hfun, ne_eq, not_true_eq_false, if_false,
      if_true, Option.map_some, Option.bind_eq_bind, Option.bind_some, Function.update_self,
      Function.update_idem]
    congr 2
    funext x
    simp [Function.update_apply]
  · obtain ⟨l, hl⟩ := hlast h0l
    simp only [Heap.allocList, Heap.writeTable, Heap.writeList, ht, hl, ne_eq, h0l,
      not_false_eq_true, if_true, if_false, Function.update_of_ne hne, Option.map_some,
      Option.bind_eq_bind, Option.bind_some]
    congr 2
    funext x
    by_cases hx : x = last
    · subst hx
      simp [hne, hl]
    · by_cases hxf : x = h.fresh <;> simp [hx, hxf, hne.symm]

/-- Writing back the pointer that a slot holds changes nothing. -/
theorem set_get (t : SubhashTable) (i : ℕ) : t.set i (t.get i) = t := by
  simp [SubhashTable.set, SubhashTable.get]

/-- The first unused address is not null, and no object is there. -/
theorem Rep.lists_fresh (R : Rep key h root S e) : h.lists h.fresh = none := by
  cases hl : h.lists h.fresh with
  | none => rfl
  | some l => exact absurd (R.fresh_lists _ l hl) (lt_irrefl _)

theorem Rep.tables_fresh (R : Rep key h root S e) : h.tables h.fresh = none := by
  cases ht : h.tables h.fresh with
  | none => rfl
  | some t => exact absurd (R.fresh_tables _ t ht) (lt_irrefl _)

theorem Rep.fresh_ne_zero (R : Rep key h root S e) : h.fresh ≠ 0 := by
  obtain ⟨r, hr, -⟩ := R.root_table
  exact Nat.ne_of_gt (Nat.lt_of_le_of_lt (Nat.zero_le root) (R.fresh_tables root r hr))

theorem Rep.fresh_notMem (R : Rep key h root S e) {p i : ℕ} {t : SubhashTable}
    (ht : h.tables p = some t) (hi : i < prime) : h.fresh ∉ S.chain p i := by
  intro hmem
  obtain ⟨l, hl, -⟩ := ((R.tables p t ht).slot i hi).own _ hmem
  rw [R.lists_fresh] at hl
  cases hl

/-- The last list of a chain, when there is one. -/
theorem Rep.getLastD_chain (R : Rep key h root S e) {p i : ℕ} {t : SubhashTable}
    (ht : h.tables p = some t) (hi : i < prime) (hne : (S.chain p i).getLastD 0 ≠ 0) :
    ∃ l, h.lists ((S.chain p i).getLastD 0) = some l ∧ l.parent = p ∧ l.idx = i := by
  refine ((R.tables p t ht).slot i hi).own _ (Linked.getLastD_mem ?_)
  intro hnil
  exact hne (by rw [hnil]; rfl)

/-- The heap that `newList` leaves. -/
def appended (h : Heap α) (p i : ℕ) (t : SubhashTable) (last : Ptr) (v : Value) (item : α) :
    Heap α where
  tables := Function.update h.tables p (some
    { (if last = 0 then t.set i h.fresh else t) with uniqueLists := t.uniqueLists + 1 })
  lists := fun x =>
    if x = h.fresh then some ⟨[item], v, p, i, last, 0⟩
    else (h.lists x).map fun l => if x = last then { l with next := h.fresh } else l
  fresh := h.fresh + 1

section Appended

variable {p i : ℕ} {t : SubhashTable} {last : Ptr} {v : Value} {item : α}

theorem appended_lists_of_ne {x : Ptr} {l : HashTableList α} (hx : x ≠ h.fresh)
    (hl : h.lists x = some l) :
    (appended h p i t last v item).lists x =
      some (if x = last then { l with next := h.fresh } else l) := by
  simp [appended, hx, hl]

theorem appended_lists_cases {x : Ptr} {l' : HashTableList α}
    (hl' : (appended h p i t last v item).lists x = some l') :
    x = h.fresh ∧ l' = ⟨[item], v, p, i, last, 0⟩ ∨
      x ≠ h.fresh ∧ ∃ l, h.lists x = some l ∧
        l' = if x = last then { l with next := h.fresh } else l := by
  by_cases hx : x = h.fresh
  · left
    subst hx
    simp only [appended, if_true, Option.some.injEq] at hl'
    exact ⟨rfl, hl'.symm⟩
  · right
    simp only [appended, if_neg hx, Option.map_eq_some_iff] at hl'
    obtain ⟨l, hl, heq⟩ := hl'
    exact ⟨hx, l, hl, heq.symm⟩

/-- The links after a list is hung behind `last`. -/
theorem appended_links (hlf : last ≠ h.fresh) :
    (appended h p i t last v item).links =
      Linked.join (Function.update h.links h.fresh (some (last, 0))) last h.fresh := by
  funext x
  by_cases hx : x = h.fresh
  · subst hx
    simp [Heap.links, appended, Linked.join, hlf.symm]
  · cases hl : h.lists x with
    | none => simp [Heap.links, appended, Linked.join, hx, hl]
    | some l =>
      by_cases hxl : x = last
      · subst hxl
        simp [Heap.links, appended, Linked.join, hx, hl]
      · simp [Heap.links, appended, Linked.join, hx, hl, hxl]

theorem appended_stored (R : Rep key h root S e) :
    (appended h p i t last v item).stored = item ::ₘ h.stored := by
  have hself : (appended h p i t last v item).tuples h.fresh = [item] := by
    simp [Heap.tuples, appended]
  have hother : ∀ b, b ≠ h.fresh →
      (appended h p i t last v item).tuples b = h.tuples b := by
    intro b hb
    cases hl : h.lists b with
    | none => simp [Heap.tuples, appended, hb, hl]
    | some l =>
      rw [Heap.tuples_of_list (appended_lists_of_ne hb hl), Heap.tuples_of_list hl]
      split <;> rfl
  have hsum := Heap.stored_update (Nat.le_succ h.fresh) (Nat.lt_succ_self h.fresh)
    R.tuples_of_fresh hother
  rw [hself, Heap.tuples_of_none R.lists_fresh] at hsum
  simpa [add_comm] using hsum

end Appended

/-- The table that `newList` leaves. -/
theorem rechained_append (R : Rep key h root S e) {p i : ℕ} {t : SubhashTable}
    (ht : h.tables p = some t) (hi : i < prime) (hb : t.isSubhash i = false) :
    { (if (S.chain p i).getLastD 0 = 0 then t.set i h.fresh else t) with
        uniqueLists := t.uniqueLists + 1 } =
      rechained t i ((S.chain p i ++ [h.fresh]).headD 0)
        ((S.setChain p i (S.chain p i ++ [h.fresh])).held p) := by
  have ok := R.tables p t ht
  have hheld : (S.setChain p i (S.chain p i ++ [h.fresh])).held p = S.held p + 1 := by
    have hsum := S.held_setChain p hi (S.chain p i ++ [h.fresh])
    rw [List.length_append, List.length_singleton] at hsum
    omega
  have hget := ((ok.slot i hi).chain hb).1
  have h0 := R.zero_notMem_chain ht hi
  rw [rechained, hheld, ok.uniqueLists, UInt16.ofNat_add]
  cases hc : S.chain p i with
  | nil => rfl
  | cons a c =>
    rw [hc] at hget h0
    have hne : (a :: c).getLastD 0 ≠ 0 := by
      intro heq
      exact h0 (heq ▸ Linked.getLastD_mem (List.cons_ne_nil a c))
    rw [if_neg hne, List.cons_append, List.headD_cons, show a = t.get i from hget.symm, set_get]
    rfl

/-- **A new list**: `insert` hangs a list for a new key at the end of the chain of its slot. -/
theorem newList_rep (R : Rep key h root S 0) {p i : ℕ} {t : SubhashTable}
    (ht : h.tables p = some t) (hi : i < prime) (hb : t.isSubhash i = false) {item : α}
    (hplace : S.path p ++ [i] = slots (hashField (key item)) ((S.path p).length + 1))
    (hnew : ∀ a l, h.lists a = some l → sameField0 (key item) l.value = false) :
    ∃ h', h.newList p i ((S.chain p i).getLastD 0) (key item) item = some h' ∧
      Rep key h' root (S.setChain p i (S.chain p i ++ [h.fresh])) 0 ∧
      h'.stored = item ::ₘ h.stored ∧
      ∃ t', h'.tables p = some t' ∧ t'.isSubhash i = false := by
  obtain ⟨last, hlast⟩ : ∃ last, last = (S.chain p i).getLastD 0 := ⟨_, rfl⟩
  have hslot := (R.tables p t ht).slot i hi
  have halloc := R.getLastD_chain ht hi
  have hfc := R.fresh_notMem ht hi
  have htable := rechained_append R ht hi hb
  rw [← hlast] at halloc htable ⊢
  have hlf : last ≠ h.fresh := by
    intro heq
    obtain ⟨l, hl, -⟩ := halloc (heq ▸ R.fresh_ne_zero)
    rw [heq, R.lists_fresh] at hl
    cases hl
  have hnodup : (S.chain p i ++ [h.fresh]).Nodup := by
    rw [← List.concat_eq_append]
    exact hslot.nodup.concat hfc
  have hlistf : (appended h p i t last (key item) item).lists h.fresh =
      some ⟨[item], key item, p, i, last, 0⟩ := if_pos rfl
  refine ⟨appended h p i t last (key item) item,
    newList_eq ht (fun hne => (halloc hne).imp fun _ hl => hl.1) hlf R.lists_zero _ _, ?_,
    appended_stored R, _, Function.update_self .., ?_⟩
  swap
  · rw [htable, rechained_isSubhash, hb]
  refine R.rechain ht hi hb (congrArg (fun t' => Function.update h.tables p (some t')) htable)
    (Nat.le_succ _) ?_ ?_ ?_ ?_ ?_ ?_ ?_ ?_ (Or.inl rfl) ?_
  · intro a l hl
    rcases appended_lists_cases hl with ⟨rfl, -⟩ | ⟨-, l, hl, -⟩
    · exact Nat.lt_succ_self _
    · exact Nat.lt_succ_of_lt (R.fresh_lists a l hl)
  · simp [appended, R.fresh_ne_zero.symm, R.lists_zero]
  · intro a l hl hdiff
    have hne : a ≠ h.fresh := by
      rintro rfl
      rw [R.lists_fresh] at hl
      cases hl
    have hal : a ≠ last := by
      rintro rfl
      obtain ⟨l', hl', hp, hidx⟩ := halloc (R.ne_zero_of_list hl)
      rw [hl, Option.some.injEq] at hl'
      subst hl'
      rcases hdiff with hdiff | hdiff
      · exact hdiff hp
      · exact hdiff hidx
    rw [appended_lists_of_ne hne hl, if_neg hal]
  · intro a l' hl'
    rcases appended_lists_cases hl' with ⟨rfl, -⟩ | ⟨hne, l, hl, rfl⟩
    · exact Or.inl (by simp)
    · by_cases hin : l.parent = p ∧ l.idx = i
      · obtain ⟨rfl, rfl⟩ := hin
        exact Or.inl (List.mem_append_left _ (R.lists a l hl).mem)
      · have hal : a ≠ last := by
          rintro rfl
          obtain ⟨m, hm, hp, hidx⟩ := halloc (R.ne_zero_of_list hl)
          rw [hl, Option.some.injEq] at hm
          subst hm
          exact hin ⟨hp, hidx⟩
        rw [if_neg hal]
        exact Or.inr ⟨hl, not_and_or.mp hin⟩
  · exact hnodup
  · have hseg : Linked.Seg (Function.update h.links h.fresh (some (last, 0))) 0 (S.chain p i)
        0 := by
      refine Linked.seg_congr ?_ (hslot.chain hb).2
      intro a ha
      have hne : a ≠ h.fresh := fun heq => hfc (heq ▸ ha)
      exact Function.update_of_ne hne ..
    have hone : Linked.Seg (Function.update h.links h.fresh (some (last, 0))) last [h.fresh] 0 :=
      ⟨Function.update_self .., trivial⟩
    have h0 : 0 ∉ S.chain p i ++ [h.fresh] := by
      simp [R.zero_notMem_chain ht hi, R.fresh_ne_zero.symm]
    have hjoin := Linked.seg_join hnodup h0 hseg hone
    rw [← hlast] at hjoin
    rw [appended_links hlf]
    exact hjoin
  · intro a ha
    rcases List.mem_append.mp ha with ha | ha
    · obtain ⟨l, hl, rfl, rfl⟩ := hslot.own a ha
      have hne : a ≠ h.fresh := fun heq => hfc (heq ▸ ha)
      refine ⟨_, appended_lists_of_ne hne hl, ?_⟩
      obtain ⟨-, -, hnonempty, hkeys, hpl⟩ := (R.lists a l hl).member
      split
      · exact ⟨rfl, rfl, hnonempty, hkeys, hpl⟩
      · exact ⟨rfl, rfl, hnonempty, hkeys, hpl⟩
    · rw [List.mem_singleton.mp ha]
      exact ⟨_, hlistf, rfl, rfl, by simp, by simp, hplace⟩
  · intro a b l m hl hm hsame
    rcases appended_lists_cases hl with ⟨rfl, rfl⟩ | ⟨-, l, hl₀, rfl⟩
    · rcases appended_lists_cases hm with ⟨rfl, -⟩ | ⟨-, m, hm₀, rfl⟩
      · rfl
      · have hno := hnew b m hm₀
        rw [apply_ite HashTableList.value] at hsame
        simp [hno] at hsame
    · rcases appended_lists_cases hm with ⟨rfl, rfl⟩ | ⟨-, m, hm₀, rfl⟩
      · have hno := hnew a l hl₀
        rw [apply_ite HashTableList.value] at hsame
        have hsame' := sameField0_symm hsame
        simp [hno] at hsame'
      · rw [apply_ite HashTableList.value, apply_ite HashTableList.value] at hsame
        simp only [ite_self] at hsame
        exact R.distinct a b l m hl₀ hm₀ hsame
  · intro _ _
    left
    have hsum := S.held_setChain p hi (S.chain p i ++ [h.fresh])
    rw [List.length_append, List.length_singleton] at hsum
    omega

/-! ## Splitting a chain -/

/-- The heap after one list is moved to the front of slot `index` of the sub-table. -/
def movedHeap (h : Heap α) (sub : Ptr) (s : SubhashTable) (bucket : Ptr) (l : HashTableList α)
    (index : ℕ) : Heap α where
  tables := Function.update h.tables sub (some (s.set index bucket))
  lists := fun x =>
    if x = bucket then some { l with parent := sub, idx := index, prev := 0, next := s.get index }
    else (h.lists x).map fun m => if x = s.get index then { m with prev := bucket } else m
  fresh := h.fresh

theorem moveBucket_eq {sub bucket : Ptr} {s : SubhashTable} {l : HashTableList α} {level : ℕ}
    (hl : h.lists bucket = some l) (hs : h.tables sub = some s) (h0 : h.lists 0 = none)
    (hfirst : s.get (slotAt (hashField l.value) (level + 1)) ≠ 0 →
      ∃ m, h.lists (s.get (slotAt (hashField l.value) (level + 1))) = some m)
    (hne : s.get (slotAt (hashField l.value) (level + 1)) ≠ bucket) :
    h.moveBucket sub level bucket =
      some (movedHeap h sub s bucket l (slotAt (hashField l.value) (level + 1))) := by
  have hindex : modHash ((hashField l.value >>> ((level + 1) * subhashShift)) &&& subhashMask) =
      slotAt (hashField l.value) (level + 1) := rfl
  unfold Heap.moveBucket
  generalize slotAt (hashField l.value) (level + 1) = index at hfirst hne hindex ⊢
  simp only [Heap.writeList, hl, Option.map_some, Option.bind_eq_bind, Option.bind_some, hs,
    hindex]
  by_cases hf : s.get index = 0
  · simp only [hf, ne_eq, not_true_eq_false, if_false, Option.bind_some, Function.update_self,
      Option.map_some, Heap.writeTable, hs, movedHeap]
    congr 2
    funext x
    by_cases hx : x = bucket
    · simp [hx]
    · by_cases hx0 : x = 0
      · subst hx0
        simp [hx, h0]
      · simp [hx, hx0]
  · obtain ⟨m, hm⟩ := hfirst hf
    simp only [hf, ne_eq, not_false_eq_true, if_true, Function.update_of_ne hne, hm,
      Option.map_some, Option.bind_some, Function.update_of_ne hne.symm, Function.update_self,
      Heap.writeTable, hs, movedHeap]
    congr 2
    funext x
    by_cases hx : x = bucket
    · simp [hx]
    · by_cases hxf : x = s.get index
      · subst hxf
        simp [hx, hm]
      · simp [hx, hxf]

/-- The links after a list is moved to the front of a chain that starts at `first`. -/
theorem movedHeap_links {sub bucket : Ptr} {s : SubhashTable} {l : HashTableList α} {index : ℕ}
    (hne : s.get index ≠ bucket) :
    (movedHeap h sub s bucket l index).links =
      Linked.join (Function.update h.links bucket (some (0, s.get index))) bucket
        (s.get index) := by
  funext x
  by_cases hx : x = bucket
  · subst hx
    simp [Heap.links, movedHeap, Linked.join, hne.symm]
  · cases hl : h.lists x with
    | none => simp [Heap.links, movedHeap, Linked.join, hx, hl]
    | some m =>
      by_cases hxf : x = s.get index
      · subst hxf
        simp [Heap.links, movedHeap, Linked.join, hx, hl]
      · simp [Heap.links, movedHeap, Linked.join, hx, hl, hxf]

theorem movedHeap_lists_of_ne {sub bucket x : Ptr} {s : SubhashTable} {l : HashTableList α}
    {index : ℕ} (hx : x ≠ bucket) (hxf : x ≠ s.get index) :
    (movedHeap h sub s bucket l index).lists x = h.lists x := by
  simp [movedHeap, hx, hxf]

theorem movedHeap_links_of_ne {sub bucket x : Ptr} {s : SubhashTable} {l : HashTableList α}
    {index : ℕ} (hx : x ≠ bucket) (hxf : x ≠ s.get index) :
    (movedHeap h sub s bucket l index).links x = h.links x := by
  simp only [Heap.links, movedHeap_lists_of_ne hx hxf]

/-- The chains after a list is put in front of one of them. -/
theorem mem_update_cons {cs : ℕ → List Ptr} {index j : ℕ} {a bucket : Ptr} :
    a ∈ Function.update cs index (bucket :: cs index) j ↔ a = bucket ∧ j = index ∨ a ∈ cs j := by
  by_cases hj : j = index
  · subst hj
    simp
  · simp [hj]

/-- The state of the loop that splits a chain of slot `i` of table `p`: the lists `rest` are still
to be moved, and the chains of the sub-table are `cs`.  `h₀` is the heap before the loop. -/
structure Gathered (h₀ h : Heap α) (p i : ℕ) (sub : Ptr) (level : ℕ) (rest : List Ptr)
    (cs : ℕ → List Ptr) : Prop where
  tables : ∀ q, q ≠ sub → h.tables q = h₀.tables q
  fresh : h.fresh = h₀.fresh
  table : ∃ s, h.tables sub = some s ∧ s.parent = p ∧ s.bitmap = Bitmap.create 1 ∧
    s.uniqueSubs = 0 ∧ ∀ j, s.get j = (cs j).headD 0
  seg : ∀ j, Linked.Seg h.links 0 (cs j) 0
  seg_rest : ∃ prv, Linked.Seg h.links prv rest 0
  nodup : ∀ j, (cs j).Nodup
  nodup_rest : rest.Nodup
  moved : ∀ j, ∀ a ∈ cs j, a ∉ rest ∧ ∃ l l', h₀.lists a = some l ∧ l.parent = p ∧ l.idx = i ∧
    h.lists a = some l' ∧ l'.list = l.list ∧ l'.value = l.value ∧ l'.parent = sub ∧ l'.idx = j ∧
    j = slotAt (hashField l.value) (level + 1)
  unmoved : ∀ a, (∀ j, a ∉ cs j) → h.lists a = h₀.lists a
  own_rest : ∀ a ∈ rest, ∃ l, h₀.lists a = some l ∧ l.parent = p ∧ l.idx = i

namespace Gathered

variable {h₀ : Heap α} {p i level : ℕ} {sub bucket : Ptr} {rest : List Ptr} {cs : ℕ → List Ptr}

theorem slot_eq (G : Gathered h₀ h p i sub level rest cs) {j k : ℕ} {a : Ptr} (hj : a ∈ cs j)
    (hk : a ∈ cs k) : j = k := by
  obtain ⟨-, l, l', hl, -, -, -, -, -, -, -, hslot⟩ := G.moved j a hj
  obtain ⟨-, m, m', hm, -, -, -, -, -, -, -, hslot'⟩ := G.moved k a hk
  rw [hl, Option.some.injEq] at hm
  subst hm
  rw [hslot, hslot']

theorem lists_zero (G : Gathered h₀ h p i sub level rest cs) (h0 : h₀.lists 0 = none) :
    h.lists 0 = none := by
  by_cases hc : ∃ j, 0 ∈ cs j
  · obtain ⟨j, hj⟩ := hc
    obtain ⟨-, l, -, hl, -⟩ := G.moved j 0 hj
    rw [h0] at hl
    cases hl
  · rw [G.unmoved 0 (not_exists.mp hc), h0]

/-- No list of the loop is at the null address. -/
theorem ne_zero_of_moved (G : Gathered h₀ h p i sub level rest cs) (h0 : h₀.lists 0 = none)
    {j : ℕ} {a : Ptr} (ha : a ∈ cs j) : a ≠ 0 := by
  rintro rfl
  obtain ⟨-, l, -, hl, -⟩ := G.moved j 0 ha
  rw [h0] at hl
  cases hl

theorem ne_zero_of_rest (G : Gathered h₀ h p i sub level rest cs) (h0 : h₀.lists 0 = none)
    {a : Ptr} (ha : a ∈ rest) : a ≠ 0 := by
  rintro rfl
  obtain ⟨l, hl, -⟩ := G.own_rest 0 ha
  rw [h0] at hl
  cases hl

/-- A list that is still to be moved is in no chain of the sub-table. -/
theorem notMem_of_rest (G : Gathered h₀ h p i sub level rest cs) {a : Ptr} (ha : a ∈ rest)
    (j : ℕ) : a ∉ cs j :=
  fun hmem => (G.moved j a hmem).1 ha

/-- The first list of a slot of the sub-table is in its chain. -/
theorem get_mem (G : Gathered h₀ h p i sub level rest cs) {s : SubhashTable}
    (hs : h.tables sub = some s) {j : ℕ} (hne : s.get j ≠ 0) : s.get j ∈ cs j := by
  obtain ⟨s', hs', -, -, -, hget⟩ := G.table
  obtain rfl := Option.some.inj (hs'.symm.trans hs)
  rw [hget] at hne ⊢
  refine Linked.headD_mem ?_
  intro hnil
  exact hne (by rw [hnil]; rfl)

/-- It is not a list that is still to be moved. -/
theorem ne_get_of_rest (G : Gathered h₀ h p i sub level rest cs) (h0 : h₀.lists 0 = none)
    {s : SubhashTable} (hs : h.tables sub = some s) {a : Ptr} (ha : a ∈ rest) (j : ℕ) :
    a ≠ s.get j := by
  rintro rfl
  exact G.notMem_of_rest ha j (G.get_mem hs (G.ne_zero_of_rest h0 ha))

/-- The chain of the slot after the list is put in front of it. -/
theorem seg_cons (G : Gathered h₀ h p i sub level (bucket :: rest) cs) (h0 : h₀.lists 0 = none)
    {s : SubhashTable} (hs : h.tables sub = some s) (l : HashTableList α) (j : ℕ) :
    Linked.Seg (movedHeap h sub s bucket l j).links 0 (bucket :: cs j) 0 := by
  have hnotin := G.notMem_of_rest List.mem_cons_self j
  rw [movedHeap_links (G.ne_get_of_rest h0 hs List.mem_cons_self j).symm]
  have hone : Linked.Seg (Function.update h.links bucket (some (0, s.get j))) 0 [bucket]
      (s.get j) := ⟨Function.update_self .., trivial⟩
  have hseg : Linked.Seg (Function.update h.links bucket (some (0, s.get j))) 0 (cs j) 0 := by
    refine Linked.seg_congr ?_ (G.seg j)
    intro a ha
    have hab : a ≠ bucket := fun heq => hnotin (heq ▸ ha)
    exact Function.update_of_ne hab ..
  have hnodup : ([bucket] ++ cs j).Nodup := List.nodup_cons.mpr ⟨hnotin, G.nodup j⟩
  have h0c : 0 ∉ [bucket] ++ cs j := by
    intro hmem
    rcases List.mem_cons.mp hmem with heq | hmem
    · exact G.ne_zero_of_rest h0 List.mem_cons_self heq.symm
    · exact G.ne_zero_of_moved h0 hmem rfl
  have hjoin := Linked.seg_join hnodup h0c hone hseg
  obtain ⟨s', hs', -, -, -, hget⟩ := G.table
  obtain rfl := Option.some.inj (hs'.symm.trans hs)
  rw [← hget] at hjoin
  exact hjoin

/-- **One step of the loop**: the next list goes to the front of its slot. -/
theorem step (G : Gathered h₀ h p i sub level (bucket :: rest) cs) (h0 : h₀.lists 0 = none) :
    ∃ l h', h.lists bucket = some l ∧ l.next = rest.headD 0 ∧
      h.moveBucket sub level bucket = some h' ∧
      Gathered h₀ h' p i sub level rest
        (Function.update cs (slotAt (hashField l.value) (level + 1))
          (bucket :: cs (slotAt (hashField l.value) (level + 1)))) := by
  have hnd := List.nodup_cons.mp G.nodup_rest
  have hnotin := G.notMem_of_rest List.mem_cons_self
  obtain ⟨l, hl₀, hlp, hli⟩ := G.own_rest bucket List.mem_cons_self
  have hl : h.lists bucket = some l := by rw [G.unmoved bucket hnotin, hl₀]
  obtain ⟨s, hs, hsp, hsb, hsu, hget⟩ := G.table
  obtain ⟨prv, hlink, hrest⟩ := G.seg_rest
  have hnext : l.next = rest.headD 0 := by
    simp only [Heap.links, hl, Option.map_some, Option.some.injEq, Prod.mk.injEq] at hlink
    exact hlink.2
  set index := slotAt (hashField l.value) (level + 1) with hindex
  have hne : s.get index ≠ bucket := (G.ne_get_of_rest h0 hs List.mem_cons_self index).symm
  have hmove : h.moveBucket sub level bucket = some (movedHeap h sub s bucket l index) := by
    refine moveBucket_eq hl hs (G.lists_zero h0) ?_ hne
    intro hne'
    obtain ⟨-, m, m', -, -, -, hm', -⟩ := G.moved index _ (G.get_mem hs hne')
    exact ⟨m', hm'⟩
  refine ⟨l, _, hl, hnext, hmove, ?_⟩
  constructor
  case tables =>
    intro q hq
    rw [← G.tables q hq]
    exact Function.update_of_ne hq ..
  case fresh => exact G.fresh
  case table =>
    refine ⟨s.set index bucket, Function.update_self .., hsp, hsb, hsu, ?_⟩
    intro j
    by_cases hj : j = index
    · rw [hj, get_set_self, Function.update_self, List.headD_cons]
    · rw [get_set_of_ne _ _ hj, Function.update_of_ne hj, hget]
  case seg =>
    intro j
    by_cases hj : j = index
    · rw [hj, Function.update_self]
      exact G.seg_cons h0 hs l index
    · rw [Function.update_of_ne hj]
      refine Linked.seg_congr ?_ (G.seg j)
      intro a ha
      refine movedHeap_links_of_ne (fun heq => hnotin j (heq ▸ ha)) ?_
      rintro rfl
      exact hj (G.slot_eq ha (G.get_mem hs (G.ne_zero_of_moved h0 ha)))
  case seg_rest =>
    refine ⟨bucket, Linked.seg_congr ?_ hrest⟩
    intro a ha
    exact movedHeap_links_of_ne (fun heq => hnd.1 (heq ▸ ha))
      (G.ne_get_of_rest h0 hs (List.mem_cons_of_mem bucket ha) index)
  case nodup =>
    intro j
    by_cases hj : j = index
    · rw [hj, Function.update_self]
      exact List.nodup_cons.mpr ⟨hnotin index, G.nodup index⟩
    · rw [Function.update_of_ne hj]
      exact G.nodup j
  case nodup_rest => exact hnd.2
  case moved =>
    intro j a ha
    obtain ⟨rfl, hj⟩ | ha := mem_update_cons.mp ha
    · exact ⟨hnd.1, l, _, hl₀, hlp, hli, if_pos rfl, rfl, rfl, rfl, hj.symm, hj⟩
    · have hab : a ≠ bucket := fun heq => hnotin j (heq ▸ ha)
      obtain ⟨hnr, m, m', hm, hmp, hmi, hm', hrest'⟩ := G.moved j a ha
      refine ⟨fun hmem => hnr (List.mem_cons_of_mem bucket hmem), m,
        if a = s.get index then { m' with prev := bucket } else m', hm, hmp, hmi, ?_, ?_⟩
      · simp [movedHeap, hab, hm']
      · split <;> exact hrest'
  case unmoved =>
    intro a ha
    have hab : a ≠ bucket := fun heq => ha index (mem_update_cons.mpr (Or.inl ⟨heq, rfl⟩))
    have hacs : ∀ j, a ∉ cs j := fun j hmem => ha j (mem_update_cons.mpr (Or.inr hmem))
    by_cases haf : a = s.get index
    · have ha0 : a = 0 := by
        by_contra ha0
        exact hacs index (haf ▸ G.get_mem hs (haf ▸ ha0))
      subst ha0
      simp [movedHeap, hab, G.lists_zero h0, h0]
    · rw [movedHeap_lists_of_ne hab haf, G.unmoved a hacs]
  case own_rest =>
    intro a ha
    exact G.own_rest a (List.mem_cons_of_mem bucket ha)

theorem moveBuckets_succ {h₁ : Heap α} {l : HashTableList α} {fuel total : ℕ}
    (hb : bucket ≠ 0) (hl : h.lists bucket = some l)
    (hmove : h.moveBucket sub level bucket = some h₁) :
    Heap.moveBuckets sub level (fuel + 1) h bucket total =
      Heap.moveBuckets sub level fuel h₁ l.next (total + 1) := by
  simp only [Heap.moveBuckets, if_neg hb, hl, hmove, Option.bind_eq_bind, Option.bind_some]

/-- **The whole loop**: all lists of the chain end up in the slots of the sub-table. -/
theorem run (G : Gathered h₀ h p i sub level rest cs) (h0 : h₀.lists 0 = none) {fuel : ℕ}
    (hfuel : rest.length ≤ fuel) (total : ℕ) :
    ∃ h' cs', Heap.moveBuckets sub level fuel h (rest.headD 0) total =
        some (h', total + rest.length) ∧
      Gathered h₀ h' p i sub level [] cs' ∧
      (∀ a, (∃ j, a ∈ cs' j) ↔ a ∈ rest ∨ ∃ j, a ∈ cs j) ∧
      ∑ j ∈ Finset.range prime, (cs' j).length =
        ∑ j ∈ Finset.range prime, (cs j).length + rest.length := by
  induction rest generalizing h cs fuel total with
  | nil =>
    refine ⟨h, cs, ?_, G, by simp, by simp⟩
    cases fuel <;> rfl
  | cons bucket rest ih =>
    obtain ⟨l, h₁, hl, hnext, hmove, G₁⟩ := G.step h0
    have hlt := slotAt_lt (hashField l.value) (level + 1)
    generalize slotAt (hashField l.value) (level + 1) = index at G₁ hlt
    cases fuel with
    | zero => simp at hfuel
    | succ fuel =>
      have hle : rest.length ≤ fuel := by simpa using hfuel
      obtain ⟨h', cs', hrun, G', hmem, hsum⟩ := ih G₁ hle (total + 1)
      have hb0 : bucket ≠ 0 := G.ne_zero_of_rest h0 List.mem_cons_self
      refine ⟨h', cs', ?_, G', ?_, ?_⟩
      · rw [List.headD_cons, moveBuckets_succ hb0 hl hmove, hnext, hrun, List.length_cons,
          Nat.add_assoc, Nat.add_comm 1]
      · intro a
        rw [hmem]
        constructor
        · rintro (ha | ⟨j, hj⟩)
          · exact Or.inl (List.mem_cons_of_mem bucket ha)
          · obtain ⟨rfl, -⟩ | hj := mem_update_cons.mp hj
            · exact Or.inl List.mem_cons_self
            · exact Or.inr ⟨j, hj⟩
        · rintro (ha | ⟨j, hj⟩)
          · rcases List.mem_cons.mp ha with rfl | ha
            · exact Or.inr ⟨index, mem_update_cons.mpr (Or.inl ⟨rfl, rfl⟩)⟩
            · exact Or.inl ha
          · exact Or.inr ⟨j, mem_update_cons.mpr (Or.inr hj)⟩
      · rw [hsum]
        have hslot : index ∈ Finset.range prime := Finset.mem_range.mpr hlt
        rw [← Finset.add_sum_erase _ _ hslot,
          ← Finset.add_sum_erase _ (fun j => (cs j).length) hslot, Function.update_self]
        have hrest : ∑ j ∈ (Finset.range prime).erase index,
            (Function.update cs index (bucket :: cs index) j).length =
            ∑ j ∈ (Finset.range prime).erase index, (cs j).length := by
          refine Finset.sum_congr rfl fun j hj => ?_
          rw [Function.update_of_ne (Finset.ne_of_mem_erase hj)]
        rw [hrest, List.length_cons, List.length_cons]
        omega

end Gathered

/-! ## The sub-table in place -/

/-- A shape with a new table at `sub`. -/
def Shape.addTable (S : Shape) (sub : Ptr) (path : List ℕ) (cs : ℕ → List Ptr) : Shape where
  path := Function.update S.path sub path
  chain := Function.update S.chain sub cs

section AddTable

variable {sub q : Ptr} {path : List ℕ} {cs : ℕ → List Ptr}

@[simp] theorem path_addTable_self : (S.addTable sub path cs).path sub = path := by
  simp [Shape.addTable]

@[simp] theorem chain_addTable_self : (S.addTable sub path cs).chain sub = cs := by
  simp [Shape.addTable]

theorem path_addTable_of_ne (hq : q ≠ sub) : (S.addTable sub path cs).path q = S.path q := by
  simp [Shape.addTable, hq]

theorem chain_addTable_of_ne (hq : q ≠ sub) : (S.addTable sub path cs).chain q = S.chain q := by
  simp [Shape.addTable, hq]

theorem held_addTable_of_ne (hq : q ≠ sub) : (S.addTable sub path cs).held q = S.held q := by
  simp only [Shape.held, chain_addTable_of_ne hq]

end AddTable

/-- Setting the bit of a slot that had a chain makes it one sub-table more. -/
theorem subs_setBit {t t' : SubhashTable} {i : ℕ} (hi : i < prime) (hb : t.isSubhash i = false)
    (hbits : ∀ j, t'.isSubhash j = (decide (i = j) || t.isSubhash j)) : subs t' = subs t + 1 := by
  have hfilter : (Finset.range prime).filter (fun j => t'.isSubhash j = true) =
      insert i ((Finset.range prime).filter fun j => t.isSubhash j = true) := by
    ext j
    rw [Finset.mem_insert, Finset.mem_filter, Finset.mem_filter, hbits]
    by_cases hj : i = j
    · subst hj
      simp [hi]
    · simp [hj, Ne.symm hj]
  have hnot : i ∉ (Finset.range prime).filter fun j => t.isSubhash j = true := by
    simp [hb]
  rw [subs, hfilter, Finset.card_insert_of_notMem hnot, subs]

/-- The table with slot `i` given to the sub-table at `sub`, which took `n` of its lists. -/
def splitTable (t : SubhashTable) (i : ℕ) (sub : Ptr) (n : ℕ) : SubhashTable :=
  { t.set i sub with
    bitmap := t.bitmap.setBit i
    uniqueLists := t.uniqueLists - UInt16.ofNat n
    uniqueSubs := t.uniqueSubs + 1 }

/-- The sub-table with its count and its index in the parent. -/
def subTable (s : SubhashTable) (i n : ℕ) : SubhashTable :=
  { s.set lastSlot i with uniqueLists := UInt16.ofNat n }

/-- What `split` leaves once the lists are moved. -/
theorem split_eq {p i level : ℕ} {t s : SubhashTable} {h₂ : Heap α} {n : ℕ}
    (ht : h.tables p = some t) (hp : p ≠ h.fresh)
    (hrun : Heap.moveBuckets h.fresh level (h.fresh + 1) (h.allocTable (SubhashTable.setup p))
      (t.get i) 0 = some (h₂, n))
    (hp₂ : h₂.tables p = some t) (hs : h₂.tables h.fresh = some s) :
    h.split p i level = some { h₂ with
      tables := Function.update (Function.update h₂.tables h.fresh (some (subTable s i n))) p
        (some (splitTable t i h.fresh n)) } := by
  have ht₁ : (h.allocTable (SubhashTable.setup p)).tables p = some t := by
    simp [Heap.allocTable, hp, ht]
  have hfr : (h.allocTable (SubhashTable.setup p)).fresh = h.fresh + 1 := rfl
  unfold Heap.split
  simp only [ht₁, hfr, hrun, Option.bind_eq_bind, Option.bind_some, Heap.writeTable, hs, hp₂,
    Option.map_some, Function.update_of_ne hp, Function.update_of_ne hp.symm,
    Function.update_self, Heap.setSubhash]
  congr 2
  funext q
  by_cases hq : q = p
  · subst hq
    simp [splitTable, SubhashTable.set]
  · by_cases hqs : q = h.fresh
    · subst hqs
      simp [hq, subTable, SubhashTable.set, lastSlot]
    · simp [hq, hqs]

section SplitTable

variable (t s : SubhashTable) (i : ℕ) (sub : Ptr) (n : ℕ)

@[simp] theorem splitTable_parent : (splitTable t i sub n).parent = t.parent := rfl

@[simp] theorem splitTable_get_self : (splitTable t i sub n).get i = sub := get_set_self t i sub

theorem splitTable_get_of_ne {j : ℕ} (hj : j ≠ i) : (splitTable t i sub n).get j = t.get j :=
  get_set_of_ne t sub hj

theorem splitTable_isSubhash (hcap : t.bitmap.capacity = 64) (hi : i < prime) (j : ℕ) :
    (splitTable t i sub n).isSubhash j = (decide (i = j) || t.isSubhash j) := by
  refine Bitmap.getBit_setBit ?_ j
  rw [hcap]
  exact lt_trans hi (by decide)

@[simp] theorem subTable_parent : (subTable s i n).parent = s.parent := rfl

@[simp] theorem subTable_get_lastSlot : (subTable s i n).get lastSlot = i :=
  get_set_self s lastSlot i

theorem subTable_get {j : ℕ} (hj : j < prime) : (subTable s i n).get j = s.get j :=
  get_set_of_ne s i (ne_lastSlot hj)

end SplitTable

/-- The loop that splits a chain runs to its end. -/
theorem Rep.gather (R : Rep key h root S 0) {p i : ℕ} {t : SubhashTable}
    (ht : h.tables p = some t) (hi : i < prime) (hb : t.isSubhash i = false) (level : ℕ) :
    ∃ h₂ cs, Heap.moveBuckets h.fresh level (h.fresh + 1) (h.allocTable (SubhashTable.setup p))
        (t.get i) 0 = some (h₂, (S.chain p i).length) ∧
      Gathered (h.allocTable (SubhashTable.setup p)) h₂ p i h.fresh level [] cs ∧
      (∀ a, (∃ j, a ∈ cs j) ↔ a ∈ S.chain p i) ∧
      ∑ j ∈ Finset.range prime, (cs j).length = (S.chain p i).length := by
  have hslot := (R.tables p t ht).slot i hi
  obtain ⟨hget, hseg⟩ := hslot.chain hb
  have G : Gathered (h.allocTable (SubhashTable.setup p)) (h.allocTable (SubhashTable.setup p)) p
      i h.fresh level (S.chain p i) fun _ => [] := by
    constructor
    case tables => exact fun _ _ => rfl
    case fresh => rfl
    case table =>
      exact ⟨SubhashTable.setup p, Function.update_self .., rfl, rfl, rfl, fun _ => rfl⟩
    case seg => exact fun _ => trivial
    case seg_rest => exact ⟨0, hseg⟩
    case nodup => exact fun _ => List.nodup_nil
    case nodup_rest => exact hslot.nodup
    case moved => exact fun _ _ ha => absurd ha List.not_mem_nil
    case unmoved => exact fun _ _ => rfl
    case own_rest => exact hslot.own
  have hfuel : (S.chain p i).length ≤ h.fresh + 1 :=
    (R.length_chain_le ht hi).trans (Nat.le_succ _)
  obtain ⟨h₂, cs, hrun, G', hmem, hsum⟩ := G.run R.lists_zero hfuel 0
  rw [← hget, Nat.zero_add] at hrun
  refine ⟨h₂, cs, hrun, G', ?_, ?_⟩
  · intro a
    simp [hmem a]
  · simpa using hsum

/-- The shape after slot `i` of table `p` is given to a new table at `sub` with the chains `cs`. -/
def Shape.subdivide (S : Shape) (p i : ℕ) (sub : Ptr) (cs : ℕ → List Ptr) : Shape :=
  (S.setChain p i []).addTable sub (S.path p ++ [i]) cs

section SubdivideShape

variable {p i : ℕ} {sub q : Ptr} {cs : ℕ → List Ptr}

@[simp] theorem path_subdivide_self : (S.subdivide p i sub cs).path sub = S.path p ++ [i] :=
  path_addTable_self

@[simp] theorem chain_subdivide_self : (S.subdivide p i sub cs).chain sub = cs :=
  chain_addTable_self

theorem path_subdivide_of_ne (hq : q ≠ sub) : (S.subdivide p i sub cs).path q = S.path q :=
  path_addTable_of_ne hq

theorem chain_subdivide_of_ne (hq : q ≠ sub) {j : ℕ} (hj : q ≠ p ∨ j ≠ i) :
    (S.subdivide p i sub cs).chain q j = S.chain q j := by
  rw [Shape.subdivide, chain_addTable_of_ne hq, S.chain_setChain_of_ne [] hj]

theorem chain_subdivide_nil (hp : p ≠ sub) : (S.subdivide p i sub cs).chain p i = [] := by
  rw [Shape.subdivide, chain_addTable_of_ne hp, Shape.chain_setChain_self]

theorem held_subdivide_self :
    (S.subdivide p i sub cs).held sub = ∑ j ∈ Finset.range prime, (cs j).length := by
  rw [Shape.held, chain_subdivide_self]

theorem held_subdivide_of_ne (hq : q ≠ sub) (hqp : q ≠ p) :
    (S.subdivide p i sub cs).held q = S.held q := by
  rw [Shape.subdivide, held_addTable_of_ne hq, S.held_setChain_of_ne i [] hqp]

/-- The lists of the slot are no longer lists of the table. -/
theorem held_subdivide_add (hp : p ≠ sub) (hi : i < prime) :
    (S.subdivide p i sub cs).held p + (S.chain p i).length = S.held p := by
  rw [Shape.subdivide, held_addTable_of_ne hp]
  simpa using S.held_setChain p hi []

end SubdivideShape

/-- Slot `i` of table `p` is given to a new table, whose chains `cs` hold the lists the slot had.
The new table is `s` but for its count and its index in the parent. -/
structure Subdivided (h h' : Heap α) (S : Shape) (p i : ℕ) (t s : SubhashTable)
    (cs : ℕ → List Ptr) : Prop where
  tables : h'.tables = Function.update (Function.update h.tables h.fresh
    (some (subTable s i (S.chain p i).length))) p
    (some (splitTable t i h.fresh (S.chain p i).length))
  fresh : h'.fresh = h.fresh + 1
  parent : s.parent = p
  bitmap : s.bitmap = Bitmap.create 1
  uniqueSubs : s.uniqueSubs = 0
  get : ∀ j, s.get j = (cs j).headD 0
  seg : ∀ j, Linked.Seg h'.links 0 (cs j) 0
  nodup : ∀ j, (cs j).Nodup
  moved : ∀ j, ∀ a ∈ cs j, ∃ l l', h.lists a = some l ∧ l.parent = p ∧ l.idx = i ∧
    h'.lists a = some l' ∧ l'.list = l.list ∧ l'.value = l.value ∧ l'.parent = h.fresh ∧
    l'.idx = j ∧ j = slotAt (hashField l.value) ((S.path p).length + 1)
  kept : ∀ a, (∀ j, a ∉ cs j) → h'.lists a = h.lists a
  mem : ∀ a, (∃ j, a ∈ cs j) ↔ a ∈ S.chain p i
  sum : ∑ j ∈ Finset.range prime, (cs j).length = (S.chain p i).length

/-- The address of a new table is not that of an old one. -/
theorem Rep.ne_fresh (R : Rep key h root S e) {q : Ptr} {u : SubhashTable}
    (hu : h.tables q = some u) : q ≠ h.fresh := by
  rintro rfl
  rw [R.tables_fresh] at hu
  cases hu

namespace Subdivided

variable {h' : Heap α} {p i : ℕ} {t s : SubhashTable} {cs : ℕ → List Ptr} {n : ℕ}

theorem changed (D : Subdivided h h' S p i t s cs) (ht : h.tables p = some t) (hi : i < prime) :
    TableChanged h h' p t (splitTable t i h.fresh (S.chain p i).length) (· = h.fresh) := by
  refine ⟨ht, ?_, splitTable_parent .., ?_, ?_⟩
  · rw [D.tables, Function.update_self]
  · exact splitTable_get_of_ne t i _ _ (ne_lastSlot hi).symm
  · intro q hq hqf
    rw [D.tables, Function.update_of_ne hq, Function.update_of_ne hqf]

theorem table_fresh (D : Subdivided h h' S p i t s cs) (hp : p ≠ h.fresh) :
    h'.tables h.fresh = some (subTable s i (S.chain p i).length) := by
  rw [D.tables, Function.update_of_ne hp.symm, Function.update_self]

/-- The new table has no sub-tables. -/
theorem isSubhash_subTable (D : Subdivided h h' S p i t s cs) (j : ℕ) :
    (subTable s i n).isSubhash j = false := by
  show s.bitmap.getBit j = false
  rw [D.bitmap, Bitmap.getBit_create]

/-- The lists of other slots stay as they are. -/
theorem lists_of_ne (D : Subdivided h h' S p i t s cs) {a : Ptr} {l : HashTableList α}
    (hl : h.lists a = some l) (hdiff : l.parent ≠ p ∨ l.idx ≠ i) : h'.lists a = some l := by
  rw [D.kept a, hl]
  intro j hj
  obtain ⟨m, -, hm, hmp, hmi, -⟩ := D.moved j a hj
  rw [hl, Option.some.injEq] at hm
  subst hm
  exact hdiff.elim (fun hd => hd hmp) fun hd => hd hmi

/-- A list is one that was moved, or a list of another slot. -/
theorem lists_cases (D : Subdivided h h' S p i t s cs) (R : Rep key h root S e) {a : Ptr}
    {l' : HashTableList α} (hl' : h'.lists a = some l') :
    (∃ j, a ∈ cs j ∧ ∃ l, h.lists a = some l ∧ l.parent = p ∧ l.idx = i ∧ l'.list = l.list ∧
      l'.value = l.value ∧ l'.parent = h.fresh ∧ l'.idx = j ∧
      j = slotAt (hashField l.value) ((S.path p).length + 1)) ∨
    (h.lists a = some l' ∧ (l'.parent ≠ p ∨ l'.idx ≠ i)) := by
  by_cases hj : ∃ j, a ∈ cs j
  · obtain ⟨j, hj⟩ := hj
    obtain ⟨l, m, hl, hlp, hli, hm, hrest⟩ := D.moved j a hj
    rw [hl', Option.some.injEq] at hm
    subst hm
    exact Or.inl ⟨j, hj, l, hl, hlp, hli, hrest⟩
  · have hl := hl'
    rw [D.kept a (not_exists.mp hj)] at hl
    refine Or.inr ⟨hl, ?_⟩
    rw [← not_and_or]
    rintro ⟨rfl, rfl⟩
    exact hj ((D.mem a).mpr (R.lists a l' hl).mem)

/-- Every list was there before, with the same key. -/
theorem value_eq (D : Subdivided h h' S p i t s cs) (R : Rep key h root S e) {a : Ptr}
    {l' : HashTableList α} (hl' : h'.lists a = some l') :
    ∃ l, h.lists a = some l ∧ l'.value = l.value := by
  rcases D.lists_cases R hl' with ⟨-, -, l, hl, -, -, -, hval, -⟩ | ⟨hl, -⟩
  · exact ⟨l, hl, hval⟩
  · exact ⟨l', hl, rfl⟩

/-- The slots of the old tables, but for the one that is given away. -/
theorem slotOk (D : Subdivided h h' S p i t s cs) (R : Rep key h root S e)
    (ht : h.tables p = some t) (hi : i < prime) {q : Ptr} {u : SubhashTable}
    (hu : h.tables q = some u) {j : ℕ} (hj : j < prime) (hqj : q ≠ p ∨ j ≠ i) :
    SlotOk h' (S.subdivide p i h.fresh cs) q j (u.isSubhash j) (u.get j) := by
  have hq := R.ne_fresh hu
  refine (D.changed ht hi).slotOk R hu hj (path_subdivide_of_ne hq)
    (chain_subdivide_of_ne hq hqj) ?_ ?_
  · intro a l hl hlp hli
    exact D.lists_of_ne hl (by rw [hlp, hli]; exact hqj)
  · intro r hr _ _
    exact ⟨R.ne_fresh hr, path_subdivide_of_ne (R.ne_fresh hr)⟩

/-- The new table. -/
theorem subTable_ok (D : Subdivided h h' S p i t s cs)
    (hlevel : (S.path p).length + 1 < maxLevels) :
    TableOk h' (S.subdivide p i h.fresh cs) h.fresh (subTable s i (S.chain p i).length) := by
  constructor
  case capacity =>
    show s.bitmap.capacity = 64
    rw [D.bitmap]
    rfl
  case unused => exact fun j _ => D.isSubhash_subTable j
  case depth =>
    rw [path_subdivide_self, List.length_append, List.length_singleton]
    exact hlevel
  case slot =>
    intro j hj
    rw [D.isSubhash_subTable]
    constructor
    case nodup => rw [chain_subdivide_self]; exact D.nodup j
    case own =>
      intro a ha
      rw [chain_subdivide_self] at ha
      obtain ⟨-, l', -, -, -, hl', -, -, hpar, hidx, -⟩ := D.moved j a ha
      exact ⟨l', hl', hpar, hidx⟩
    case sub => exact fun hbit => absurd hbit (by simp)
    case chain =>
      intro _
      rw [chain_subdivide_self, subTable_get _ _ _ hj]
      exact ⟨D.get j, D.seg j⟩
  case uniqueLists =>
    rw [held_subdivide_self, D.sum]
    rfl
  case uniqueSubs =>
    have hzero : subs (subTable s i (S.chain p i).length) = 0 := by
      rw [subs, Finset.card_eq_zero, Finset.filter_eq_empty_iff]
      intro j _
      simp [D.isSubhash_subTable j]
    rw [hzero]
    exact D.uniqueSubs

/-- The table that has given the slot away. -/
theorem splitTable_ok (D : Subdivided h h' S p i t s cs) (R : Rep key h root S e)
    (ht : h.tables p = some t) (hi : i < prime) (hb : t.isSubhash i = false) :
    TableOk h' (S.subdivide p i h.fresh cs) p (splitTable t i h.fresh (S.chain p i).length) := by
  have ok := R.tables p t ht
  have hp := R.ne_fresh ht
  have hbits := splitTable_isSubhash t i h.fresh (S.chain p i).length ok.capacity hi
  constructor
  case capacity =>
    show (t.bitmap.setBit i).capacity = 64
    rw [Bitmap.capacity_setBit]
    exact ok.capacity
  case unused =>
    intro j hj
    have hij : i ≠ j := by omega
    rw [hbits, ok.unused j hj]
    simp [hij]
  case depth => rw [path_subdivide_of_ne hp]; exact ok.depth
  case slot =>
    intro j hj
    rw [hbits]
    by_cases hji : j = i
    · subst hji
      have hnil : (S.subdivide p j h.fresh cs).chain p j = [] := chain_subdivide_nil hp
      rw [splitTable_get_self]
      constructor
      case nodup => rw [hnil]; exact List.nodup_nil
      case own => rw [hnil]; exact fun a ha => absurd ha List.not_mem_nil
      case sub =>
        intro _
        refine ⟨hnil, _, D.table_fresh hp, ?_, subTable_get_lastSlot .., ?_⟩
        · rw [subTable_parent, D.parent]
        · rw [path_subdivide_of_ne hp, path_subdivide_self]
      case chain => exact fun hbit => absurd hbit (by simp)
    · rw [splitTable_get_of_ne _ _ _ _ hji, decide_eq_false (Ne.symm hji), Bool.false_or]
      exact D.slotOk R ht hi ht hj (Or.inr hji)
  case uniqueLists =>
    show t.uniqueLists - UInt16.ofNat _ = _
    rw [ok.uniqueLists, ← held_subdivide_add hp hi, UInt16.ofNat_add, UInt16.add_sub_cancel]
  case uniqueSubs =>
    rw [subs_setBit hi hb hbits, UInt16.ofNat_add, ← ok.uniqueSubs]
    rfl

/-- The lists, those that were moved and the others. -/
theorem listOk (D : Subdivided h h' S p i t s cs) (R : Rep key h root S e)
    (ht : h.tables p = some t) (hi : i < prime) {a : Ptr} {l' : HashTableList α}
    (hl' : h'.lists a = some l') : ListOk key h' (S.subdivide p i h.fresh cs) a l' := by
  rcases D.lists_cases R hl' with
    ⟨j, hj, l, hl, rfl, rfl, hlist, hval, hpar, hidx, hslot⟩ | ⟨hl, hdiff⟩
  · have okl := R.lists a l hl
    constructor
    case nonempty => rw [hlist]; exact okl.nonempty
    case keys => rw [hlist, hval]; exact okl.keys
    case table =>
      rw [hpar]
      exact ⟨_, D.table_fresh (R.ne_fresh ht), D.isSubhash_subTable _⟩
    case idx_lt => rw [hidx, hslot]; exact slotAt_lt _ _
    case mem => rw [hpar, hidx, chain_subdivide_self]; exact hj
    case place =>
      rw [hpar, hidx, path_subdivide_self, hval, List.length_append, List.length_singleton,
        slots_succ, ← okl.place, hslot]
  · have okl := R.lists a l' hl
    obtain ⟨u, hu, -⟩ := okl.table
    have hne := R.ne_fresh hu
    refine (D.changed ht hi).listOk R hl hne (path_subdivide_of_ne hne) ?_ ?_
    · rw [chain_subdivide_of_ne hne hdiff]
      exact okl.mem
    · intro hlp hbit
      have hidx : i ≠ l'.idx := (hdiff.resolve_left (not_not_intro hlp)).symm
      rw [splitTable_isSubhash _ _ _ _ (R.tables p t ht).capacity hi, hbit, decide_eq_false hidx]
      rfl

end Subdivided

/-- **A sub-table for one chain** keeps the invariant. -/
theorem Rep.subdivide (R : Rep key h root S 0) {p i : ℕ} {t s : SubhashTable}
    (ht : h.tables p = some t) (hi : i < prime) (hb : t.isSubhash i = false)
    (hlevel : (S.path p).length + 1 < maxLevels) (hne : S.chain p i ≠ []) {h' : Heap α}
    {cs : ℕ → List Ptr} (D : Subdivided h h' S p i t s cs) :
    Rep key h' root (S.subdivide p i h.fresh cs) 0 := by
  have C := D.changed ht hi
  have hpf := R.ne_fresh ht
  have hbits := splitTable_isSubhash t i h.fresh (S.chain p i).length (R.tables p t ht).capacity hi
  have hroot : root ≠ h.fresh := by
    obtain ⟨r, hr, -⟩ := R.root_table
    exact R.ne_fresh hr
  constructor
  case root_table => exact C.root_table R hroot
  case path_root => rw [path_subdivide_of_ne hroot, R.path_root]
  case tables_zero =>
    rw [C.rest 0 (R.ne_zero_of_table ht).symm R.fresh_ne_zero.symm, R.tables_zero]
  case lists_zero =>
    cases hl : h'.lists 0 with
    | none => rfl
    | some l =>
      obtain ⟨m, hm, -⟩ := D.value_eq R hl
      exact absurd rfl (R.ne_zero_of_list hm)
  case fresh_tables =>
    intro q u' hu'
    rw [D.fresh]
    by_cases hqf : q = h.fresh
    · rw [hqf]
      exact Nat.lt_succ_self _
    · obtain ⟨u, hu, -⟩ := C.of_after hu' hqf
      exact Nat.lt_succ_of_lt (R.fresh_tables q u hu)
  case fresh_lists =>
    intro a l hl
    rw [D.fresh]
    obtain ⟨m, hm, -⟩ := D.value_eq R hl
    exact Nat.lt_succ_of_lt (R.fresh_lists a m hm)
  case tables =>
    intro q u' hu'
    by_cases hqf : q = h.fresh
    · subst hqf
      obtain rfl := Option.some.inj ((D.table_fresh hpf).symm.trans hu')
      exact D.subTable_ok hlevel
    · obtain ⟨u, hu, -, -, ⟨rfl, rfl, rfl⟩ | ⟨hq, rfl⟩⟩ := C.of_after hu' hqf
      · exact D.splitTable_ok R ht hi hb
      · exact (R.tables q u' hu).frame (path_subdivide_of_ne hqf) (held_subdivide_of_ne hqf hq)
          fun j hj => D.slotOk R ht hi hu hj (Or.inl hq)
  case lists => exact fun a l' hl' => D.listOk R ht hi hl'
  case parent =>
    intro q u' hu' hroot
    by_cases hqf : q = h.fresh
    · subst hqf
      obtain rfl := Option.some.inj ((D.table_fresh hpf).symm.trans hu')
      rw [subTable_get_lastSlot, subTable_parent, D.parent]
      refine ⟨hi, _, C.after, ?_, splitTable_get_self ..⟩
      rw [hbits, decide_eq_true rfl]
      rfl
    · refine C.parent_of R (fun _ _ _ hr _ _ => R.ne_fresh hr) ?_ hu' hqf hroot
      intro j hbit hget
      have hji : j ≠ i := by
        rintro rfl
        rw [hb] at hbit
        cases hbit
      rw [hbits, hbit, Bool.or_true, splitTable_get_of_ne _ _ _ _ hji]
      exact ⟨rfl, hget⟩
  case distinct =>
    intro a b l' m' hl' hm' hsame
    obtain ⟨l, hl, hlv⟩ := D.value_eq R hl'
    obtain ⟨m, hm, hmv⟩ := D.value_eq R hm'
    rw [hlv, hmv] at hsame
    exact R.distinct a b l m hl hm hsame
  case nonempty =>
    intro q u' hu' hroot _
    by_cases hqf : q = h.fresh
    · subst hqf
      left
      rw [held_subdivide_self, D.sum]
      exact fun hzero => hne (List.length_eq_zero_iff.mp hzero)
    · obtain ⟨u, hu, -, -, ⟨rfl, rfl, rfl⟩ | ⟨hq, rfl⟩⟩ := C.of_after hu' hqf
      · right
        rw [subs_setBit hi hb hbits]
        exact Nat.succ_ne_zero _
      · rw [held_subdivide_of_ne hqf hq]
        exact R.nonempty q u' hu hroot (R.ne_zero_of_table hu)

/-- **Splitting**: a crowded chain becomes a sub-table one level below. -/
theorem split_rep (R : Rep key h root S 0) {p i : ℕ} {t : SubhashTable}
    (ht : h.tables p = some t) (hi : i < prime) (hb : t.isSubhash i = false)
    (hlevel : (S.path p).length + 1 < maxLevels) (hne : S.chain p i ≠ []) :
    ∃ h' cs, h.split p i (S.path p).length = some h' ∧
      Rep key h' root ((S.setChain p i []).addTable h.fresh (S.path p ++ [i]) cs) 0 ∧
      h'.stored = h.stored ∧
      ∑ j ∈ Finset.range prime, (cs j).length = (S.chain p i).length ∧
      ∀ j, prime ≤ j → cs j = [] := by
  obtain ⟨h₂, cs, hrun, G, hmem, hsum⟩ := R.gather ht hi hb (S.path p).length
  have hpf : p ≠ h.fresh := by
    rintro rfl
    rw [R.tables_fresh] at ht
    cases ht
  obtain ⟨s, hs, hsp, hsb, hsu, hsget⟩ := G.table
  have hp₂ : h₂.tables p = some t := by
    rw [G.tables p hpf]
    simp [Heap.allocTable, hpf, ht]
  refine ⟨_, cs, split_eq ht hpf hrun hp₂ hs, ?_, ?_, hsum, ?_⟩
  · refine R.subdivide ht hi hb hlevel hne ⟨?_, G.fresh, hsp, hsb, hsu, hsget, G.seg, G.nodup, ?_,
      G.unmoved, hmem, hsum⟩
    · funext q
      by_cases hq : q = p
      · simp [hq]
      · by_cases hqf : q = h.fresh
        · simp [hqf, hpf.symm]
        · simp only [Function.update_of_ne hq, Function.update_of_ne hqf]
          rw [G.tables q hqf]
          exact Function.update_of_ne hqf ..
    · intro j a ha
      exact (G.moved j a ha).2
  · refine Heap.stored_congr ?_ R.tuples_of_fresh ?_
    · exact (Nat.le_succ h.fresh).trans G.fresh.ge
    · intro a
      by_cases hj : ∃ j, a ∈ cs j
      · obtain ⟨j, hj⟩ := hj
        obtain ⟨-, l, l', hl, -, -, hl', hlist, -⟩ := G.moved j a hj
        have hl₀ : h.lists a = some l := hl
        rw [Heap.tuples_of_list hl₀, ← hlist]
        exact Heap.tuples_of_list hl'
      · simp only [Heap.tuples, G.unmoved a (not_exists.mp hj)]
        rfl
  · intro j hj
    refine List.eq_nil_iff_forall_not_mem.mpr fun a ha => ?_
    obtain ⟨-, l, -, -, -, -, -, -, -, -, -, hslot⟩ := G.moved j a ha
    have hlt := slotAt_lt (hashField l.value) ((S.path p).length + 1)
    omega

/-! ## The whole insertion -/

/-- The shape after a tuple is inserted: a tuple of a known key changes nothing, one of a new key
adds a list to the table where the descent ends, or to a sub-table that takes over its chain. -/
structure Grows (key : α → Value) (h : Heap α) (root : Ptr) (S S' : Shape) (item : α) : Prop where
  short : S'.Short
  held : S' = S ∨ (∀ a l, h.lists a = some l → sameField0 (key item) l.value = false) ∧
    ∃ q i level, locate h maxLevels root (hashField (key item)) 0 = some (q, i, level) ∧
      ∀ r, S'.held r ≤ S.held r ∨ S'.held r ≤ S.held q + 1

theorem insertBucket_found {p idx level : ℕ} {t : SubhashTable} {v : Value} {item : α} {a : Ptr}
    {last count : ℕ} {l : HashTableList α} (ht : h.tables p = some t)
    (hfind : h.findBucket v h.fresh (t.get idx) 0 0 = some (a, last, count)) (ha : a ≠ 0)
    (hl : h.lists a = some l) :
    h.insertBucket p idx level v item =
      some (withTuples h a l (l.list ++ [item]), l.list.length + 1) := by
  simp only [withTuples, Heap.insertBucket, ht, hfind, ha, hl, Heap.writeList, Option.bind_eq_bind,
    Option.bind_some, ne_eq, not_false_eq_true, if_true, Option.map_some]

theorem insertBucket_new {p idx level : ℕ} {t : SubhashTable} {v : Value} {item : α}
    {last count : ℕ} {h₁ : Heap α} (ht : h.tables p = some t)
    (hfind : h.findBucket v h.fresh (t.get idx) 0 0 = some (0, last, count))
    (hnew : h.newList p idx last v item = some h₁) :
    h.insertBucket p idx level v item =
      if count + 1 ≥ createHashtableThreshold ∧ level + 1 < maxLevels then
        (h₁.split p idx level).map fun h₂ => (h₂, 1)
      else some (h₁, 1) := by
  simp only [Heap.insertBucket, ht, hfind, hnew, Option.bind_eq_bind, Option.bind_some, ne_eq,
    not_true_eq_false, if_false]
  split
  · cases h₁.split p idx level <;> rfl
  · rfl

/-- Adding a list to a chain keeps the chains short, unless the chain has to be split. -/
theorem Shape.Short.append (hS : S.Short) {p i : ℕ} (a : Ptr)
    (hno : ¬((S.chain p i).length + 1 ≥ createHashtableThreshold ∧
      (S.path p).length + 1 < maxLevels)) :
    (S.setChain p i (S.chain p i ++ [a])).Short := by
  intro q j hq
  by_cases hqj : q ≠ p ∨ j ≠ i
  · rw [S.chain_setChain_of_ne _ hqj]
    exact hS q j hq
  · obtain ⟨rfl, rfl⟩ : q = p ∧ j = i := (not_or.mp hqj).imp not_not.mp not_not.mp
    rw [Shape.path_setChain] at hq
    rw [Shape.chain_setChain_self, List.length_append, List.length_singleton]
    omega

/-- A new sub-table takes over the chain of a slot and one list more. -/
theorem Shape.Short.addTable (hS : S.Short) {p i : ℕ} {sub : Ptr} {c : List Ptr}
    {cs : ℕ → List Ptr} (hlevel : (S.path p).length + 1 < maxLevels)
    (hsum : ∑ j ∈ Finset.range prime, (cs j).length = (S.chain p i).length + 1)
    (hcs : ∀ j, prime ≤ j → cs j = []) :
    (((S.setChain p i c).setChain p i []).addTable sub (S.path p ++ [i]) cs).Short := by
  intro q j hq
  by_cases hqs : q = sub
  · subst hqs
    rw [path_addTable_self, chain_addTable_self, List.length_append, List.length_singleton]
    have hlt := hS p i hlevel
    by_cases hj : j < prime
    · have hle : (cs j).length ≤ (S.chain p i).length + 1 := by
        rw [← hsum]
        exact Finset.single_le_sum (f := fun j => (cs j).length) (fun _ _ => Nat.zero_le _)
          (Finset.mem_range.mpr hj)
      omega
    · rw [hcs j (Nat.not_lt.mp hj)]
      simp [createHashtableThreshold]
  · rw [path_addTable_of_ne hqs] at hq ⊢
    rw [chain_addTable_of_ne hqs]
    by_cases hqj : q ≠ p ∨ j ≠ i
    · have hfirst := S.chain_setChain_of_ne c hqj
      have hsecond := (S.setChain p i c).chain_setChain_of_ne [] hqj
      rw [hsecond, hfirst]
      exact hS q j hq
    · obtain ⟨rfl, rfl⟩ : q = p ∧ j = i := (not_or.mp hqj).imp not_not.mp not_not.mp
      rw [Shape.chain_setChain_self]
      simp [createHashtableThreshold]

/-- The counts after a split: the new table has the lists of the chain, the others lost none. -/
theorem held_addTable_le {p i : ℕ} (hi : i < prime) {sub : Ptr} {path c : List ℕ}
    {cs : ℕ → List Ptr}
    (hsum : ∑ j ∈ Finset.range prime, (cs j).length = (S.chain p i).length + 1) (r : Ptr) :
    (((S.setChain p i c).setChain p i []).addTable sub path cs).held r ≤ S.held r ∨
      (((S.setChain p i c).setChain p i []).addTable sub path cs).held r ≤ S.held p + 1 := by
  by_cases hrs : r = sub
  · right
    have hle : (S.chain p i).length ≤ S.held p :=
      Finset.single_le_sum (f := fun j => (S.chain p j).length) (fun _ _ => Nat.zero_le _)
        (Finset.mem_range.mpr hi)
    rw [hrs, Shape.held, chain_addTable_self, hsum]
    omega
  · left
    rw [held_addTable_of_ne hrs]
    by_cases hrp : r = p
    · subst hrp
      have h₁ := (S.setChain r i c).held_setChain r hi []
      have h₂ := S.held_setChain r hi c
      rw [Shape.chain_setChain_self] at h₁
      simp only [List.length_nil] at h₁
      omega
    · rw [Shape.held_setChain_of_ne _ _ _ hrp, Shape.held_setChain_of_ne _ _ _ hrp]

/-- **Insertion keeps the invariant**, and the tuple is stored. -/
theorem insert_rep (R : Rep key h root S 0) (hS : S.Short) (item : α) :
    ∃ h' S' n, h.insert (key item) item maxLevels root (hashField (key item)) 0 = some (h', n) ∧
      Rep key h' root S' 0 ∧ Grows key h root S S' item ∧ h'.stored = item ::ₘ h.stored := by
  obtain ⟨q, t, ht, hway, hb, hloc, hfind⟩ := R.search (key item)
  rw [insert_eq_locate, hloc, Option.bind_some]
  have hplace : S.path q ++ [slotAt (hashField (key item)) (S.path q).length] =
      slots (hashField (key item)) ((S.path q).length + 1) := by
    rw [slots_succ, ← hway]
  have hi := slotAt_lt (hashField (key item)) (S.path q).length
  generalize slotAt (hashField (key item)) (S.path q).length = i at hb hloc hfind hplace hi ⊢
  obtain ⟨a, l, last, count, hl, hsame, hfind⟩ | ⟨hnone, hfind⟩ := hfind
  · -- the key has a list already
    refine ⟨_, S, _, insertBucket_found ht hfind (R.ne_zero_of_list hl) hl, ?_, ⟨hS, Or.inl rfl⟩,
      ?_⟩
    · refine setTuples_rep R hl (by simp) ?_
      intro x hx
      rcases List.mem_append.mp hx with hx | hx
      · exact (R.lists a l hl).keys x hx
      · rw [List.mem_singleton.mp hx]
        exact hsame
    · have hsum := setTuples_stored R hl (l.list ++ [item])
      rw [← Multiset.coe_add, ← add_assoc, add_right_comm] at hsum
      have hcancel := add_right_cancel hsum
      rw [hcancel, add_comm]
      rfl
  · obtain ⟨h₁, hnew, R₁, hstored₁, t₁, ht₁, hb₁⟩ := newList_rep R ht hi hb hplace hnone
    rw [insertBucket_new ht hfind hnew]
    by_cases hsplit : (S.chain q i).length + 1 ≥ createHashtableThreshold ∧
        (S.path q).length + 1 < maxLevels
    · rw [if_pos hsplit]
      have hne : (S.setChain q i (S.chain q i ++ [h.fresh])).chain q i ≠ [] := by
        rw [Shape.chain_setChain_self]
        simp
      obtain ⟨h₂, cs, hrun, R₂, hstored₂, hsum, hcs⟩ := split_rep R₁ ht₁ hi hb₁ hsplit.2 hne
      rw [Shape.chain_setChain_self, List.length_append, List.length_singleton] at hsum
      rw [Shape.path_setChain] at hrun R₂
      refine ⟨h₂, _, 1, by rw [hrun]; rfl, R₂, ⟨hS.addTable hsplit.2 hsum hcs,
        Or.inr ⟨hnone, q, i, _, hloc, held_addTable_le hi hsum⟩⟩, hstored₂.trans hstored₁⟩
    · rw [if_neg hsplit]
      refine ⟨h₁, _, 1, rfl, R₁, ⟨hS.append _ hsplit, Or.inr ⟨hnone, q, i, _, hloc, ?_⟩⟩, hstored₁⟩
      intro r
      by_cases hrq : r = q
      · right
        have hsum := S.held_setChain q hi (S.chain q i ++ [h.fresh])
        rw [List.length_append, List.length_singleton] at hsum
        rw [hrq]
        omega
      · left
        rw [S.held_setChain_of_ne _ _ hrq]

end Hash
end Meld
