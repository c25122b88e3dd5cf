import Meld.Db.HashTableInsert

/-!
# Removal from a hash table

`erase_from_list` takes one tuple out of a bucket list.  When the list is empty then, it is
unlinked and freed, and `check_empty_table` frees the tables that have become empty, from the table
of the list upwards.

* `removeList_rep`: unlinking a list keeps the invariant, except that its table may now be empty.
* `freeTable_rep`: freeing that empty table moves the exception to its parent.
* `checkEmptyTable_rep`: the upward walk removes the exception.
* `eraseFromList_rep`: the whole removal.

The walk decides that a table is empty by its two counters.  The counter of the lists has sixteen
bits, so the decision is right if a table whose counter is zero has no lists; `eraseFromList_rep`
asks this of the table of the list.
-/

namespace Meld
namespace Hash

variable {α : Type} {key : α → Value} {h : Heap α} {root e : Ptr} {S : Shape}

/-! ## Unlinking a list -/

/-- The heap after the list at `a` is unlinked and freed. -/
def removed (h : Heap α) (p a : Ptr) (l : HashTableList α) (t : SubhashTable) : Heap α where
  tables := Function.update h.tables p (some
    { (if l.prev = 0 then t.set l.idx l.next else t) with uniqueLists := t.uniqueLists - 1 })
  lists := fun x =>
    if x = a then none
    else (h.lists x).map fun m =>
      { m with
        next := if x = l.prev then l.next else m.next
        prev := if x = l.next then l.prev else m.prev }
  fresh := h.fresh

theorem removeList_eq {p a : Ptr} {l : HashTableList α} {t : SubhashTable}
    (hl : h.lists a = some l) (ht : h.tables p = some t) (h0 : h.lists 0 = none)
    (hprev : l.prev ≠ 0 → ∃ m, h.lists l.prev = some m)
    (hnext : l.next ≠ 0 → ∃ m, h.lists l.next = some m) (hne : l.prev ≠ 0 → l.prev ≠ l.next) :
    h.removeList p a = some (removed h p a l t) := by
  have hstep : ∀ x (m : HashTableList α), h.lists x = some m → x ≠ 0 := by
    rintro x m hm rfl
    rw [h0] at hm
    cases hm
  unfold Heap.removeList
  simp only [hl, Option.bind_eq_bind, Option.bind_some]
  by_cases hp0 : l.prev = 0
  · by_cases hn0 : l.next = 0
    · simp only [hp0, hn0, ne_eq, not_true_eq_false, if_false, if_true, Heap.writeTable, ht,
        Option.map_some, Option.bind_some, Heap.freeList, Function.update_self,
        Function.update_idem, removed]
      congr 2
      funext x
      by_cases hx : x = a
      · simp [hx]
      · cases hm : h.lists x with
        | none => simp [hx, hm]
        | some m => simp [hx, hm, hstep x m hm]
    · obtain ⟨n, hn⟩ := hnext hn0
      simp only [hp0, hn0, ne_eq, not_true_eq_false, not_false_eq_true, if_false, if_true,
        Heap.writeTable, Heap.writeList, ht, hn, Option.map_some, Option.bind_some,
        Heap.freeList, Function.update_self, Function.update_idem, removed]
      congr 2
      funext x
      by_cases hx : x = a
      · simp [hx]
      · by_cases hxn : x = l.next
        · subst hxn
          simp [hx, hn, hn0]
        · cases hm : h.lists x with
          | none => simp [hx, hm, hxn]
          | some m => simp [hx, hm, hxn, hstep x m hm]
  · obtain ⟨m, hm⟩ := hprev hp0
    by_cases hn0 : l.next = 0
    · simp only [hp0, hn0, ne_eq, not_true_eq_false, not_false_eq_true, if_false, if_true,
        Heap.writeTable, Heap.writeList, ht, hm, Option.map_some, Option.bind_some,
        Heap.freeList, removed]
      congr 2
      funext x
      by_cases hx : x = a
      · simp [hx]
      · by_cases hxp : x = l.prev
        · subst hxp
          simp [hx, hm, hp0]
        · cases hm' : h.lists x with
          | none => simp [hx, hm', hxp]
          | some m' => simp [hx, hm', hxp, hstep x m' hm']
    · obtain ⟨n, hn⟩ := hnext hn0
      simp only [hp0, hn0, ne_eq, not_false_eq_true, if_false, if_true, Heap.writeTable,
        Heap.writeList, ht, hm, Function.update_of_ne (hne hp0).symm, hn, Option.map_some,
        Option.bind_some, Heap.freeList, removed]
      congr 2
      funext x
      by_cases hx : x = a
      · simp [hx]
      · by_cases hxp : x = l.prev
        · subst hxp
          simp [hx, hm, hne hp0]
        · by_cases hxn : x = l.next
          · subst hxn
            simp [hx, hn, hxp]
          · simp [hx, hxp, hxn]

theorem removed_lists_of_ne {p a x : Ptr} {l m : HashTableList α} {t : SubhashTable}
    (hx : x ≠ a) (hm : h.lists x = some m) :
    (removed h p a l t).lists x = some
      { m with
        next := if x = l.prev then l.next else m.next
        prev := if x = l.next then l.prev else m.prev } := by
  simp [removed, hx, hm]

theorem removed_lists_cases {p a x : Ptr} {l m' : HashTableList α} {t : SubhashTable}
    (hm' : (removed h p a l t).lists x = some m') :
    x ≠ a ∧ ∃ m, h.lists x = some m ∧ m' = { m with
      next := if x = l.prev then l.next else m.next
      prev := if x = l.next then l.prev else m.prev } := by
  by_cases hx : x = a
  · simp [removed, hx] at hm'
  · simp only [removed, if_neg hx, Option.map_eq_some_iff] at hm'
    obtain ⟨m, hm, heq⟩ := hm'
    exact ⟨hx, m, hm, heq.symm⟩

theorem removed_links {p a x : Ptr} {l : HashTableList α} {t : SubhashTable} (hx : x ≠ a) :
    (removed h p a l t).links x = Linked.join h.links l.prev l.next x := by
  cases hm : h.lists x with
  | none => simp [Heap.links, removed, Linked.join, hx, hm]
  | some m => simp [Heap.links, removed, Linked.join, hx, hm]

/-- The neighbours of a list in its chain. -/
theorem Rep.neighbours (R : Rep key h root S e) {a : Ptr} {l : HashTableList α}
    (hl : h.lists a = some l) :
    ∃ xs ys t, h.tables l.parent = some t ∧ t.isSubhash l.idx = false ∧
      S.chain l.parent l.idx = xs ++ a :: ys ∧ l.prev = xs.getLastD 0 ∧ l.next = ys.headD 0 ∧
      Linked.Seg h.links 0 xs a ∧ Linked.Seg h.links a ys 0 := by
  have ok := R.lists a l hl
  obtain ⟨t, ht, hb⟩ := ok.table
  obtain ⟨xs, ys, hsplit⟩ := List.append_of_mem ok.mem
  obtain ⟨-, hseg⟩ := ((R.tables _ t ht).slot _ ok.idx_lt).chain hb
  rw [hsplit, Linked.seg_append] at hseg
  obtain ⟨hxs, hlink, hys⟩ := hseg
  have hpn : (l.prev, l.next) = (xs.getLastD 0, ys.headD 0) := by
    simpa [Heap.links, hl] using hlink
  exact ⟨xs, ys, t, ht, hb, hsplit, congrArg Prod.fst hpn, congrArg Prod.snd hpn, hxs, hys⟩

/-- The table that `removeList` leaves. -/
theorem rechained_remove (R : Rep key h root S e) {a : Ptr} {l : HashTableList α}
    {t : SubhashTable} {xs ys : List Ptr} (hl : h.lists a = some l)
    (ht : h.tables l.parent = some t) (hb : t.isSubhash l.idx = false)
    (hsplit : S.chain l.parent l.idx = xs ++ a :: ys) (hprev : l.prev = xs.getLastD 0)
    (hnext : l.next = ys.headD 0) :
    { (if l.prev = 0 then t.set l.idx l.next else t) with uniqueLists := t.uniqueLists - 1 } =
      rechained t l.idx ((xs ++ ys).headD 0)
        ((S.setChain l.parent l.idx (xs ++ ys)).held l.parent) := by
  have hi := (R.lists a l hl).idx_lt
  have ok := R.tables _ t ht
  have hheld : S.held l.parent = (S.setChain l.parent l.idx (xs ++ ys)).held l.parent + 1 := by
    have hsum := S.held_setChain l.parent hi (xs ++ ys)
    rw [hsplit, List.length_append, List.length_append, List.length_cons] at hsum
    omega
  have hget := ((ok.slot _ hi).chain hb).1
  have h0 := R.zero_notMem_chain ht hi
  rw [rechained, ok.uniqueLists, hheld, UInt16.ofNat_add]
  rw [show UInt16.ofNat 1 = 1 from rfl, UInt16.add_sub_cancel]
  rw [hsplit] at hget h0
  cases xs with
  | nil => rw [hprev, hnext]; rfl
  | cons x xs =>
    have hne : (x :: xs).getLastD 0 ≠ 0 := by
      intro heq
      exact h0 (List.mem_append_left _ (heq ▸ Linked.getLastD_mem (List.cons_ne_nil x xs)))
    rw [hprev, if_neg hne, List.cons_append, List.headD_cons,
      show x = t.get l.idx from hget.symm, set_get]

/-- **Unlinking** a list keeps the invariant, except that its table may be empty now. -/
theorem removeList_rep (R : Rep key h root S 0) {a : Ptr} {l : HashTableList α}
    {t : SubhashTable} {xs ys : List Ptr} (hl : h.lists a = some l)
    (ht : h.tables l.parent = some t) (hb : t.isSubhash l.idx = false)
    (hsplit : S.chain l.parent l.idx = xs ++ a :: ys) (hprev : l.prev = xs.getLastD 0)
    (hnext : l.next = ys.headD 0) (hxs : Linked.Seg h.links 0 xs a)
    (hys : Linked.Seg h.links a ys 0) :
    Rep key (removed h l.parent a l t) root (S.setChain l.parent l.idx (xs ++ ys)) l.parent := by
  have hi := (R.lists a l hl).idx_lt
  have hslot := (R.tables _ t ht).slot _ hi
  have hnd := hslot.nodup
  rw [hsplit] at hnd
  have hsub : ∀ x ∈ xs ++ ys, x ∈ S.chain l.parent l.idx := by
    intro x hx
    rw [hsplit]
    rcases List.mem_append.mp hx with hx | hx
    · exact List.mem_append_left _ hx
    · exact List.mem_append_right _ (List.mem_cons_of_mem a hx)
  have hnda := (List.nodup_middle.mp hnd)
  have hna : a ∉ xs ++ ys := (List.nodup_cons.mp hnda).1
  have hnodup : (xs ++ ys).Nodup := (List.nodup_cons.mp hnda).2
  have hin : ∀ x, x ≠ 0 → x = l.prev ∨ x = l.next → x ∈ xs ++ ys := by
    intro x hx0 hx
    rcases hx with rfl | rfl
    · rw [hprev] at hx0 ⊢
      refine List.mem_append_left _ (Linked.getLastD_mem ?_)
      rintro rfl
      exact hx0 rfl
    · rw [hnext] at hx0 ⊢
      refine List.mem_append_right _ (Linked.headD_mem ?_)
      rintro rfl
      exact hx0 rfl
  refine R.rechain ht hi hb (congrArg (fun t' => Function.update h.tables l.parent (some t'))
    (rechained_remove R hl ht hb hsplit hprev hnext)) le_rfl ?_ ?_ ?_ ?_ hnodup ?_ ?_ ?_
    (Or.inl rfl) (fun _ hne => absurd rfl hne)
  · intro x m hm
    obtain ⟨-, m₀, hm₀, -⟩ := removed_lists_cases hm
    exact R.fresh_lists x m₀ hm₀
  · simp [removed, R.lists_zero]
  · intro x m hm hdiff
    have hxc : x ∉ S.chain l.parent l.idx := by
      intro hmem
      obtain ⟨m', hm', hp, hidx⟩ := hslot.own x hmem
      rw [hm, Option.some.injEq] at hm'
      subst hm'
      exact hdiff.elim (fun hd => hd hp) fun hd => hd hidx
    have hxa : x ≠ a := by
      rintro rfl
      exact hxc (R.lists x l hl).mem
    have hx0 := R.ne_zero_of_list hm
    have hxp : x ≠ l.prev := fun heq => hxc (hsub x (hin x hx0 (Or.inl heq)))
    have hxn : x ≠ l.next := fun heq => hxc (hsub x (hin x hx0 (Or.inr heq)))
    rw [removed_lists_of_ne hxa hm, if_neg hxp, if_neg hxn]
  · intro x m' hm'
    obtain ⟨hxa, m, hm, rfl⟩ := removed_lists_cases hm'
    by_cases hplace : m.parent = l.parent ∧ m.idx = l.idx
    · left
      have hmem := (R.lists x m hm).mem
      rw [hplace.1, hplace.2, hsplit, List.mem_append, List.mem_cons] at hmem
      rw [List.mem_append]
      rcases hmem with hmem | hmem | hmem
      · exact Or.inl hmem
      · exact absurd hmem hxa
      · exact Or.inr hmem
    · right
      have hxc : x ∉ S.chain l.parent l.idx := by
        intro hmem
        obtain ⟨m', hm', hp, hidx⟩ := hslot.own x hmem
        rw [hm, Option.some.injEq] at hm'
        subst hm'
        exact hplace ⟨hp, hidx⟩
      have hx0 := R.ne_zero_of_list hm
      have hxp : x ≠ l.prev := fun heq => hxc (hsub x (hin x hx0 (Or.inl heq)))
      have hxn : x ≠ l.next := fun heq => hxc (hsub x (hin x hx0 (Or.inr heq)))
      rw [if_neg hxp, if_neg hxn]
      exact ⟨hm, not_and_or.mp hplace⟩
  · have h0 : 0 ∉ xs ++ ys := fun hmem => R.zero_notMem_chain ht hi (hsub 0 hmem)
    have hjoin := Linked.seg_join hnodup h0 hxs hys
    rw [← hprev, ← hnext] at hjoin
    refine Linked.seg_congr ?_ hjoin
    intro x hx
    exact removed_links fun heq => hna (heq ▸ hx)
  · intro x hx
    obtain ⟨m, hm, hp, hidx⟩ := hslot.own x (hsub x hx)
    have hxa : x ≠ a := fun heq => hna (heq ▸ hx)
    obtain ⟨-, -, hnonempty, hkeys, hplace⟩ := (R.lists x m hm).member
    rw [hp, hidx] at hplace
    exact ⟨_, removed_lists_of_ne hxa hm, hp, hidx, hnonempty, hkeys, hplace⟩
  · intro x y m n hm hn hsame
    obtain ⟨-, m, hm₀, rfl⟩ := removed_lists_cases hm
    obtain ⟨-, n, hn₀, rfl⟩ := removed_lists_cases hn
    exact R.distinct x y m n hm₀ hn₀ hsame

/-! ## Freeing empty tables -/

/-- Clearing the bit of a sub-table makes it one sub-table less. -/
theorem subs_unsetBit {t t' : SubhashTable} {i : ℕ} (hi : i < prime) (hb : t.isSubhash i = true)
    (hbits : ∀ j, t'.isSubhash j = (!decide (i = j) && t.isSubhash j)) :
    subs t = subs t' + 1 := by
  refine subs_setBit hi ?_ ?_
  · simp [hbits]
  · intro j
    rw [hbits]
    by_cases hij : i = j
    · subst hij
      simp [hb]
    · simp [hij]

/-- The table with the sub-table in slot `i` gone. -/
def cutTable (q : SubhashTable) (i : ℕ) : SubhashTable :=
  { q.set i 0 with bitmap := q.bitmap.unsetBit i, uniqueSubs := q.uniqueSubs - 1 }

section CutTable

variable (q : SubhashTable) (i : ℕ)

@[simp] theorem cutTable_parent : (cutTable q i).parent = q.parent := rfl

@[simp] theorem cutTable_get_self : (cutTable q i).get i = 0 := get_set_self q i 0

theorem cutTable_get_of_ne {j : ℕ} (hj : j ≠ i) : (cutTable q i).get j = q.get j :=
  get_set_of_ne q 0 hj

theorem cutTable_isSubhash (hcap : q.bitmap.capacity = 64) (hi : i < prime) (j : ℕ) :
    (cutTable q i).isSubhash j = (!decide (i = j) && q.isSubhash j) := by
  refine Bitmap.getBit_unsetBit ?_ j
  rw [hcap]
  exact lt_trans hi (by decide)

end CutTable

/-- The heap after the table `t` at `p` is taken out of its parent `q` and freed. -/
def cut (h : Heap α) (p : Ptr) (t q : SubhashTable) : Heap α where
  tables := Function.update
    (Function.update h.tables t.parent (some (cutTable q (t.get lastSlot)))) p none
  lists := h.lists
  fresh := h.fresh

section Cut

variable {p : Ptr} {t q : SubhashTable}

/-- A table is not its own parent. -/
theorem Rep.parent_ne (R : Rep key h root S e) (ht : h.tables p = some t) (hroot : p ≠ root) :
    t.parent ≠ p := by
  intro heq
  have hpath := R.path_parent ht hroot
  rw [heq] at hpath
  simpa using congrArg List.length hpath

theorem cut_tables_self : (cut h p t q).tables p = none := Function.update_self ..

/-- The parent loses a slot, and the table itself is gone. -/
theorem cut_changed (hq : h.tables t.parent = some q) (hk : t.get lastSlot < prime)
    (hpq : t.parent ≠ p) :
    TableChanged h (cut h p t q) t.parent q (cutTable q (t.get lastSlot)) (· = p) := by
  refine ⟨hq, ?_, cutTable_parent .., cutTable_get_of_ne _ _ (ne_lastSlot hk).symm, ?_⟩
  · simp [cut, hpq]
  · intro r hr hrp
    simp [cut, hr, hrp]

/-- The lists of an empty table. -/
theorem Rep.parent_ne_of_held (R : Rep key h root S e) (hheld : S.held p = 0) {a : Ptr}
    {l : HashTableList α} (hl : h.lists a = some l) : l.parent ≠ p := by
  rintro rfl
  have okl := R.lists a l hl
  have hmem := okl.mem
  rw [Shape.held_eq_zero hheld okl.idx_lt] at hmem
  exact absurd hmem List.not_mem_nil

/-- The slots of a table without sub-tables. -/
theorem isSubhash_of_subs (hsubs : subs t = 0) {j : ℕ} (hj : j < prime) :
    t.isSubhash j = false := by
  by_contra hbit
  rw [Bool.not_eq_false] at hbit
  have hmem : j ∈ (Finset.range prime).filter fun i => t.isSubhash i = true :=
    Finset.mem_filter.mpr ⟨Finset.mem_range.mpr hj, hbit⟩
  rw [Finset.card_eq_zero.mp hsubs] at hmem
  exact absurd hmem (Finset.notMem_empty _)

/-- The slots that do not lead to the table that is freed. -/
theorem cut_slotOk (R : Rep key h root S e) (ht : h.tables p = some t)
    (hq : h.tables t.parent = some q) (hk : t.get lastSlot < prime) (hpq : t.parent ≠ p)
    {r : Ptr} {u : SubhashTable} (hu : h.tables r = some u) {j : ℕ} (hj : j < prime)
    (hrj : r ≠ t.parent ∨ j ≠ t.get lastSlot) :
    SlotOk (cut h p t q) S r j (u.isSubhash j) (u.get j) := by
  refine (cut_changed hq hk hpq).slotOk R hu hj rfl rfl (fun _ _ hl _ _ => hl) ?_
  intro s hs hsp hsj
  refine ⟨?_, rfl⟩
  intro heq
  rw [heq, ht, Option.some.injEq] at hs
  subst hs
  rw [hsp, hsj] at hrj
  exact hrj.elim (fun hne => hne rfl) fun hne => hne rfl

/-- The parent after the table is freed. -/
theorem cutTable_ok (R : Rep key h root S e) (ht : h.tables p = some t)
    (hq : h.tables t.parent = some q) (hk : t.get lastSlot < prime) (hpq : t.parent ≠ p)
    (hbit : q.isSubhash (t.get lastSlot) = true) :
    TableOk (cut h p t q) S t.parent (cutTable q (t.get lastSlot)) := by
  have ok := R.tables _ q hq
  have hbits := cutTable_isSubhash q _ ok.capacity hk
  constructor
  case capacity =>
    show (q.bitmap.unsetBit _).capacity = 64
    rw [Bitmap.capacity_unsetBit]
    exact ok.capacity
  case unused =>
    intro j hj
    rw [hbits, ok.unused j hj, Bool.and_false]
  case depth => exact ok.depth
  case slot =>
    intro j hj
    rw [hbits]
    by_cases hjk : j = t.get lastSlot
    · subst hjk
      obtain ⟨hnil, -⟩ := (ok.slot _ hj).sub hbit
      rw [cutTable_get_self, decide_eq_true rfl, Bool.not_true, Bool.false_and]
      refine ⟨hnil ▸ List.nodup_nil, fun a ha => ?_, fun hb => absurd hb (by simp), fun _ => ?_⟩
      · rw [hnil] at ha
        exact absurd ha List.not_mem_nil
      · rw [hnil]
        exact ⟨rfl, trivial⟩
    · rw [cutTable_get_of_ne _ _ hjk, decide_eq_false (Ne.symm hjk), Bool.not_false,
        Bool.true_and]
      exact cut_slotOk R ht hq hk hpq hq hj (Or.inr hjk)
  case uniqueLists => exact ok.uniqueLists
  case uniqueSubs =>
    show q.uniqueSubs - 1 = _
    rw [ok.uniqueSubs, subs_unsetBit hk hbit hbits, UInt16.ofNat_add]
    exact UInt16.add_sub_cancel ..

end Cut

/-- **Freeing a table** without lists and sub-tables leaves at most its parent empty. -/
theorem freeTable_rep {p : Ptr} {t q : SubhashTable} (R : Rep key h root S p)
    (ht : h.tables p = some t) (hq : h.tables t.parent = some q) (hroot : p ≠ root)
    (hheld : S.held p = 0) (hsubs : subs t = 0) :
    Rep key (cut h p t q) root S t.parent := by
  obtain ⟨hk, q₀, hq₀, hbit, hget⟩ := R.parent p t ht hroot
  rw [hq, Option.some.injEq] at hq₀
  subst hq₀
  have hpq := R.parent_ne ht hroot
  have C := cut_changed hq hk hpq
  have hbits := cutTable_isSubhash q (t.get lastSlot) (R.tables _ q hq).capacity hk
  have hne : ∀ r u, (cut h p t q).tables r = some u → r ≠ p := by
    rintro r u hu rfl
    rw [cut_tables_self] at hu
    cases hu
  constructor
  case root_table => exact C.root_table R hroot.symm
  case path_root => exact R.path_root
  case tables_zero =>
    rw [C.rest 0 (R.ne_zero_of_table hq).symm (R.ne_zero_of_table ht).symm, R.tables_zero]
  case lists_zero => exact R.lists_zero
  case fresh_tables =>
    intro r u' hu'
    obtain ⟨u, hu, -⟩ := C.of_after hu' (hne r u' hu')
    exact R.fresh_tables r u hu
  case fresh_lists => exact R.fresh_lists
  case tables =>
    intro r u' hu'
    obtain ⟨u, hu, -, -, ⟨rfl, rfl, rfl⟩ | ⟨hrq, rfl⟩⟩ := C.of_after hu' (hne r u' hu')
    · exact cutTable_ok R ht hq hk hpq hbit
    · exact (R.tables r u' hu).frame rfl rfl fun j hj =>
        cut_slotOk R ht hq hk hpq hu hj (Or.inl hrq)
  case lists =>
    intro a l hl
    refine C.listOk R hl (R.parent_ne_of_held hheld hl) rfl (R.lists a l hl).mem ?_
    intro _ hlbit
    rw [hbits, hlbit, Bool.and_false]
  case parent =>
    intro r u' hu' hrroot
    have hr := hne r u' hu'
    refine C.parent_of R ?_ ?_ hu' hr hrroot
    · rintro x v j hx hj hxbit rfl
      obtain rfl := Option.some.inj (ht.symm.trans hx)
      rw [isSubhash_of_subs hsubs hj] at hxbit
      cases hxbit
    · intro j hjbit hjget
      have hjk : j ≠ t.get lastSlot := by
        rintro rfl
        exact hr (hjget.symm.trans hget)
      rw [hbits, hjbit, decide_eq_false (Ne.symm hjk), cutTable_get_of_ne _ _ hjk]
      exact ⟨rfl, hjget⟩
  case distinct => exact R.distinct
  case nonempty =>
    intro r u' hu' hrroot hrq
    have hr := hne r u' hu'
    obtain ⟨u, hu, -, -, ⟨hrp, -⟩ | ⟨-, rfl⟩⟩ := C.of_after hu' hr
    · exact absurd hrp hrq
    · exact R.nonempty r u' hu hrroot hr

/-- The exception can be dropped when the table is the root or not empty. -/
theorem Rep.drop_exempt {p : Ptr} {t : SubhashTable} (R : Rep key h root S p)
    (ht : h.tables p = some t) (hne : p ≠ root → S.held p ≠ 0 ∨ subs t ≠ 0) :
    Rep key h root S 0 := by
  refine { R with nonempty := ?_ }
  intro q u hu hroot _
  by_cases hq : q = p
  · subst hq
    rw [ht, Option.some.injEq] at hu
    subst hu
    exact hne hroot
  · exact R.nonempty q u hu hroot hq

theorem checkEmptyTable_free {fuel : ℕ} {p : Ptr} {t q : SubhashTable}
    (ht : h.tables p = some t) (hq : h.tables t.parent = some q)
    (hcond : t.uniqueLists = 0 ∧ t.uniqueSubs = 0 ∧ t.parent ≠ 0) :
    h.checkEmptyTable (fuel + 1) p = (cut h p t q).checkEmptyTable fuel t.parent := by
  rw [Heap.checkEmptyTable]
  simp only [ht, Option.bind_eq_bind, Option.bind_some, if_pos hcond, Heap.writeTable, hq,
    Option.map_some, Function.update_self, Function.update_idem, Heap.freeTable]
  rfl

theorem checkEmptyTable_stop {fuel : ℕ} {p : Ptr} {t : SubhashTable} (ht : h.tables p = some t)
    (hcond : ¬(t.uniqueLists = 0 ∧ t.uniqueSubs = 0 ∧ t.parent ≠ 0)) :
    h.checkEmptyTable (fuel + 1) p = some h := by
  rw [Heap.checkEmptyTable]
  simp only [ht, Option.bind_eq_bind, Option.bind_some, if_neg hcond]

theorem ofNat_eq_zero_iff {n : ℕ} : UInt16.ofNat n = 0 ↔ n % 65536 = 0 := by
  rw [← UInt16.toNat_inj, UInt16.toNat_ofNat']
  rfl

/-- **The walk upwards** frees the table if it is empty, and then its parents. -/
theorem checkEmptyTable_rep {fuel : ℕ} {p : Ptr} {t : SubhashTable} (R : Rep key h root S p)
    (hS : S.Short) (ht : h.tables p = some t) (hfuel : (S.path p).length < fuel)
    (hheld : S.held p % 65536 = 0 → S.held p = 0) :
    ∃ h', h.checkEmptyTable fuel p = some h' ∧ Rep key h' root S 0 ∧ h'.lists = h.lists ∧
      h'.fresh = h.fresh := by
  induction fuel generalizing h p t with
  | zero => exact absurd hfuel (Nat.not_lt_zero _)
  | succ fuel ih =>
    have ok := R.tables p t ht
    have hsubs : subs t % 65536 = 0 → subs t = 0 := by
      have hle := subs_le t
      have hprime : prime = 29 := rfl
      omega
    by_cases hcond : t.uniqueLists = 0 ∧ t.uniqueSubs = 0 ∧ t.parent ≠ 0
    · have hroot : p ≠ root := by
        rintro rfl
        obtain ⟨r, hr, hr0⟩ := R.root_table
        rw [ht, Option.some.injEq] at hr
        exact hcond.2.2 (hr ▸ hr0)
      have hzero : S.held p = 0 := hheld (ofNat_eq_zero_iff.mp (ok.uniqueLists ▸ hcond.1))
      have hzero' : subs t = 0 := hsubs (ofNat_eq_zero_iff.mp (ok.uniqueSubs ▸ hcond.2.1))
      obtain ⟨-, q, hq, -⟩ := R.parent p t ht hroot
      have R' := freeTable_rep R ht hq hroot hzero hzero'
      have hpath := congrArg List.length (R.path_parent ht hroot)
      rw [List.length_append, List.length_singleton] at hpath
      have hdepth := ok.depth
      have hpq : t.parent ≠ p := by
        intro heq
        rw [heq] at hpath
        omega
      have hq' : (cut h p t q).tables t.parent = some (cutTable q (t.get lastSlot)) := by
        simp [cut, hpq]
      have hshort := hS.held_lt (p := t.parent) (by omega)
      rw [checkEmptyTable_free ht hq hcond]
      exact ih R' hq' (by omega) (by omega)
    · refine ⟨h, checkEmptyTable_stop ht hcond, R.drop_exempt ht ?_, rfl, rfl⟩
      intro hroot
      obtain ⟨-, q, hq, -⟩ := R.parent p t ht hroot
      by_contra hboth
      rw [not_or, not_not, not_not] at hboth
      refine hcond ⟨?_, ?_, R.ne_zero_of_table hq⟩
      · rw [ok.uniqueLists, hboth.1]
        rfl
      · rw [ok.uniqueSubs, hboth.2]
        rfl

/-! ## The whole removal -/

/-- The shape after a tuple is erased. -/
structure Shrinks (S S' : Shape) : Prop where
  short : S'.Short
  held : ∀ r, S'.held r ≤ S.held r

theorem Shrinks.refl (hS : S.Short) : Shrinks S S := ⟨hS, fun _ => le_rfl⟩

theorem eraseIdx_cons_perm {xs : List α} {pos : ℕ} {x : α} (hx : xs[pos]? = some x) :
    (xs : Multiset α) = x ::ₘ (xs.eraseIdx pos : Multiset α) := by
  obtain ⟨hlt, rfl⟩ := List.getElem?_eq_some_iff.mp hx
  exact Multiset.coe_eq_coe.mpr (List.getElem_cons_eraseIdx_perm hlt).symm

/-- Removing a list takes its tuples away. -/
theorem removed_stored (R : Rep key h root S e) {p a : Ptr} {l : HashTableList α}
    {t : SubhashTable} (hl : h.lists a = some l) :
    (removed h p a l t).stored + (l.list : Multiset α) = h.stored := by
  have hself : (removed h p a l t).tuples a = [] := by simp [Heap.tuples, removed]
  have hother : ∀ b, b ≠ a → (removed h p a l t).tuples b = h.tuples b := by
    intro b hb
    cases hm : h.lists b with
    | none => simp [Heap.tuples, removed, hb, hm]
    | some m => rw [Heap.tuples_of_list (removed_lists_of_ne hb hm), Heap.tuples_of_list hm]
  have hle : h.fresh ≤ (removed h p a l t).fresh := le_rfl
  have hlt : a < (removed h p a l t).fresh := R.fresh_lists a l hl
  have hsum := Heap.stored_update hle hlt R.tuples_of_fresh hother
  rw [hself, Heap.tuples_of_list hl] at hsum
  simpa using hsum

/-- The heap after the last tuple of a list is taken out and the list is removed. -/
theorem removeList_emptied (R : Rep key h root S 0) {a : Ptr} {l : HashTableList α}
    {t : SubhashTable} {xs ys : List Ptr} (hl : h.lists a = some l)
    (ht : h.tables l.parent = some t) (hsplit : S.chain l.parent l.idx = xs ++ a :: ys)
    (hprev : l.prev = xs.getLastD 0) (hnext : l.next = ys.headD 0) :
    (withTuples h a l []).removeList l.parent a = some (removed h l.parent a l t) := by
  have hi := (R.lists a l hl).idx_lt
  have hslot := (R.tables _ t ht).slot _ hi
  have hnd := hslot.nodup
  rw [hsplit] at hnd
  have hnda := List.nodup_middle.mp hnd
  have hna : a ∉ xs ++ ys := (List.nodup_cons.mp hnda).1
  have hdisj := List.disjoint_of_nodup_append (List.nodup_cons.mp hnda).2
  have halloc : ∀ x ∈ xs ++ ys, ∃ m, (withTuples h a l []).lists x = some m := by
    intro x hx
    have hmem : x ∈ S.chain l.parent l.idx := by
      rw [hsplit, List.mem_append, List.mem_cons]
      rcases List.mem_append.mp hx with hx | hx
      · exact Or.inl hx
      · exact Or.inr (Or.inr hx)
    obtain ⟨m, hm, -⟩ := hslot.own x hmem
    have hxa : x ≠ a := fun heq => hna (heq ▸ hx)
    exact ⟨m, by simp [withTuples, hxa, hm]⟩
  have hxs : l.prev ≠ 0 → l.prev ∈ xs := by
    rw [hprev]
    intro hne
    refine Linked.getLastD_mem ?_
    rintro rfl
    exact hne rfl
  have hys : l.next ≠ 0 → l.next ∈ ys := by
    rw [hnext]
    intro hne
    refine Linked.headD_mem ?_
    rintro rfl
    exact hne rfl
  have ha0 := (R.ne_zero_of_list hl).symm
  have hself : (withTuples h a l []).lists a = some { l with list := [] } :=
    Function.update_self ..
  have h0 : (withTuples h a l []).lists 0 = none := by
    simpa [withTuples, ha0] using R.lists_zero
  have heq := removeList_eq hself ht h0
    (fun hne => halloc _ (List.mem_append_left _ (hxs hne)))
    (fun hne => halloc _ (List.mem_append_right _ (hys hne)))
    (fun hne hpn => hdisj (hxs hne) (hpn ▸ hys (hpn ▸ hne)))
  rw [heq]
  congr 1
  simp only [removed]
  congr 1
  funext x
  by_cases hx : x = a
  · simp [hx]
  · simp [hx, withTuples]

/-- **Removal keeps the invariant**, and exactly the tuple at the position is gone, provided that
the table of the list is not taken for empty while it holds other lists. -/
theorem eraseFromList_rep (R : Rep key h root S 0) (hS : S.Short) {a : Ptr}
    {l : HashTableList α} (hl : h.lists a = some l) {pos : ℕ} {x : α}
    (hx : l.list[pos]? = some x)
    (hheld : l.list.length = 1 → S.held l.parent % 65536 = 1 → S.held l.parent = 1) :
    ∃ h' S', h.eraseFromList l.parent a pos = some h' ∧ Rep key h' root S' 0 ∧ Shrinks S S' ∧
      x ::ₘ h'.stored = h.stored := by
  have hperm := eraseIdx_cons_perm hx
  have hunfold : h.eraseFromList l.parent a pos =
      if (l.list.eraseIdx pos).isEmpty then
        ((withTuples h a l (l.list.eraseIdx pos)).removeList l.parent a).bind
          fun h => h.checkEmptyTable maxLevels l.parent
      else some (withTuples h a l (l.list.eraseIdx pos)) := by
    simp only [withTuples, Heap.eraseFromList, hl, Heap.writeList, Option.bind_eq_bind,
      Option.bind_some, Option.map_some]
  rw [hunfold]
  by_cases hempty : l.list.eraseIdx pos = []
  · obtain ⟨xs, ys, t, ht, hb, hsplit, hprev, hnext, hxs, hys⟩ := R.neighbours hl
    have R' := removeList_rep R hl ht hb hsplit hprev hnext hxs hys
    have hi := (R.lists a l hl).idx_lt
    have hsum := S.held_setChain l.parent hi (xs ++ ys)
    rw [hsplit, List.length_append, List.length_append, List.length_cons] at hsum
    have hlen : l.list.length = 1 := by
      have hcard := congrArg Multiset.card hperm
      rw [hempty] at hcard
      simpa using hcard
    have hS' : (S.setChain l.parent l.idx (xs ++ ys)).Short := by
      intro q j hq
      by_cases hqj : q ≠ l.parent ∨ j ≠ l.idx
      · rw [S.chain_setChain_of_ne _ hqj]
        exact hS q j hq
      · obtain ⟨rfl, rfl⟩ : q = l.parent ∧ j = l.idx :=
          (not_or.mp hqj).imp not_not.mp not_not.mp
        have hlt := hS _ l.idx hq
        rw [hsplit, List.length_append, List.length_cons] at hlt
        rw [Shape.chain_setChain_self, List.length_append]
        exact lt_trans (by omega) hlt
    have hdepth := (R.tables _ t ht).depth
    obtain ⟨h', hcheck, R'', hlists, hfresh⟩ :=
      checkEmptyTable_rep R' hS' (Function.update_self ..) hdepth (by have := hheld hlen; omega)
    refine ⟨h', _, ?_, R'', ⟨hS', ?_⟩, ?_⟩
    · rw [hempty, List.isEmpty_nil, if_pos rfl, removeList_emptied R hl ht hsplit hprev hnext,
        Option.bind_some, hcheck]
    · intro r
      by_cases hr : r = l.parent
      · rw [hr]
        omega
      · rw [S.held_setChain_of_ne _ _ hr]
    · have hstored : h'.stored = (removed h l.parent a l t).stored := by
        simp only [Heap.stored, Heap.tuples, hlists, hfresh]
      have htaken : (removed h l.parent a l t).stored + (l.list : Multiset α) = h.stored :=
        removed_stored R hl
      rw [hstored, ← htaken, hperm, hempty]
      simp [add_comm]
  · have hnil : (l.list.eraseIdx pos).isEmpty = false := by
      simpa using hempty
    rw [hnil]
    refine ⟨_, S, rfl, setTuples_rep R hl hempty ?_, Shrinks.refl hS, ?_⟩
    · intro y hy
      exact (R.lists a l hl).keys y (List.mem_of_mem_eraseIdx hy)
    · have hsum := setTuples_stored R hl (l.list.eraseIdx pos)
      rw [hperm, ← Multiset.singleton_add, ← add_assoc] at hsum
      have hcancel := add_right_cancel hsum
      rw [← hcancel, add_comm, Multiset.singleton_add]

end Hash
end Meld
