import Meld.Db.TupleTrieSize

/-!
# The depth counters of a cycle predicate

What insertions and retractions do to the depth counter of a tuple, in whatever state the trie is.
The size of the trie may be off (see `Undercut`), so everything here is about the tree and its
leaves only.

* `DepthCounter.Ordered`, `DepthCounter.getCount_add`, `DepthCounter.getCount_sub`: the counter as a
  function of the depth.
* `Loose`: the trie holds a multiset, as far as its leaves are concerned.
* `Loose.insertTuple`, `Loose.remove`: the operations.
* `depthCount`: the derivations of a tuple recorded at a depth.
* `depthCount_insertTuple`, `depthCount_remove`: what the operations do to them.
-/

namespace Meld

namespace DepthCounter

variable {D : DepthCounter} {depth d : ℕ}

/-- The depths of the entries increase. -/
def Ordered (D : DepthCounter) : Prop := D.Pairwise fun a b => a.1 < b.1

theorem getCount_nil (d : ℕ) : getCount [] d = 0 := rfl

theorem getCount_cons (e : ℕ × ℕ) (D : DepthCounter) (d : ℕ) :
    getCount (e :: D) d = if d = e.1 then e.2 else getCount D d := by
  obtain ⟨k, c⟩ := e
  by_cases h : d = k
  · simp [getCount, h]
  · have hne : (d == k) = false := beq_eq_false_iff_ne.2 h
    simp [getCount, List.lookup_cons, hne, h]

/-- Nothing is counted at a depth below all entries. -/
theorem getCount_eq_zero (h : ∀ e ∈ D, d ≠ e.1) : getCount D d = 0 := by
  induction D with
  | nil => rfl
  | cons e D ih =>
    rw [getCount_cons, if_neg (h e List.mem_cons_self)]
    exact ih fun e' he' => h e' (List.mem_cons_of_mem _ he')

/-- `add` keeps the order, and its entries are the old ones and one at the depth. -/
theorem Ordered.add (h : Ordered D) (depth count : ℕ) :
    Ordered (DepthCounter.add depth count D) ∧
      ∀ k, (∀ e ∈ D, k < e.1) → k < depth → ∀ e ∈ DepthCounter.add depth count D, k < e.1 := by
  induction D with
  | nil =>
    refine ⟨List.pairwise_singleton _ _, fun k _ hk e he => ?_⟩
    obtain rfl := List.mem_singleton.1 he
    exact hk
  | cons e D ih =>
    obtain ⟨d, c⟩ := e
    obtain ⟨hhead, htail⟩ := List.pairwise_cons.1 h
    rw [DepthCounter.add]
    split
    next hlt =>
      refine ⟨List.pairwise_cons.2 ⟨fun e he => ?_, h⟩, fun k hD hk e he => ?_⟩
      · rcases List.mem_cons.1 he with rfl | he
        · exact hlt
        · exact Nat.lt_trans hlt (hhead e he)
      · rcases List.mem_cons.1 he with rfl | he
        · exact hk
        · exact hD e he
    next hle =>
      split
      next heq =>
        refine ⟨List.pairwise_cons.2 ⟨hhead, htail⟩, fun k hD hk e he => ?_⟩
        rcases List.mem_cons.1 he with rfl | he
        · exact heq ▸ hk
        · exact hD e (List.mem_cons_of_mem _ he)
      next hne =>
        have hdd : d < depth := by omega
        obtain ⟨hord, hbound⟩ := ih htail
        refine ⟨List.pairwise_cons.2 ⟨hbound d hhead hdd, hord⟩, fun k hD hk e he => ?_⟩
        rcases List.mem_cons.1 he with rfl | he
        · exact hD _ List.mem_cons_self
        · exact hbound k (fun e he => hD e (List.mem_cons_of_mem _ he)) hk e he

/-- `add` counts at its depth. -/
theorem getCount_add (h : Ordered D) (depth count d : ℕ) :
    getCount (DepthCounter.add depth count D) d =
      getCount D d + if d = depth then count else 0 := by
  induction D with
  | nil => rw [DepthCounter.add, getCount_cons, getCount_nil, Nat.zero_add]
  | cons e D ih =>
    obtain ⟨k, c⟩ := e
    obtain ⟨hhead, htail⟩ := List.pairwise_cons.1 h
    rw [DepthCounter.add]
    split
    next hlt =>
      rw [getCount_cons]
      by_cases hd : d = depth
      · have hzero : getCount ((k, c) :: D) d = 0 := by
          refine getCount_eq_zero fun e he => ?_
          rcases List.mem_cons.1 he with rfl | he
          · exact hd ▸ Nat.ne_of_lt hlt
          · exact hd ▸ Nat.ne_of_lt (Nat.lt_trans hlt (hhead e he))
        rw [if_pos hd, if_pos hd, hzero, Nat.zero_add]
      · rw [if_neg hd, if_neg hd, Nat.add_zero]
    next hle =>
      split
      next heq =>
        subst heq
        rw [getCount_cons, getCount_cons]
        by_cases hd : d = depth
        · rw [if_pos hd, if_pos hd, if_pos hd]
        · rw [if_neg hd, if_neg hd, if_neg hd, Nat.add_zero]
      next hne =>
        rw [getCount_cons, getCount_cons, ih htail]
        by_cases hd : d = k
        · rw [if_pos hd, if_pos hd, if_neg fun hdd : d = depth => hne (hdd.symm.trans hd), Nat.add_zero]
        · rw [if_neg hd, if_neg hd]

/-- The entries of `sub` stand at depths of the old ones. -/
theorem map_sub_sublist (depth count : ℕ) (D : DepthCounter) :
    ((DepthCounter.sub depth count D).map Prod.fst).Sublist (D.map Prod.fst) := by
  induction D with
  | nil => exact List.Sublist.refl _
  | cons e D ih =>
    obtain ⟨k, c⟩ := e
    rw [DepthCounter.sub]
    split
    · split
      · exact List.sublist_cons_self _ _
      · exact List.Sublist.refl _
    · exact ih.cons_cons k

theorem ordered_iff (D : DepthCounter) : Ordered D ↔ (D.map Prod.fst).Pairwise (· < ·) := by
  rw [List.pairwise_map]
  rfl

theorem Ordered.sub (h : Ordered D) (depth count : ℕ) :
    Ordered (DepthCounter.sub depth count D) := by
  rw [ordered_iff] at h ⊢
  exact h.sublist (map_sub_sublist depth count D)

/-- `sub` takes from its depth. -/
theorem getCount_sub (h : Ordered D) (depth count d : ℕ) :
    getCount (DepthCounter.sub depth count D) d =
      getCount D d - if d = depth then count else 0 := by
  induction D with
  | nil => rw [DepthCounter.sub, getCount_nil, Nat.zero_sub]
  | cons e D ih =>
    obtain ⟨k, c⟩ := e
    obtain ⟨hhead, htail⟩ := List.pairwise_cons.1 h
    rw [DepthCounter.sub]
    split
    next heq =>
      subst heq
      by_cases hd : d = depth
      · have hzero : getCount D d = 0 :=
          getCount_eq_zero fun e he => hd ▸ Nat.ne_of_lt (hhead e he)
        rw [getCount_cons, if_pos hd, if_pos hd]
        split
        · rw [hzero]
          show 0 = c - count
          omega
        · rw [getCount_cons, if_pos hd]
      · rw [getCount_cons, if_neg hd, if_neg hd, Nat.sub_zero]
        split
        · rfl
        · rw [getCount_cons, if_neg hd]
    next hne =>
      rw [getCount_cons, getCount_cons, ih htail]
      by_cases hd : d = k
      · rw [if_pos hd, if_pos hd, if_neg fun hdd : d = depth => hne (hdd.symm.trans hd), Nat.sub_zero]
      · rw [if_neg hd, if_neg hd]

theorem Ordered.deleteDepthsAbove (h : Ordered D) (depth : ℕ) :
    Ordered (DepthCounter.deleteDepthsAbove depth D).1 := List.Pairwise.filter _ h

/-- `delete_depths_above` keeps what is not deeper. -/
theorem getCount_deleteDepthsAbove (D : DepthCounter) (depth d : ℕ) :
    getCount (DepthCounter.deleteDepthsAbove depth D).1 d =
      if d ≤ depth then getCount D d else 0 := by
  induction D with
  | nil =>
    show 0 = _
    rw [getCount_nil, ite_self]
  | cons e D ih =>
    simp only [DepthCounter.deleteDepthsAbove] at ih ⊢
    rw [List.filter_cons]
    by_cases he : e.1 ≤ depth
    · rw [if_pos (decide_eq_true he), getCount_cons, getCount_cons, ih]
      by_cases hd : d = e.1
      · rw [if_pos hd, if_pos hd, if_pos (hd ▸ he)]
      · rw [if_neg hd, if_neg hd]
    · rw [if_neg (by simpa using he), ih, getCount_cons]
      by_cases hd : d = e.1
      · rw [if_neg (hd ▸ he), if_neg (hd ▸ he)]
      · rw [if_neg hd]

end DepthCounter

/-! ## The trie without its size -/

namespace Trie

variable (nodeId : BitVec 64 → ℕ)

/-- The size plays no role in an insertion. -/
theorem insertAny_numberOfReferences (T : Trie) (n : ℕ) (tpl : Tuple) :
    insertAny nodeId { T with numberOfReferences := n } tpl =
      ({ (insertAny nodeId T tpl).1 with numberOfReferences := n + 1 },
        (insertAny nodeId T tpl).2) := by
  by_cases hroot : tpl = [] ∧ T.child [] ≠ .leaf
  · simp only [insertAny, if_pos hroot, insertRoot]
  · simp only [insertAny, if_neg hroot, insertTuple, checkInsert]
    rcases descend nodeId T.child (stackSize tpl) [] tpl with ⟨p, _ | ⟨v, stk⟩⟩ <;> rfl

/-- The size plays no role in a deletion. -/
theorem deleteTuple_numberOfReferences (T : Trie) (n : ℕ) (tpl : Tuple) :
    (deleteTuple nodeId { T with numberOfReferences := n } tpl).1.child =
        (deleteTuple nodeId T tpl).1.child ∧
      (deleteTuple nodeId { T with numberOfReferences := n } tpl).1.leaves =
        (deleteTuple nodeId T tpl).1.leaves ∧
      (deleteTuple nodeId { T with numberOfReferences := n } tpl).2 =
        (deleteTuple nodeId T tpl).2 := by
  simp only [deleteTuple]
  rcases descend nodeId T.child (stackSize tpl) [] tpl with ⟨p, _ | ⟨v, stk⟩⟩
  · simp only
    split <;> exact ⟨rfl, rfl, rfl⟩
  · exact ⟨rfl, rfl, rfl⟩

/-- The trie holds the multiset, as far as its leaves are concerned. -/
def Loose (fields : List FieldType) (T : Trie) (M : Multiset Tuple) : Prop :=
  Inv nodeId fields { T with numberOfReferences := M.card } M

variable {nodeId} {fields : List FieldType} {T : Trie} {M : Multiset Tuple} {tpl : Tuple}

/-- Only the tree and the leaves matter. -/
theorem Inv.loose {T' : Trie} (h : Inv nodeId fields T M) (hchild : T'.child = T.child)
    (hleaves : T'.leaves = T.leaves) : Loose nodeId fields T' M := by
  have hT : { T' with numberOfReferences := M.card } = T := by
    rw [hchild, hleaves, ← h.represents.size_eq]
  rw [Loose, hT]
  exact h

theorem Loose.shape (h : Loose nodeId fields T M) : Shape nodeId fields T.child T.leaves :=
  Inv.shape (T := { T with numberOfReferences := M.card }) h

theorem Loose.insertAny (h : Loose nodeId fields T M) (ht : TupleHasType tpl fields) :
    Loose nodeId fields (insertAny nodeId T tpl).1 (tpl ::ₘ M) ∧
      (Trie.insertAny nodeId T tpl).2 = decide (tpl ∉ M) := by
  obtain ⟨hinv, hans⟩ := Inv.insertAny h ht
  rw [insertAny_numberOfReferences] at hinv hans
  exact ⟨hinv.loose rfl rfl, hans⟩

theorem Loose.leafNode_eq (h : Loose nodeId fields T M) (hmem : tpl ∈ M) :
    T.leafNode nodeId tpl = (word tpl).reverse :=
  Inv.leafNode_eq (T := { T with numberOfReferences := M.card }) h hmem

theorem Loose.deleteTuple (h : Loose nodeId fields T M) (hmem : tpl ∈ M) :
    ∃ T', Trie.deleteAny nodeId T tpl =
        some (T', some ((word tpl).reverse, decide (M.count tpl = 1))) ∧
      (M.count tpl = 1 → Loose nodeId fields (Trie.performDelete nodeId T' (word tpl).reverse)
        (M.erase tpl)) ∧
      (M.count tpl ≠ 1 → Loose nodeId fields T' (M.erase tpl)) := by
  obtain ⟨T₁, hdel, hlast, hmore⟩ := Inv.deleteTuple h hmem
  obtain ⟨hchild, hleaves, hinfo⟩ := deleteTuple_numberOfReferences nodeId T M.card tpl
  have hany := Inv.deleteAny h hmem
  rcases hdel' : Trie.deleteTuple nodeId T tpl with ⟨T', info⟩
  simp only [hdel, hdel'] at hchild hleaves hinfo
  subst hinfo
  refine ⟨T', ?_, fun hone => (hlast hone).loose ?_ ?_,
    fun hone => (hmore hone).loose hchild.symm hleaves.symm⟩
  · rw [← hdel']
    rw [Trie.deleteAny] at hany ⊢
    split at hany
    next => cases hany
    next hb => rw [if_neg hb]
  · simp only [Trie.performDelete, hchild]
  · simp only [Trie.performDelete, hleaves]

theorem Loose.countOf_eq (h : Loose nodeId fields T M) (tpl : Tuple) :
    T.countOf tpl = M.count tpl := h.represents.countOf_eq tpl

end Trie

namespace TupleTrie

variable {nodeId : BitVec 64 → ℕ} {fields : List FieldType} {T : TupleTrie} {M : Multiset Tuple}
  {tpl : Tuple} {depth : ℕ}

/-- Another count at the leaf of a tuple, as far as the leaves are concerned. -/
theorem loose_recount (h : T.toTrie.Loose nodeId fields M) (hmem : tpl ∈ M) {f : ℕ → ℕ}
    (hpos : 0 < f (M.count tpl)) (D : TriePath → DepthCounter) :
    (T.recount tpl f D).toTrie.Loose nodeId fields
      (M.filter (· ≠ tpl) + Multiset.replicate (f (M.count tpl)) tpl) := by
  obtain ⟨l, hl, rfl, -⟩ := Trie.Inv.descend_present h hmem
  have hnode := (h.shape.node_eq l hl).2
  have hzero : (M.filter (· ≠ l.tpl)).count l.tpl = 0 := by simp
  have hin : l.tpl ∈ M.filter (· ≠ l.tpl) + Multiset.replicate (f (M.count l.tpl)) l.tpl :=
    Multiset.mem_add.2 (Or.inr (Multiset.mem_replicate.2 ⟨Nat.ne_of_gt hpos, rfl⟩))
  have hinv := Trie.Inv.updateCount (f := f) h hl
    (by rw [Multiset.count_add, hzero, Multiset.count_replicate_self, Nat.zero_add])
    (fun t ht => by
      have hfilter : (M.filter (· ≠ l.tpl)).count t = M.count t := Multiset.count_filter_of_pos ht
      rw [Multiset.count_add, hfilter, Multiset.count_replicate, if_neg (Ne.symm ht),
        Nat.add_zero]) hin rfl
  refine hinv.loose rfl ?_
  rw [recount, hnode]

/-- Taking all copies of a tuple out, as far as the leaves are concerned. -/
theorem loose_performDelete_recount (h : T.toTrie.Loose nodeId fields M) (hmem : tpl ∈ M)
    (f : ℕ → ℕ) (D : TriePath → DepthCounter) (b : Bool) (decrease : ℕ) :
    ((T.recount tpl f D).performDelete nodeId
      ⟨(Trie.word tpl).reverse, b, decrease⟩).toTrie.Loose nodeId fields (M.filter (· ≠ tpl)) :=
  (inv_performDelete_recount (T := ⟨{ T.toTrie with numberOfReferences := M.card }, T.depths⟩) h
    hmem f D b).loose rfl rfl

/-! ## What is recorded of a tuple -/

/-- The derivations of a tuple that its depth counter records at a depth, none when the tuple is not
there. -/
def depthCount (nodeId : BitVec 64 → ℕ) (T : TupleTrie) (tpl : Tuple) (d : ℕ) : ℕ :=
  if T.toTrie.countOf tpl = 0 then 0
  else DepthCounter.getCount (T.depths (T.toTrie.leafNode nodeId tpl)) d

/-- What a retraction at `depth` leaves of the derivations recorded: one less at its depth, and
nothing deeper when none is left there. -/
def retracted (depth : ℕ) (recorded : ℕ → ℕ) (d : ℕ) : ℕ :=
  if d = depth then recorded d - 1
  else if depth < d ∧ recorded depth ≤ 1 then 0
  else recorded d

/-- The trie holds the multiset as far as its leaves are concerned, and its depth counters are in
order. -/
structure Counted (nodeId : BitVec 64 → ℕ) (fields : List FieldType) (T : TupleTrie)
    (M : Multiset Tuple) : Prop where
  loose : T.toTrie.Loose nodeId fields M
  ordered : ∀ p, (T.depths p).Ordered

/-- One counter changes. -/
theorem ordered_update {depths : TriePath → DepthCounter} (h : ∀ p, (depths p).Ordered)
    {q : TriePath} {D : DepthCounter} (hD : D.Ordered) (p : TriePath) :
    (Function.update depths q D p).Ordered :=
  (Function.forall_update_iff depths fun _ D => D.Ordered).2 ⟨hD, fun p _ => h p⟩ p

theorem counted_empty : Counted nodeId fields empty 0 :=
  ⟨Trie.inv_empty, fun _ => List.Pairwise.nil⟩

theorem Counted.depthCount_of_mem (h : Counted nodeId fields T M) (hmem : tpl ∈ M) (d : ℕ) :
    depthCount nodeId T tpl d =
      DepthCounter.getCount (T.depths (Trie.word tpl).reverse) d := by
  have hne : T.toTrie.countOf tpl ≠ 0 := by
    rw [h.loose.countOf_eq]
    exact Nat.ne_of_gt (Multiset.count_pos.2 hmem)
  rw [depthCount, if_neg hne, h.loose.leafNode_eq hmem]

theorem Counted.depthCount_of_notMem (h : Counted nodeId fields T M) (hmem : tpl ∉ M) (d : ℕ) :
    depthCount nodeId T tpl d = 0 := by
  rw [depthCount, if_pos]
  rw [h.loose.countOf_eq]
  exact Multiset.count_eq_zero_of_notMem hmem

/-- Two tuples that are there have different leaves. -/
theorem Counted.word_ne (h : Counted nodeId fields T M) {t : Tuple} (ht : t ∈ M)
    (htpl : TupleHasType tpl fields) (hne : t ≠ tpl) :
    (Trie.word t).reverse ≠ (Trie.word tpl).reverse := by
  intro heq
  refine hne (Trie.word_inj (r := []) (Trie.Inv.typed h.loose ht) htpl ?_)
  rw [List.append_nil, List.reverse_injective heq]

/-- When only the leaf of one tuple was touched, nothing else is recorded of the other tuples. -/
theorem Counted.depthCount_congr {T' : TupleTrie} {M' : Multiset Tuple}
    (h : Counted nodeId fields T M) (h' : Counted nodeId fields T' M')
    (htpl : TupleHasType tpl fields)
    (hdepths : ∀ p, p ≠ (Trie.word tpl).reverse → T'.depths p = T.depths p) {t : Tuple}
    (hne : t ≠ tpl) (hmem : t ∈ M' ↔ t ∈ M) (d : ℕ) :
    depthCount nodeId T' t d = depthCount nodeId T t d := by
  by_cases ht : t ∈ M
  · rw [h'.depthCount_of_mem (hmem.2 ht), h.depthCount_of_mem ht,
      hdepths _ (h.word_ne ht htpl hne)]
  · rw [h'.depthCount_of_notMem fun hin => ht (hmem.1 hin), h.depthCount_of_notMem ht]

/-- **An insertion records the derivation at the depth it is given.** -/
theorem Counted.insertTuple (h : Counted nodeId fields T M) (ht : TupleHasType tpl fields)
    (depth : ℕ) :
    Counted nodeId fields (T.insertTuple nodeId true tpl depth).1 (tpl ::ₘ M) ∧
      ∀ t d, depthCount nodeId (T.insertTuple nodeId true tpl depth).1 t d =
        depthCount nodeId T t d + if t = tpl ∧ d = depth then 1 else 0 := by
  obtain ⟨hloose, hnew⟩ := h.loose.insertAny ht
  have hnode := hloose.leafNode_eq (Multiset.mem_cons_self tpl M)
  have hdepths : (T.insertTuple nodeId true tpl depth).1.depths =
      Function.update T.depths (Trie.word tpl).reverse (DepthCounter.add depth 1
        (if tpl ∈ M then T.depths (Trie.word tpl).reverse else [])) := by
    simp only [TupleTrie.insertTuple, hnode, hnew, if_true, decide_not]
    by_cases hmem : tpl ∈ M
    · simp [hmem]
    · simp [hmem]
  have hbase : DepthCounter.Ordered
      (if tpl ∈ M then T.depths (Trie.word tpl).reverse else []) := by
    split
    · exact h.ordered _
    · exact List.Pairwise.nil
  have hcounted : Counted nodeId fields (T.insertTuple nodeId true tpl depth).1 (tpl ::ₘ M) := by
    refine ⟨hloose, fun p => ?_⟩
    rw [hdepths]
    exact ordered_update h.ordered (hbase.add depth 1).1 p
  refine ⟨hcounted, fun t d => ?_⟩
  by_cases heq : t = tpl
  · subst heq
    rw [hcounted.depthCount_of_mem (Multiset.mem_cons_self _ _), hdepths, Function.update_self,
      DepthCounter.getCount_add hbase]
    simp only [true_and]
    by_cases hmem : t ∈ M
    · rw [if_pos hmem, h.depthCount_of_mem hmem]
    · rw [if_neg hmem, h.depthCount_of_notMem hmem, DepthCounter.getCount_nil]
  · rw [if_neg fun hb => heq hb.1, Nat.add_zero]
    refine h.depthCount_congr hcounted ht (fun p hp => ?_) heq ?_ d
    · rw [hdepths, Function.update_of_ne hp]
    · simp [heq]

/-- The depth counter that a retraction leaves. -/
theorem getCount_retracted {D : DepthCounter} (hD : D.Ordered) (depth d : ℕ) :
    DepthCounter.getCount (if DepthCounter.getCount (DepthCounter.sub depth 1 D) depth = 0 then
        (DepthCounter.deleteDepthsAbove depth (DepthCounter.sub depth 1 D)).1
      else DepthCounter.sub depth 1 D) d = retracted depth (DepthCounter.getCount D) d := by
  have hsub := DepthCounter.getCount_sub hD depth 1
  rw [retracted]
  split
  next hzero =>
    rw [hsub, if_pos rfl] at hzero
    rw [DepthCounter.getCount_deleteDepthsAbove, hsub]
    by_cases hd : d = depth
    · rw [if_pos (Nat.le_of_eq hd), if_pos hd, if_pos hd]
    · rw [if_neg hd, if_neg hd, Nat.sub_zero]
      by_cases hlt : depth < d
      · rw [if_neg (Nat.not_le.2 hlt), if_pos ⟨hlt, by omega⟩]
      · rw [if_pos (Nat.not_lt.1 hlt), if_neg fun hb => hlt hb.1]
  next hzero =>
    rw [hsub, if_pos rfl] at hzero
    rw [hsub]
    by_cases hd : d = depth
    · rw [if_pos hd, if_pos hd]
    · rw [if_neg hd, if_neg hd, Nat.sub_zero, if_neg fun hb => hzero (by omega)]

/-- The depth counter of a tuple's leaf after a retraction. -/
def retractedCounter (T : TupleTrie) (tpl : Tuple) (depth : ℕ) : DepthCounter :=
  if DepthCounter.getCount (DepthCounter.sub depth 1 (T.depths (Trie.word tpl).reverse)) depth = 0
  then (DepthCounter.deleteDepthsAbove depth
    (DepthCounter.sub depth 1 (T.depths (Trie.word tpl).reverse))).1
  else DepthCounter.sub depth 1 (T.depths (Trie.word tpl).reverse)

/-- What is recorded after a retraction, told by the leaf it touched. -/
theorem Counted.depthCount_retracted {T' : TupleTrie} {M' : Multiset Tuple}
    (h : Counted nodeId fields T M) (h' : Counted nodeId fields T' M')
    (ht : TupleHasType tpl fields)
    (hdepths : ∀ p, p ≠ (Trie.word tpl).reverse → T'.depths p = T.depths p)
    (hother : ∀ t, t ≠ tpl → (t ∈ M' ↔ t ∈ M))
    (hself : tpl ∈ M' → tpl ∈ M ∧ T'.depths (Trie.word tpl).reverse = retractedCounter T tpl depth)
    (t : Tuple) (d : ℕ) :
    depthCount nodeId T' t d =
      if t = tpl then (if T'.toTrie.countOf tpl = 0 then 0
        else retracted depth (depthCount nodeId T tpl) d)
      else depthCount nodeId T t d := by
  by_cases heq : t = tpl
  · subst heq
    rw [if_pos rfl]
    split
    next hzero => rw [depthCount, if_pos hzero]
    next hne =>
      rw [h'.loose.countOf_eq] at hne
      have hmem' : t ∈ M' := Multiset.count_pos.1 (Nat.pos_of_ne_zero hne)
      obtain ⟨hmem, hcounter⟩ := hself hmem'
      have hbefore : depthCount nodeId T t =
          DepthCounter.getCount (T.depths (Trie.word t).reverse) :=
        funext fun e => h.depthCount_of_mem hmem e
      rw [h'.depthCount_of_mem hmem', hcounter, hbefore]
      exact getCount_retracted (h.ordered _) depth d
  · rw [if_neg heq]
    exact h.depthCount_congr h' ht hdepths heq (hother t heq) d

/-- The count of a tuple's leaf that a retraction leaves. -/
def retractedCount (T : TupleTrie) (tpl : Tuple) (depth count : ℕ) : ℕ :=
  if count ≤ 1 then 0
  else if DepthCounter.getCount (DepthCounter.sub depth 1 (T.depths (Trie.word tpl).reverse))
      depth = 0 then
    subRefCount (count - 1) (DepthCounter.deleteDepthsAbove depth
      (DepthCounter.sub depth 1 (T.depths (Trie.word tpl).reverse))).2
  else count - 1

/-- **A retraction** touches the leaf of its tuple only, of which it leaves the count and the depth
counter that are due. -/
theorem Counted.remove_spec (h : Counted nodeId fields T M) (ht : TupleHasType tpl fields)
    {T' : TupleTrie} {b : Bool × Bool} (hr : T.remove nodeId true tpl depth = some (T', b)) :
    ∃ M', Counted nodeId fields T' M' ∧ (∀ t, t ≠ tpl → M'.count t = M.count t) ∧
      (∀ p, p ≠ (Trie.word tpl).reverse → T'.depths p = T.depths p) ∧
      M'.count tpl = retractedCount T tpl depth (M.count tpl) ∧
      (tpl ∈ M' → tpl ∈ M ∧ T'.depths (Trie.word tpl).reverse = retractedCounter T tpl depth) := by
  by_cases hmem : tpl ∈ M
  · obtain ⟨T₁, hany, hlast, hmore⟩ := h.loose.deleteTuple hmem
    have hpos := Multiset.count_pos.2 hmem
    obtain ⟨D₁, hD₁⟩ : ∃ D₁, D₁ = Function.update T.depths (Trie.word tpl).reverse
      (DepthCounter.sub depth 1 (T.depths (Trie.word tpl).reverse)) := ⟨_, rfl⟩
    have hself : D₁ (Trie.word tpl).reverse =
        DepthCounter.sub depth 1 (T.depths (Trie.word tpl).reverse) := by
      rw [hD₁, Function.update_self]
    have hrest : ∀ p, p ≠ (Trie.word tpl).reverse → D₁ p = T.depths p := by
      intro p hp
      rw [hD₁, Function.update_of_ne hp]
    have hordered : ∀ p, (D₁ p).Ordered := by
      rw [hD₁]
      exact ordered_update h.ordered ((h.ordered _).sub depth 1)
    have herase : ∀ t, t ≠ tpl → (M.erase tpl).count t = M.count t := fun t hne =>
      Multiset.count_erase_of_ne hne M
    have hcount : (M.erase tpl).count tpl = M.count tpl - 1 := Multiset.count_erase_self _ _
    by_cases hone : M.count tpl = 1
    · simp only [TupleTrie.remove, TupleTrie.deleteTuple, hany, decide_eq_true hone, if_true,
        ← hD₁, Option.some.injEq, Prod.mk.injEq] at hr
      obtain ⟨rfl, -⟩ := hr
      refine ⟨M.erase tpl, ⟨hlast hone, hordered⟩, herase, hrest, ?_, fun hin => ?_⟩
      · rw [hcount, retractedCount, if_pos (Nat.le_of_eq hone), hone]
      · rw [← Multiset.count_pos, hcount] at hin
        omega
    · have hloose := hmore hone
      have hmem₁ : tpl ∈ M.erase tpl := Multiset.count_pos.1 (by omega)
      have hmany : ¬ M.count tpl ≤ 1 := by omega
      simp only [TupleTrie.remove, TupleTrie.deleteTuple, hany, decide_eq_false hone, if_true,
        ← hD₁, hself, deleteDepthsAbove_eq, Bool.false_eq_true, if_false, true_and, zero_add,
        Bool.false_or] at hr
      by_cases hzero : DepthCounter.getCount
          (DepthCounter.sub depth 1 (T.depths (Trie.word tpl).reverse)) depth = 0
      · obtain ⟨kept, deleted, hkept⟩ : ∃ kept deleted, DepthCounter.deleteDepthsAbove depth
            (DepthCounter.sub depth 1 (T.depths (Trie.word tpl).reverse)) = (kept, deleted) :=
          ⟨_, _, rfl⟩
        obtain ⟨D₂, hD₂⟩ : ∃ D₂, D₂ = Function.update D₁ (Trie.word tpl).reverse kept := ⟨_, rfl⟩
        have hself₂ : D₂ (Trie.word tpl).reverse = retractedCounter T tpl depth := by
          rw [hD₂, Function.update_self, retractedCounter, if_pos hzero, hkept]
        have hrest₂ : ∀ p, p ≠ (Trie.word tpl).reverse → D₂ p = T.depths p := by
          intro p hp
          rw [hD₂, Function.update_of_ne hp, hrest p hp]
        have hordered₂ : ∀ p, (D₂ p).Ordered := by
          rw [hD₂, show kept = _ from (congrArg Prod.fst hkept).symm]
          exact ordered_update hordered (((h.ordered _).sub depth 1).deleteDepthsAbove depth)
        have hleft : (recount ⟨T₁, D₁⟩ tpl (subRefCount · deleted) D₂).leafCount
            (Trie.word tpl).reverse = subRefCount ((M.erase tpl).count tpl) deleted :=
          leafCount_recount (T := ⟨{ T₁ with numberOfReferences := (M.erase tpl).card }, D₁⟩)
            hloose hmem₁ (subRefCount · deleted) D₂
        have hdue : retractedCount T tpl depth (M.count tpl) =
            subRefCount ((M.erase tpl).count tpl) deleted := by
          rw [retractedCount, if_neg hmany, if_pos hzero, hkept, hcount]
        have hfilter : ∀ t, t ≠ tpl →
            ((M.erase tpl).filter (· ≠ tpl)).count t = M.count t := by
          intro t hne
          have hkeep : ((M.erase tpl).filter (· ≠ tpl)).count t = (M.erase tpl).count t :=
            Multiset.count_filter_of_pos hne
          rw [hkeep, herase t hne]
        have hnone : ((M.erase tpl).filter (· ≠ tpl)).count tpl = 0 := by simp
        rw [if_pos hzero, hkept, ← hD₂, hleft] at hr
        by_cases hgone : subRefCount ((M.erase tpl).count tpl) deleted = 0
        · rw [hgone, beq_self_eq_true, if_pos rfl, Option.some.injEq, Prod.mk.injEq] at hr
          obtain ⟨rfl, -⟩ := hr
          refine ⟨(M.erase tpl).filter (· ≠ tpl),
            ⟨loose_performDelete_recount hloose hmem₁ _ D₂ true deleted, hordered₂⟩, hfilter,
            hrest₂, ?_, fun hin => absurd rfl (Multiset.mem_filter.1 hin).2⟩
          rw [hnone, hdue, hgone]
        · rw [beq_eq_false_iff_ne.2 hgone, if_neg Bool.false_ne_true, Option.some.injEq,
            Prod.mk.injEq] at hr
          obtain ⟨rfl, -⟩ := hr
          refine ⟨(M.erase tpl).filter (· ≠ tpl) +
              Multiset.replicate (subRefCount ((M.erase tpl).count tpl) deleted) tpl,
            ⟨loose_recount (f := (subRefCount · deleted)) hloose hmem₁ (Nat.pos_of_ne_zero hgone)
              D₂, hordered₂⟩, fun t hne => ?_, hrest₂, ?_, fun _ => ⟨hmem, hself₂⟩⟩
          · rw [Multiset.count_add, hfilter t hne, Multiset.count_replicate, if_neg (Ne.symm hne),
              Nat.add_zero]
          · rw [Multiset.count_add, hnone, Multiset.count_replicate_self, hdue, Nat.zero_add]
      · rw [if_neg hzero, Option.some.injEq, Prod.mk.injEq] at hr
        obtain ⟨rfl, -⟩ := hr
        refine ⟨M.erase tpl, ⟨hloose, hordered⟩, herase, hrest, ?_, fun _ => ⟨hmem, ?_⟩⟩
        · rw [hcount, retractedCount, if_neg hmany, if_neg hzero]
        · rw [retractedCounter, if_neg hzero]
          exact hself
  · have hsame := remove_of_notMem h.loose.shape ht (fun l hl htpl =>
      hmem ((h.loose.represents.mem_iff _).2 ⟨l, hl, htpl⟩)) hr
    subst hsame
    have hzero := Multiset.count_eq_zero_of_notMem hmem
    refine ⟨M, h, fun _ _ => rfl, fun _ _ => rfl, ?_, fun hin => absurd hin hmem⟩
    rw [retractedCount, hzero, if_pos (Nat.zero_le 1)]

/-- **A retraction takes one derivation from its depth**, and the deeper ones when none is left
there; of a tuple that is gone nothing is recorded. -/
theorem Counted.remove (h : Counted nodeId fields T M) (ht : TupleHasType tpl fields)
    {T' : TupleTrie} {b : Bool × Bool} (hr : T.remove nodeId true tpl depth = some (T', b)) :
    (∃ M', Counted nodeId fields T' M') ∧
      ∀ t d, depthCount nodeId T' t d =
        if t = tpl then (if T'.toTrie.countOf tpl = 0 then 0
          else retracted depth (depthCount nodeId T tpl) d)
        else depthCount nodeId T t d := by
  obtain ⟨M', h', hother, hdepths, -, hself⟩ := h.remove_spec ht hr
  refine ⟨⟨M', h'⟩, h.depthCount_retracted h' ht hdepths (fun t hne => ?_) hself⟩
  rw [← Multiset.count_pos, ← Multiset.count_pos, hother t hne]

end TupleTrie

end Meld
