import Meld.Db.TupleTrie

/-!
# The size of the trie of a cycle predicate

The size of a trie counts derivations, and so do its leaves.  For cycle predicates a retraction can
take more than one derivation away: when none is left at its depth, all deeper ones go as well.  If
that empties the leaf, `perform_delete` takes them all from the size; if shallower derivations keep
the leaf, nothing does.

* `derivations`: the sum of the counts of the leaves.
* `Undercut`: a retraction that takes deeper derivations away while others stay.
* `Reach`, `reach_size`: as long as no retraction is one of these, the size is the sum.
* `not_forall_reach_size`: three derivations and a retraction after which it is not.
-/

namespace Meld
namespace TupleTrie

/-- The sum of the counts of the leaves. -/
def derivations (T : TupleTrie) : ℕ := (T.toTrie.leaves.map TrieLeaf.count).sum

/-- The depth counter of a tuple's leaf without one derivation of the given depth. -/
def remaining (nodeId : BitVec 64 → ℕ) (T : TupleTrie) (tpl : Tuple) (depth : ℕ) : DepthCounter :=
  DepthCounter.sub depth 1 (T.depths (T.toTrie.leafNode nodeId tpl))

/-- The derivations that go with a retraction because they are deeper: those recorded above its
depth, when none is left at that depth. -/
def undermined (nodeId : BitVec 64 → ℕ) (T : TupleTrie) (tpl : Tuple) (depth : ℕ) : ℕ :=
  if (remaining nodeId T tpl depth).getCount depth = 0 then
    (DepthCounter.deleteDepthsAbove depth (remaining nodeId T tpl depth)).2
  else 0

/-- The retraction takes deeper derivations away while the leaf stays. -/
def Undercut (nodeId : BitVec 64 → ℕ) (T : TupleTrie) (tpl : Tuple) (depth : ℕ) : Prop :=
  1 < T.toTrie.countOf tpl ∧ undermined nodeId T tpl depth ≠ 0 ∧
    undermined nodeId T tpl depth ≠ T.toTrie.countOf tpl - 1

/-- The states of the trie of a cycle predicate: insertions, and retractions as the callers do them
when these are allowed. -/
inductive Reach (nodeId : BitVec 64 → ℕ) (fields : List FieldType)
    (allowed : TupleTrie → Tuple → ℕ → Prop) : TupleTrie → Prop where
  | empty : Reach nodeId fields allowed empty
  | insert {T} (h : Reach nodeId fields allowed T) {tpl : Tuple} (ht : TupleHasType tpl fields)
      (depth : ℕ) : Reach nodeId fields allowed (T.insertTuple nodeId true tpl depth).1
  | remove {T} (h : Reach nodeId fields allowed T) {tpl : Tuple} (ht : TupleHasType tpl fields)
      {depth : ℕ} (hallowed : allowed T tpl depth) {T' : TupleTrie} {b : Bool × Bool}
      (hr : T.remove nodeId true tpl depth = some (T', b)) : Reach nodeId fields allowed T'

variable {nodeId : BitVec 64 → ℕ} {fields : List FieldType} {T : TupleTrie} {M : Multiset Tuple}
  {tpl : Tuple} {depth : ℕ}

/-- The size of a trie that holds a multiset is the sum of the counts. -/
theorem size_eq_derivations (h : T.toTrie.Inv nodeId fields M) : T.size = T.derivations := by
  have hsum := h.sum_leaves fun _ => 1
  simp only [Nat.nsmul_eq_mul, mul_one, Multiset.map_const', Multiset.sum_replicate] at hsum
  exact h.represents.size_eq.trans hsum.symm

/-- No two leaves of a trie have the same address. -/
theorem nodup_node (h : T.toTrie.Inv nodeId fields M) :
    (T.toTrie.leaves.map TrieLeaf.node).Nodup :=
  h.shape.nodup.of_map.map_on fun _ hl _ hm hnode => h.shape.eq_of_node_eq hl hm hnode

/-- The trie with another count at the leaf of a tuple. -/
def recount (T : TupleTrie) (tpl : Tuple) (f : ℕ → ℕ) (D : TriePath → DepthCounter) : TupleTrie :=
  ⟨⟨T.toTrie.child, Trie.updateCount (Trie.word tpl).reverse f T.toTrie.leaves,
    T.toTrie.numberOfReferences⟩, D⟩

/-- A count that stays is no change. -/
theorem recount_of_forall (T : TupleTrie) (tpl : Tuple) {f : ℕ → ℕ} (hf : ∀ n, f n = n)
    {D : TriePath → DepthCounter} : (T.recount tpl f D).toTrie = T.toTrie := by
  have hleaves : Trie.updateCount (Trie.word tpl).reverse f T.toTrie.leaves = T.toTrie.leaves := by
    refine (List.map_congr_left fun l _ => ?_).trans (List.map_id _)
    rw [hf, ite_self, id]
  rw [recount, hleaves]

/-- The count of a leaf after it was changed. -/
theorem leafCount_recount (h : T.toTrie.Inv nodeId fields M) (hmem : tpl ∈ M) (f : ℕ → ℕ)
    (D : TriePath → DepthCounter) :
    (T.recount tpl f D).leafCount (Trie.word tpl).reverse = f (M.count tpl) := by
  obtain ⟨l, hl, rfl, -⟩ := h.descend_present hmem
  have hnode := (h.shape.node_eq l hl).2
  have hin : { l with count := f l.count } ∈
      Trie.updateCount (Trie.word l.tpl).reverse f T.toTrie.leaves :=
    Trie.mem_updateCount.2 ⟨l, hl, by rw [if_pos hnode]⟩
  have hmap : (Trie.updateCount (Trie.word l.tpl).reverse f T.toTrie.leaves).map
      TrieLeaf.node = T.toTrie.leaves.map TrieLeaf.node := by
    rw [Trie.updateCount, List.map_map]
    exact List.map_congr_left fun m _ => (Trie.updateCount_node_tpl _ f m).1
  have hnodup := nodup_node h
  rw [← hmap] at hnodup
  have hsum := Trie.sum_filter_key hnodup hin
  rw [← h.represents.count_eq l hl]
  simp only [leafCount, recount, ← hnode] at hsum ⊢
  exact hsum

/-- Taking all copies of a tuple out, whatever the count of its leaf was. -/
theorem inv_performDelete_recount (h : T.toTrie.Inv nodeId fields M) (hmem : tpl ∈ M)
    (f : ℕ → ℕ) (D : TriePath → DepthCounter) (b : Bool) :
    ((T.recount tpl f D).performDelete nodeId
      ⟨(Trie.word tpl).reverse, b, M.count tpl⟩).toTrie.Inv nodeId fields
      (M.filter (· ≠ tpl)) := by
  obtain ⟨l, hl, rfl, -⟩ := h.descend_present hmem
  have hnode := (h.shape.node_eq l hl).2
  have hzero : (M.filter (· ≠ l.tpl)).count l.tpl = 0 := by simp
  -- With its count set to one, the leaf is due like any other.
  have hone := @Trie.Inv.updateCount _ _ _ _ h _ hl (fun _ => 1)
    (l.tpl ::ₘ M.filter (· ≠ l.tpl)) _
    (by rw [Multiset.count_cons_self, hzero])
    (fun t ht => by
      rw [Multiset.count_cons_of_ne ht]
      exact Multiset.count_filter_of_pos ht)
    (Multiset.mem_cons_self _ _) rfl
  have hin : { l with count := 1 } ∈ Trie.updateCount l.node (fun _ => 1) T.toTrie.leaves :=
    Trie.mem_updateCount.2 ⟨l, hl, by rw [if_pos rfl]⟩
  have hdel := hone.performDelete hin (by rw [Multiset.count_cons_self, hzero])
  rw [Multiset.erase_cons_head] at hdel
  have hcard : M.card = M.count l.tpl + (M.filter (· ≠ l.tpl)).card := by
    rw [Multiset.card_eq_countP_add_countP (· = l.tpl), ← Multiset.countP_eq_card_filter]
    congr 1
    exact Multiset.countP_congr rfl fun t _ => propext eq_comm
  have hsame : (performDelete nodeId (T.recount l.tpl f D)
      ⟨(Trie.word l.tpl).reverse, b, M.count l.tpl⟩).toTrie = Trie.performDelete nodeId
        ⟨T.toTrie.child, Trie.updateCount l.node (· - 1) (Trie.updateCount l.node (fun _ => 1)
          T.toTrie.leaves), (l.tpl ::ₘ M.filter (· ≠ l.tpl)).card⟩ l.node := by
    simp only [performDelete, recount, Trie.performDelete, ← hnode, Trie.filter_updateCount]
    congr 1
    rw [h.represents.size_eq, Multiset.card_cons]
    omega
  rw [hsame]
  exact hdel

/-- Removing a tuple that is not there leaves the trie as it is. -/
theorem remove_of_notMem (hS : Trie.Shape nodeId fields T.toTrie.child T.toTrie.leaves)
    (ht : TupleHasType tpl fields) (habs : ∀ l ∈ T.toTrie.leaves, l.tpl ≠ tpl) {T' : TupleTrie}
    {b : Bool × Bool} (hr : T.remove nodeId true tpl depth = some (T', b)) : T' = T := by
  rcases hS.deleteAny_of_not_mem ht habs with hdel | hdel
  · simp [remove, deleteTuple, hdel] at hr
  · simp only [remove, deleteTuple, hdel, Option.some.injEq, Prod.mk.injEq] at hr
    exact hr.1.symm

/-- With the deeper derivations taken from the depth counter of the leaf of a tuple, and from its
count. -/
theorem deleteDepthsAbove_eq (T : TupleTrie) (tpl : Tuple) (depth : ℕ) (toDel : Bool)
    (decrease : ℕ) :
    T.deleteDepthsAbove ⟨(Trie.word tpl).reverse, toDel, decrease⟩ depth =
      (let r := DepthCounter.deleteDepthsAbove depth (T.depths (Trie.word tpl).reverse)
      let T' := T.recount tpl (subRefCount · r.2)
        (Function.update T.depths (Trie.word tpl).reverse r.1)
      (T', ⟨(Trie.word tpl).reverse, toDel || T'.leafCount (Trie.word tpl).reverse == 0,
        decrease + r.2⟩)) := rfl

/-- **A retraction that does not undercut** leaves a trie of some multiset. -/
theorem inv_remove (h : T.toTrie.Inv nodeId fields M) (ht : TupleHasType tpl fields)
    (hok : ¬ Undercut nodeId T tpl depth) {T' : TupleTrie} {b : Bool × Bool}
    (hr : T.remove nodeId true tpl depth = some (T', b)) :
    ∃ M', T'.toTrie.Inv nodeId fields M' := by
  by_cases hmem : tpl ∈ M
  · obtain ⟨T₁, hdel, hlast, hmore⟩ := h.deleteTuple hmem
    have hany := h.deleteAny hmem
    rw [hdel] at hany
    have hpos := Multiset.count_pos.2 hmem
    by_cases hone : M.count tpl = 1
    · simp only [remove, deleteTuple, hany, decide_eq_true hone, if_true, Option.some.injEq,
        Prod.mk.injEq] at hr
      rw [← hr.1]
      exact ⟨_, hlast hone⟩
    · have hinv := hmore hone
      have hcount : (M.erase tpl).count tpl = M.count tpl - 1 := Multiset.count_erase_self _ _
      have hmem₁ : tpl ∈ M.erase tpl := Multiset.count_pos.1 (by omega)
      obtain ⟨D₁, hD₁⟩ : ∃ D₁, D₁ = Function.update T.depths (Trie.word tpl).reverse
        (DepthCounter.sub depth 1 (T.depths (Trie.word tpl).reverse)) := ⟨_, rfl⟩
      have hself : D₁ (Trie.word tpl).reverse = remaining nodeId T tpl depth := by
        rw [hD₁, Function.update_self, remaining, h.leafNode_eq hmem]
      simp only [remove, deleteTuple, hany, decide_eq_false hone, if_true, ← hD₁, hself,
        deleteDepthsAbove_eq, Bool.false_eq_true, if_false, true_and, zero_add] at hr
      by_cases hzero : (remaining nodeId T tpl depth).getCount depth = 0
      · have hunder : undermined nodeId T tpl depth =
            (DepthCounter.deleteDepthsAbove depth (remaining nodeId T tpl depth)).2 := by
          rw [undermined, if_pos hzero]
        have hle : 1 < T.toTrie.countOf tpl := by
          rw [h.represents.countOf_eq]
          omega
        have hleft := leafCount_recount (T := ⟨T₁, D₁⟩) hinv hmem₁
          (subRefCount · (undermined nodeId T tpl depth)) (Function.update D₁
            (Trie.word tpl).reverse (DepthCounter.deleteDepthsAbove depth
              (remaining nodeId T tpl depth)).1)
        rw [if_pos hzero, ← hunder, hleft, Bool.false_or] at hr
        by_cases hnone : undermined nodeId T tpl depth = 0
        · -- No deeper derivation: nothing changes.
          have hkeep : ∀ n, subRefCount n (undermined nodeId T tpl depth) = n := by
            intro n
            rw [hnone, subRefCount, if_pos (Nat.zero_le n), Nat.sub_zero]
          have hstays : ((M.erase tpl).count tpl == 0) = false := by
            rw [beq_eq_false_iff_ne, hcount]
            omega
          rw [hkeep, hstays, if_neg Bool.false_ne_true, Option.some.injEq, Prod.mk.injEq] at hr
          refine ⟨M.erase tpl, ?_⟩
          rw [← hr.1, recount_of_forall _ _ hkeep]
          exact hinv
        · -- All the rest is deeper: the leaf goes.
          have hall : undermined nodeId T tpl depth = (M.erase tpl).count tpl := by
            by_contra hne
            refine hok ⟨hle, hnone, fun heq => hne ?_⟩
            rw [heq, h.represents.countOf_eq, hcount]
          have hgone : subRefCount ((M.erase tpl).count tpl) (undermined nodeId T tpl depth) =
              0 := by
            rw [hall, subRefCount, if_pos le_rfl, Nat.sub_self]
          rw [hgone, beq_self_eq_true, if_pos rfl, Option.some.injEq, Prod.mk.injEq, hall] at hr
          rw [← hr.1]
          exact ⟨_, inv_performDelete_recount (T := ⟨T₁, D₁⟩) hinv hmem₁ _ _ _⟩
      · rw [if_neg hzero, Option.some.injEq, Prod.mk.injEq] at hr
        rw [← hr.1]
        exact ⟨_, hinv⟩
  · rw [remove_of_notMem h.shape ht (fun l hl htpl =>
      hmem ((h.represents.mem_iff _).2 ⟨l, hl, htpl⟩)) hr]
    exact ⟨M, h⟩

/-- The trie of a run without undercutting retractions holds a multiset. -/
theorem reach_inv (h : Reach nodeId fields (fun T tpl depth => ¬ Undercut nodeId T tpl depth) T) :
    ∃ M, T.toTrie.Inv nodeId fields M := by
  induction h with
  | empty => exact ⟨0, Trie.inv_empty⟩
  | insert h ht depth ih =>
    obtain ⟨M, hM⟩ := ih
    exact ⟨_, (insertTuple_spec hM ht true depth).1⟩
  | remove h ht hok hr ih =>
    obtain ⟨M, hM⟩ := ih
    exact inv_remove hM ht hok hr

/-- **The size is the sum of the counts** in every state of a run in which no retraction takes
deeper derivations away while others keep the leaf, and also between `delete_tuple` and
`delete_depths_above` when no leaf is due. -/
theorem reach_size (h : Reach nodeId fields (fun T tpl depth => ¬ Undercut nodeId T tpl depth) T) :
    T.size = T.derivations ∧
      ∀ tpl, TupleHasType tpl fields → ∀ depth T₁ info,
        T.deleteTuple nodeId true tpl depth = some (T₁, some info) → info.toDel = false →
          T₁.size = T₁.derivations := by
  obtain ⟨M, hM⟩ := reach_inv h
  refine ⟨size_eq_derivations hM, fun tpl ht depth T₁ info hdel hstays => ?_⟩
  have hmem : tpl ∈ M := by
    by_contra hmem
    rcases hM.shape.deleteAny_of_not_mem ht (fun l hl htpl =>
      hmem ((hM.represents.mem_iff _).2 ⟨l, hl, htpl⟩)) with hnone | hnone <;>
      simp [deleteTuple, hnone] at hdel
  obtain ⟨T₂, hdel₂, -, hmore⟩ := hM.deleteTuple hmem
  have hany := hM.deleteAny hmem
  rw [hdel₂] at hany
  simp only [deleteTuple, hany, Option.some.injEq, Prod.mk.injEq] at hdel
  obtain ⟨rfl, rfl⟩ := hdel
  exact size_eq_derivations (hmore (of_decide_eq_false hstays))

/-- One derivation of a tuple after another, at the given depths. -/
def sevenAt (depths : List ℕ) : TupleTrie :=
  depths.foldl (fun T depth => (T.insertTuple (fun _ => 0) true [.int 7] depth).1) empty

theorem reach_sevenAt (allowed : TupleTrie → Tuple → ℕ → Prop) (depths : List ℕ) :
    Reach (fun _ => 0) [.int] allowed (sevenAt depths) := by
  induction depths using List.reverseRecOn with
  | nil => exact .empty
  | append_singleton depths depth ih =>
    rw [sevenAt, List.foldl_append]
    exact ih.insert (.cons (.int 7) .nil) depth

/-- A retraction that takes all derivations away: with nothing left at depth zero, the ones above it
go too. -/
theorem reach_size_sevenAt :
    ∃ T b, (sevenAt [0, 1, 2]).remove (fun _ => 0) true [.int 7] 0 = some (T, b) ∧
      T.size = T.derivations ∧ T.derivations = 0 := by
  obtain ⟨T, b, hr, hnone⟩ : ∃ T b,
      (sevenAt [0, 1, 2]).remove (fun _ => 0) true [.int 7] 0 = some (T, b) ∧
        T.derivations = 0 := ⟨_, _, rfl, rfl⟩
  refine ⟨T, b, hr,
    (reach_size (.remove (reach_sevenAt _ [0, 1, 2]) (.cons (.int 7) .nil) ?_ hr)).1, hnone⟩
  rintro ⟨-, -, hne⟩
  exact hne rfl

/-- **The size is not always the sum of the counts.**  Of derivations at depths zero, one and two,
the retraction of the second also takes the third away, which the size keeps. -/
theorem not_forall_reach_size :
    ¬ ∀ T, Reach (fun _ => 0) [.int] (fun _ _ _ => True) T → T.size = T.derivations := by
  intro hall
  obtain ⟨T, b, hr, hsize, hderivations⟩ : ∃ T b,
      (sevenAt [0, 1, 2]).remove (fun _ => 0) true [.int 7] 1 = some (T, b) ∧ T.size = 2 ∧
        T.derivations = 1 := ⟨_, _, rfl, rfl, rfl⟩
  have hsum := hall T (.remove (reach_sevenAt _ [0, 1, 2]) (.cons (.int 7) .nil) trivial hr)
  rw [hsize, hderivations] at hsum
  exact absurd hsum (by decide)

end TupleTrie

end Meld
