import Meld.Db.Node

/-!
# Both ways into a node lead to the same node

`Delivered` says what a delivery of facts leaves in a node, wherever the facts are at the moment:
for every linear predicate the tuples in the linear store together with those still waiting are the
old ones and the new ones, the two queues have grown by their facts, and the predicates that were
announced to the matcher together with those still to be announced are the right ones.  Every
single delivery satisfies it, it composes (`Delivered.trans`), and a final
`process_incoming_tuples` leaves nothing waiting.

* `NodeOk`: the store holds its tuples and the counters of the matcher are right.
* `deliver_delivered`: a sequence of deliveries, on any of the ways.
* `deliver_agree`: two sequences that bring the same facts, in any order, on any of the ways and in
  any packing, leave nodes that agree.
-/

namespace Meld

open LinearStore RuleMatcher

/-! ## Facts by their destination -/

namespace WorkFact

/-- The fact goes to the linear store. -/
def isStored (f : WorkFact) : Bool := !f.pred.isAction && !f.pred.isQueued

/-- The fact goes to the queue of persistent tuples. -/
def isPersistent (f : WorkFact) : Bool := !f.pred.isAction && f.pred.isQueued

/-- The fact as it is queued. -/
def full (f : WorkFact) : FullTuple := newFullTuple f.tpl f.pred f.dir f.depth

end WorkFact

/-- The tuples among the facts for one linear predicate. -/
def linearTuples (F : List WorkFact) (id : ℕ) : Multiset Tuple :=
  ((F.filter fun f => f.isStored && decide (f.pred.store.linearId = id)).map (·.tpl) : List Tuple)

/-- The facts for the queue of persistent tuples. -/
def persistentTuples (F : List WorkFact) : Multiset FullTuple :=
  ((F.filter (·.isPersistent)).map (·.full) : List FullTuple)

/-- The facts for the queue of action tuples. -/
def actionTuples (F : List WorkFact) : Multiset FullTuple :=
  ((F.filter (·.pred.isAction)).map (·.full) : List FullTuple)

/-- The predicates that the matcher is told about. -/
def storedIds (F : List WorkFact) : List PredicateId :=
  (F.filter (·.isStored)).map (·.pred.id)

/-- Tuples of one predicate as facts. -/
def factsOf (pred : WorkPredicate) (dir : Direction) (depth : ℕ) (ls : List Tuple) :
    List WorkFact :=
  ls.map fun tpl => ⟨tpl, pred, dir, depth⟩

section Destinations

variable (F G : List WorkFact)

theorem linearTuples_append (id : ℕ) :
    linearTuples (F ++ G) id = linearTuples F id + linearTuples G id := by
  simp [linearTuples]

theorem persistentTuples_append :
    persistentTuples (F ++ G) = persistentTuples F + persistentTuples G := by
  simp [persistentTuples]

theorem actionTuples_append : actionTuples (F ++ G) = actionTuples F + actionTuples G := by
  simp [actionTuples]

theorem storedIds_append : storedIds (F ++ G) = storedIds F ++ storedIds G := by
  simp [storedIds]

variable {F G}

theorem linearTuples_perm (h : F.Perm G) (id : ℕ) : linearTuples F id = linearTuples G id :=
  Multiset.coe_eq_coe.mpr ((h.filter _).map _)

theorem persistentTuples_perm (h : F.Perm G) : persistentTuples F = persistentTuples G :=
  Multiset.coe_eq_coe.mpr ((h.filter _).map _)

theorem actionTuples_perm (h : F.Perm G) : actionTuples F = actionTuples G :=
  Multiset.coe_eq_coe.mpr ((h.filter _).map _)

theorem storedIds_perm (h : F.Perm G) : (storedIds F).Perm (storedIds G) := (h.filter _).map _

end Destinations

section FactsOf

variable {pred : WorkPredicate} {dir : Direction} {depth : ℕ} (ls : List Tuple)

/-- Filtering the facts of one predicate by their predicate keeps all or none. -/
theorem filter_factsOf (p : WorkPredicate → Bool) :
    (factsOf pred dir depth ls).filter (fun f => p f.pred) =
      if p pred then factsOf pred dir depth ls else [] := by
  induction ls with
  | nil => simp [factsOf]
  | cons tpl ls ih =>
    rw [factsOf] at ih ⊢
    rw [List.map_cons, List.filter_cons, ih]
    split <;> rfl

theorem map_tpl_factsOf : (factsOf pred dir depth ls).map (·.tpl) = ls := by
  rw [factsOf, List.map_map]
  exact List.map_id ls

theorem map_full_factsOf :
    (factsOf pred dir depth ls).map (·.full) = ls.map fun tpl => newFullTuple tpl pred dir depth := by
  simp [factsOf, WorkFact.full]

theorem linearTuples_factsOf (id : ℕ) :
    linearTuples (factsOf pred dir depth ls) id =
      if pred.isAction = false ∧ pred.isQueued = false ∧ pred.store.linearId = id then
        (ls : Multiset Tuple) else 0 := by
  have h := @filter_factsOf pred dir depth ls fun q =>
    !q.isAction && !q.isQueued && decide (q.store.linearId = id)
  have hsame : linearTuples (factsOf pred dir depth ls) id =
      (((factsOf pred dir depth ls).filter fun f => !f.pred.isAction && !f.pred.isQueued &&
        decide (f.pred.store.linearId = id)).map (·.tpl) : List Tuple) := rfl
  rw [hsame, h]
  simp only [Bool.and_eq_true, Bool.not_eq_true', decide_eq_true_eq, and_assoc]
  split
  · rw [map_tpl_factsOf]
  · rfl

theorem persistentTuples_factsOf :
    persistentTuples (factsOf pred dir depth ls) =
      if pred.isAction = false ∧ pred.isQueued = true then
        ((ls.map fun tpl => newFullTuple tpl pred dir depth : List FullTuple) :
          Multiset FullTuple) else 0 := by
  have h := @filter_factsOf pred dir depth ls fun q =>
    !q.isAction && q.isQueued
  have hsame : persistentTuples (factsOf pred dir depth ls) =
      (((factsOf pred dir depth ls).filter fun f => !f.pred.isAction && f.pred.isQueued).map
        (·.full) : List FullTuple) := rfl
  rw [hsame, h]
  simp only [Bool.and_eq_true, Bool.not_eq_true']
  split
  · rw [map_full_factsOf]
  · rfl

theorem actionTuples_factsOf :
    actionTuples (factsOf pred dir depth ls) =
      if pred.isAction = true then
        ((ls.map fun tpl => newFullTuple tpl pred dir depth : List FullTuple) :
          Multiset FullTuple) else 0 := by
  rw [actionTuples, filter_factsOf ls fun q => q.isAction]
  split
  · rw [map_full_factsOf]
  · rfl

theorem mem_storedIds_factsOf (p : PredicateId) :
    p ∈ storedIds (factsOf pred dir depth ls) ↔
      pred.isAction = false ∧ pred.isQueued = false ∧ ls ≠ [] ∧ p = pred.id := by
  have h := @filter_factsOf pred dir depth ls fun q =>
    !q.isAction && !q.isQueued
  have hsame : storedIds (factsOf pred dir depth ls) =
      ((factsOf pred dir depth ls).filter fun f => !f.pred.isAction && !f.pred.isQueued).map
        (·.pred.id) := rfl
  rw [hsame, h]
  simp only [Bool.and_eq_true, Bool.not_eq_true']
  split
  · rename_i hc
    cases ls with
    | nil => simp [factsOf]
    | cons tpl ls => simp [factsOf, hc.1, hc.2, eq_comm]
  · rename_i hc
    constructor
    · exact fun hmem => absurd hmem List.not_mem_nil
    · rintro ⟨ha, hq, -⟩
      exact absurd ⟨ha, hq⟩ hc

end FactsOf

/-! ## What a delivery leaves -/

/-- The store of the node holds the tuples `M`, and the counters of its matcher are right. -/
structure NodeOk (P : WorkProgram) (n : DbNode) (M : ℕ → Multiset Tuple) : Prop where
  store : StoreOk P.linear n.linear M
  tally : Tally P.rules n.matcher

/-- Facts of the predicate wait in the temporary store. -/
def Pending (P : WorkProgram) (n : DbNode) (p : PredicateId) : Prop :=
  ∃ pred ∈ P.linearPredicates, pred.id = p ∧ n.store.incoming pred.store.linearId ≠ []

/-- What a delivery of the facts `F` leaves of the node `n`, which held the tuples `M`. -/
structure Delivered (P : WorkProgram) (F : List WorkFact) (n : DbNode) (M : ℕ → Multiset Tuple)
    (n' : DbNode) (M' : ℕ → Multiset Tuple) : Prop where
  ok : NodeOk P n' M'
  /-- every linear fact is in the store or waits for it -/
  linear : ∀ pred ∈ P.linearPredicates,
    M' pred.store.linearId + (n'.store.incoming pred.store.linearId : Multiset Tuple) =
      M pred.store.linearId + (n.store.incoming pred.store.linearId : Multiset Tuple) +
        linearTuples F pred.store.linearId
  /-- the other facts are queued -/
  persistent : (n'.store.incomingPersistentTuples : Multiset FullTuple) =
    (n.store.incomingPersistentTuples : Multiset FullTuple) + persistentTuples F
  action : (n'.store.incomingActionTuples : Multiset FullTuple) =
    (n.store.incomingActionTuples : Multiset FullTuple) + actionTuples F
  /-- the matcher was told about the predicates of which facts came to the store, and these are all
  of which no fact waits -/
  matcher : ∃ ids : List PredicateId, (∀ p ∈ ids, p < P.rules.numPredicates) ∧
    n'.matcher = announce P.rules n.matcher ids ∧
    (∀ p, p ∈ ids ∨ Pending P n' p ↔ Pending P n p ∨ p ∈ storedIds F) ∧
    ∀ pred ∈ P.linearPredicates, M pred.store.linearId ≤ M' pred.store.linearId ∧
      (pred.id ∈ ids ↔ M pred.store.linearId < M' pred.store.linearId)

namespace WorkProgram

variable {P : WorkProgram} {pred : WorkPredicate}

theorem id_lt (hpred : pred ∈ P.predicates) : pred.id < P.rules.numPredicates := by
  obtain ⟨i, hi⟩ := List.mem_iff_getElem?.mp hpred
  obtain ⟨hlt, -⟩ := List.getElem?_eq_some_iff.mp hi
  rw [P.numPredicates_eq, P.id_eq i pred hi]
  exact hlt

theorem mem_linearPredicates (hpred : pred ∈ P.predicates) (hqueued : pred.isQueued = false) :
    pred ∈ P.linearPredicates := by
  refine List.mem_filter.mpr ⟨hpred, ?_⟩
  simp only [WorkPredicate.isQueued, Bool.or_eq_false_iff, Bool.not_eq_false'] at hqueued
  exact hqueued.1

theorem mem_predicates (hpred : pred ∈ P.linearPredicates) : pred ∈ P.predicates :=
  (List.mem_filter.mp hpred).1

/-- Two predicates with one number are the same. -/
theorem eq_of_id {q : WorkPredicate} (hpred : pred ∈ P.linearPredicates)
    (hq : q ∈ P.linearPredicates) (heq : q.id = pred.id) : q = pred := by
  obtain ⟨i, hi⟩ := List.mem_iff_getElem?.mp (mem_predicates hpred)
  obtain ⟨j, hj⟩ := List.mem_iff_getElem?.mp (mem_predicates hq)
  have hij : j = i := (P.id_eq j q hj).symm.trans (heq.trans (P.id_eq i pred hi))
  rw [hij, hi, Option.some.injEq] at hj
  exact hj.symm

theorem mem_linear (hpred : pred ∈ P.linearPredicates) : pred.store ∈ P.linear.preds :=
  List.mem_map_of_mem hpred

/-- Two linear predicates with one number among them are the same. -/
theorem eq_of_linearId {q : WorkPredicate} (hpred : pred ∈ P.linearPredicates)
    (hq : q ∈ P.linearPredicates) (heq : q.store.linearId = pred.store.linearId) : q = pred := by
  obtain ⟨i, hi⟩ := List.mem_iff_getElem?.mp hpred
  obtain ⟨j, hj⟩ := List.mem_iff_getElem?.mp hq
  have hij : j = i := (P.linearId_eq j q hj).symm.trans (heq.trans (P.linearId_eq i pred hi))
  rw [hij, hi, Option.some.injEq] at hj
  exact hj.symm

end WorkProgram

section Steps

variable {P : WorkProgram} {n : DbNode} {M : ℕ → Multiset Tuple}

namespace Delivered

theorem refl (ok : NodeOk P n M) : Delivered P [] n M n M :=
  ⟨ok, fun _ _ => by simp [linearTuples], by simp [persistentTuples], by simp [actionTuples],
    [], by simp, rfl, by simp [storedIds], by simp⟩

/-- Deliveries compose. -/
theorem trans {F G : List WorkFact} {n₁ n₂ : DbNode} {M₁ M₂ : ℕ → Multiset Tuple}
    (h : Delivered P F n M n₁ M₁) (h' : Delivered P G n₁ M₁ n₂ M₂) :
    Delivered P (F ++ G) n M n₂ M₂ := by
  refine ⟨h'.ok, ?_, ?_, ?_, ?_⟩
  · intro pred hpred
    rw [h'.linear pred hpred, h.linear pred hpred, linearTuples_append, add_assoc]
  · rw [h'.persistent, h.persistent, persistentTuples_append, add_assoc]
  · rw [h'.action, h.action, actionTuples_append, add_assoc]
  · obtain ⟨ids, hids, hm, hpend, hnew⟩ := h.matcher
    obtain ⟨ids', hids', hm', hpend', hnew'⟩ := h'.matcher
    refine ⟨ids ++ ids', ?_, ?_, ?_, ?_⟩
    · intro p hp
      exact (List.mem_append.mp hp).elim (hids p) (hids' p)
    · rw [hm', hm, announce, announce, announce, List.foldl_append]
    · intro p
      rw [List.mem_append, or_assoc, hpend', ← or_assoc, hpend, storedIds_append, List.mem_append,
        or_assoc]
    · intro pred hpred
      obtain ⟨hle, hiff⟩ := hnew pred hpred
      obtain ⟨hle', hiff'⟩ := hnew' pred hpred
      refine ⟨hle.trans hle', ?_⟩
      rw [List.mem_append, hiff, hiff']
      constructor
      · rintro (hlt | hlt)
        · exact lt_of_lt_of_le hlt hle'
        · exact lt_of_le_of_lt hle hlt
      · intro hlt
        rcases hle.lt_or_eq with hlt' | heq
        · exact Or.inl hlt'
        · exact Or.inr (heq ▸ hlt)

/-- Setting `unprocessed_facts` is not seen. -/
theorem mark (ok : NodeOk P n M) :
    Delivered P [] n M { n with unprocessedFacts := true } M := by
  have h := refl ok
  exact ⟨⟨ok.store, ok.tally⟩, h.linear, h.persistent, h.action, h.matcher⟩

/-- Tuples of an action predicate. -/
theorem pushAction (ok : NodeOk P n M) {pred : WorkPredicate} (hact : pred.isAction = true)
    (dir : Direction) (depth : ℕ) (ls : List Tuple) :
    Delivered P (factsOf pred dir depth ls) n M
      { n with store := n.store.pushAction (ls.map fun tpl => newFullTuple tpl pred dir depth) }
      M := by
  refine ⟨⟨ok.store, ok.tally⟩, ?_, ?_, ?_, [], by simp, rfl, ?_, by simp⟩
  · intro q _
    rw [linearTuples_factsOf, if_neg (by simp [hact]), add_zero]
    rfl
  · rw [persistentTuples_factsOf, if_neg (by simp [hact]), add_zero]
    rfl
  · rw [actionTuples_factsOf, if_pos hact, TemporaryStore.pushAction, Multiset.coe_add]
  · intro p
    rw [mem_storedIds_factsOf]
    simp only [List.not_mem_nil, false_or, hact, Bool.true_eq_false, false_and, or_false]
    rfl

/-- Tuples of a persistent or reused predicate. -/
theorem pushPersistent (ok : NodeOk P n M) {pred : WorkPredicate} (hact : pred.isAction = false)
    (hqueued : pred.isQueued = true) (dir : Direction) (depth : ℕ) (ls : List Tuple) :
    Delivered P (factsOf pred dir depth ls) n M
      { n with
        store := n.store.pushPersistent (ls.map fun tpl => newFullTuple tpl pred dir depth) }
      M := by
  refine ⟨⟨ok.store, ok.tally⟩, ?_, ?_, ?_, [], by simp, rfl, ?_, by simp⟩
  · intro q _
    rw [linearTuples_factsOf, if_neg (by simp [hqueued]), add_zero]
    rfl
  · rw [persistentTuples_factsOf, if_pos ⟨hact, hqueued⟩, TemporaryStore.pushPersistent,
      Multiset.coe_add]
  · rw [actionTuples_factsOf, if_neg (by simp [hact]), add_zero]
    rfl
  · intro p
    rw [mem_storedIds_factsOf]
    simp only [List.not_mem_nil, false_or, hqueued, Bool.true_eq_false, false_and, and_false,
      or_false]
    rfl

/-- Linear tuples that are left to others. -/
theorem addIncomingList (ok : NodeOk P n M) {pred : WorkPredicate} (hpred : pred ∈ P.predicates)
    (hact : pred.isAction = false) (hqueued : pred.isQueued = false) (dir : Direction) (depth : ℕ)
    (ls : List Tuple) :
    Delivered P (factsOf pred dir depth ls) n M
      { n with store := n.store.addIncomingList ls pred } M := by
  have hlin := WorkProgram.mem_linearPredicates hpred hqueued
  refine ⟨⟨ok.store, ok.tally⟩, ?_, ?_, ?_, [], by simp, rfl, ?_, by simp⟩
  · intro q hq
    show M _ + ((n.store.addIncomingList ls pred).incoming _ : Multiset Tuple) = _
    rw [linearTuples_factsOf, TemporaryStore.incoming_addIncomingList]
    by_cases hid : q.store.linearId = pred.store.linearId
    · rw [if_pos ⟨hact, hqueued, hid.symm⟩, hid, Function.update_self, ← Multiset.coe_add,
        add_assoc]
    · rw [if_neg (fun h => hid h.2.2.symm), add_zero, Function.update_of_ne hid]
  · rw [persistentTuples_factsOf, if_neg (by simp [hqueued]), add_zero]
    rfl
  · rw [actionTuples_factsOf, if_neg (by simp [hact]), add_zero]
    rfl
  · intro p
    rw [mem_storedIds_factsOf]
    simp only [List.not_mem_nil, false_or, Pending, TemporaryStore.incoming_addIncomingList]
    constructor
    · rintro ⟨q, hq, rfl, hne⟩
      by_cases hid : q.store.linearId = pred.store.linearId
      · obtain rfl := WorkProgram.eq_of_linearId hlin hq hid
        rw [Function.update_self, ne_eq, List.append_eq_nil_iff, not_and_or] at hne
        rcases hne with hne | hne
        · exact Or.inl ⟨q, hq, rfl, hne⟩
        · exact Or.inr ⟨hact, hqueued, hne, rfl⟩
      · rw [Function.update_of_ne hid] at hne
        exact Or.inl ⟨q, hq, rfl, hne⟩
    · rintro (⟨q, hq, rfl, hne⟩ | ⟨-, -, hne, rfl⟩)
      · refine ⟨q, hq, rfl, ?_⟩
        by_cases hid : q.store.linearId = pred.store.linearId
        · rw [hid, Function.update_self, ← hid]
          exact fun h => hne (List.append_eq_nil_iff.mp h).1
        · rwa [Function.update_of_ne hid]
      · refine ⟨pred, hlin, rfl, ?_⟩
        rw [Function.update_self]
        exact fun h => hne (List.append_eq_nil_iff.mp h).2

/-- Linear tuples that go to the store, with one announcement.  The tuples are new or were waiting,
and `n'` is the node with the tuples that wait then. -/
theorem addTuples {F : List WorkFact} {n' : DbNode} (ok : NodeOk P n M) {pred : WorkPredicate}
    (hlin : pred ∈ P.linearPredicates) {ls : List Tuple} (hne : ls ≠ []) {linear : LinearStore}
    (hadd : n.linear.addTuples pred.store ls = some linear)
    (hlinear : n'.linear = linear)
    (hmatcher : n'.matcher = n.matcher.newLinearFact P.rules pred.id)
    (hwait : ∀ q ∈ P.linearPredicates, (if q.store.linearId = pred.store.linearId then
        (ls : Multiset Tuple) else 0) + (n'.store.incoming q.store.linearId : Multiset Tuple) =
      (n.store.incoming q.store.linearId : Multiset Tuple) + linearTuples F q.store.linearId)
    (hpers : n'.store.incomingPersistentTuples = n.store.incomingPersistentTuples)
    (haction : n'.store.incomingActionTuples = n.store.incomingActionTuples)
    (hpersF : persistentTuples F = 0) (hactionF : actionTuples F = 0)
    (hpend : ∀ p, p = pred.id ∨ Pending P n' p ↔ Pending P n p ∨ p ∈ storedIds F) :
    Delivered P F n M n' (Function.update M pred.store.linearId (M pred.store.linearId + ls)) := by
  have hp := WorkProgram.mem_linear hlin
  have hid := WorkProgram.id_lt (WorkProgram.mem_predicates hlin)
  obtain ⟨st', hadd', hch⟩ := addTuples_changes (ok.store.capacity _ hp) (ok.store.holds _ hp) ls
  rw [hadd, Option.some.injEq] at hadd'
  subst hadd'
  refine ⟨⟨hlinear ▸ ok.store.change hp hch, ?_⟩, ?_, ?_, ?_, [pred.id], ?_, hmatcher, ?_, ?_⟩
  · rw [hmatcher]
    exact (ok.tally.newLinearFact hid).tally
  · intro q hq
    have h := hwait q hq
    by_cases heq : q.store.linearId = pred.store.linearId
    · rw [if_pos heq, heq] at h
      rw [heq, Function.update_self, add_assoc, h, add_assoc]
    · rw [if_neg heq, zero_add] at h
      rw [Function.update_of_ne heq, h, add_assoc]
  · rw [hpers, hpersF, add_zero]
  · rw [haction, hactionF, add_zero]
  · intro p h
    rw [List.mem_singleton.mp h]
    exact hid
  · intro p
    rw [List.mem_singleton]
    exact hpend p
  · intro q hq
    by_cases heq : q.store.linearId = pred.store.linearId
    · obtain rfl := WorkProgram.eq_of_linearId hlin hq heq
      have hpos : (0 : Multiset Tuple) < ls := by
        rw [pos_iff_ne_zero, ne_eq, Multiset.coe_eq_zero]
        exact hne
      rw [Function.update_self]
      refine ⟨Multiset.le_add_right _ _, ?_⟩
      simpa using hpos
    · rw [Function.update_of_ne heq]
      have hid' : q.id ≠ pred.id := fun h => heq (by rw [WorkProgram.eq_of_id hlin hq h])
      simpa using hid'

/-- Linear tuples that the thread adds itself. -/
theorem addFactList (ok : NodeOk P n M) {pred : WorkPredicate} (hpred : pred ∈ P.predicates)
    (hact : pred.isAction = false) (hqueued : pred.isQueued = false) (dir : Direction) (depth : ℕ)
    {ls : List Tuple} (hne : ls ≠ []) :
    ∃ linear M', n.linear.addFactList ls pred.store = some linear ∧
      Delivered P (factsOf pred dir depth ls) n M
        { n with linear := linear, matcher := n.matcher.newLinearFact P.rules pred.id } M' := by
  have hlin := WorkProgram.mem_linearPredicates hpred hqueued
  have hp := WorkProgram.mem_linear hlin
  obtain ⟨linear, hadd, -⟩ := addTuples_changes (ok.store.capacity _ hp) (ok.store.holds _ hp) ls
  refine ⟨linear, _, hadd, addTuples ok hlin hne hadd rfl rfl ?_ rfl rfl ?_ ?_ ?_⟩
  · intro q hq
    rw [linearTuples_factsOf, add_comm]
    simp only [hact, hqueued, true_and, eq_comm]
  · rw [persistentTuples_factsOf, if_neg (by simp [hqueued])]
  · rw [actionTuples_factsOf, if_neg (by simp [hact])]
  · intro p
    rw [mem_storedIds_factsOf]
    simp only [hact, hqueued, hne, ne_eq, not_false_eq_true, true_and]
    exact or_comm

/-- One round of `process_incoming_tuples`: the tuples that wait go to the store. -/
theorem processIncoming (ok : NodeOk P n M) {i : ℕ} (hi : i < P.linearPredicates.length) :
    ∃ n' M', n.processIncoming P i = some n' ∧ Delivered P [] n M n' M' ∧
      n'.store.incoming = Function.update n.store.incoming i [] := by
  obtain ⟨pred, hget⟩ : ∃ pred, P.linearPredicates[i]? = some pred :=
    ⟨_, List.getElem?_eq_getElem hi⟩
  have hlin : pred ∈ P.linearPredicates := List.mem_of_getElem? hget
  have hid : pred.store.linearId = i := P.linearId_eq i pred hget
  by_cases hempty : n.store.incoming i = []
  · refine ⟨n, M, ?_, refl ok, ?_⟩
    · rw [DbNode.processIncoming, hempty]
      rfl
    · rw [← hempty, Function.update_eq_self]
  · have hp := WorkProgram.mem_linear hlin
    obtain ⟨linear, hadd, -⟩ := addTuples_changes (ok.store.capacity _ hp) (ok.store.holds _ hp)
      (n.store.incoming i)
    refine ⟨{ n with
        linear := linear
        matcher := n.matcher.newLinearFact P.rules pred.id
        store := { n.store with incoming := Function.update n.store.incoming i [] } }, _, ?_,
      addTuples (F := []) ok hlin hempty hadd rfl rfl ?_ rfl rfl rfl rfl ?_, rfl⟩
    · rw [DbNode.processIncoming, if_neg (by simpa using hempty), hget]
      simp only [Option.bind_eq_bind, Option.bind_some, incrementDatabase, hadd]
    · intro q hq
      show _ + (Function.update n.store.incoming i [] _ : Multiset Tuple) = _
      rw [hid]
      by_cases heq : q.store.linearId = i
      · rw [if_pos heq, heq, Function.update_self]
        rfl
      · rw [if_neg heq, Function.update_of_ne heq, zero_add]
        exact (add_zero _).symm
    · intro p
      constructor
      · rintro (rfl | ⟨q, hq, rfl, hne⟩)
        · exact Or.inl ⟨pred, hlin, rfl, hid ▸ hempty⟩
        · refine Or.inl ⟨q, hq, rfl, ?_⟩
          by_cases heq : q.store.linearId = i
          · rw [heq]
            exact hempty
          · change Function.update n.store.incoming i [] _ ≠ [] at hne
            rwa [Function.update_of_ne heq] at hne
      · rintro (⟨q, hq, rfl, hne⟩ | hp)
        · by_cases heq : q.store.linearId = i
          · left
            rw [WorkProgram.eq_of_linearId hlin hq (heq.trans hid.symm)]
          · refine Or.inr ⟨q, hq, rfl, ?_⟩
            show Function.update n.store.incoming i [] _ ≠ []
            rwa [Function.update_of_ne heq]
        · exact absurd hp List.not_mem_nil

end Delivered

/-! ## Runs of deliveries -/

theorem addItemMyself_delivered (ok : NodeOk P n M) {i : BufferItem} (hpred : i.pred ∈ P.predicates)
    (hact : i.pred.isAction = false) (hne : i.ls ≠ []) :
    ∃ n' M', n.addItemMyself P i = some n' ∧ Delivered P i.facts n M n' M' := by
  cases hqueued : i.pred.isQueued with
  | true =>
    refine ⟨_, M, ?_, Delivered.pushPersistent ok hact hqueued .positive 0 i.ls⟩
    rw [DbNode.addItemMyself, if_neg (by simp [hact]), if_pos hqueued, BufferItem.fullTuples]
  | false =>
    obtain ⟨linear, M', hadd, hd⟩ :=
      Delivered.addFactList ok hpred hact hqueued .positive 0 hne
    refine ⟨_, M', ?_, hd⟩
    rw [DbNode.addItemMyself, if_neg (by simp [hact]), if_neg (by simp [hqueued])]
    simp only [Option.bind_eq_bind, hadd, Option.bind_some]

theorem addItemOthers_delivered (ok : NodeOk P n M) {i : BufferItem}
    (hpred : i.pred ∈ P.predicates) :
    Delivered P i.facts n M (n.addItemOthers i) M := by
  rw [DbNode.addItemOthers]
  split
  · rename_i hact
    exact Delivered.pushAction ok hact .positive 0 i.ls
  · rename_i hact
    have hact' : i.pred.isAction = false := by simpa using hact
    split
    · rename_i hqueued
      exact Delivered.pushPersistent ok hact' hqueued .positive 0 i.ls
    · rename_i hqueued
      exact Delivered.addIncomingList ok hpred hact' (by simpa using hqueued) .positive 0 i.ls

/-- The loop of `add_work_myself` over a `buffer_node`. -/
theorem foldlM_addItemMyself (ok : NodeOk P n M) {b : BufferNode}
    (hb : ∀ i ∈ b, i.pred ∈ P.predicates ∧ i.pred.isAction = false ∧ i.ls ≠ []) :
    ∃ n' M', b.foldlM (DbNode.addItemMyself P) n = some n' ∧
      Delivered P (b.flatMap BufferItem.facts) n M n' M' := by
  induction b generalizing n M with
  | nil => exact ⟨n, M, rfl, Delivered.refl ok⟩
  | cons i b ih =>
    obtain ⟨hpred, hact, hne⟩ := hb i List.mem_cons_self
    obtain ⟨n₁, M₁, hi, hd⟩ := addItemMyself_delivered ok hpred hact hne
    obtain ⟨n', M', hrest, hd'⟩ := ih hd.ok fun j hj => hb j (List.mem_cons_of_mem _ hj)
    refine ⟨n', M', ?_, hd.trans hd'⟩
    rw [List.foldlM_cons, hi]
    exact hrest

/-- The loop of `add_work_others` over a `buffer_node`. -/
theorem foldl_addItemOthers (ok : NodeOk P n M) {b : BufferNode}
    (hb : ∀ i ∈ b, i.pred ∈ P.predicates) :
    Delivered P (b.flatMap BufferItem.facts) n M (b.foldl DbNode.addItemOthers n) M := by
  induction b generalizing n with
  | nil => exact Delivered.refl ok
  | cons i b ih =>
    have hd := addItemOthers_delivered ok (hb i List.mem_cons_self)
    exact hd.trans (ih hd.ok fun j hj => hb j (List.mem_cons_of_mem _ hj))

/-- One tuple is handled like a list of one, on both ways. -/
theorem addWorkMyself_delivered (ok : NodeOk P n M) (tpl : Tuple) {pred : WorkPredicate}
    (hpred : pred ∈ P.predicates) (dir : Direction) (depth : ℕ) :
    ∃ n' M', n.addWorkMyself P tpl pred dir depth = some n' ∧
      Delivered P [⟨tpl, pred, dir, depth⟩] n M n' M' := by
  have hmark := Delivered.mark ok
  cases hact : pred.isAction with
  | true =>
    refine ⟨_, M, ?_, hmark.trans (Delivered.pushAction hmark.ok hact dir depth [tpl])⟩
    rw [DbNode.addWorkMyself, DbNode.innerAddWorkMyself, if_pos hact]
    rfl
  | false =>
    cases hqueued : pred.isQueued with
    | true =>
      refine ⟨_, M, ?_, hmark.trans (Delivered.pushPersistent hmark.ok hact hqueued dir depth
        [tpl])⟩
      rw [DbNode.addWorkMyself, DbNode.innerAddWorkMyself, if_neg (by simp [hact]),
        if_pos hqueued]
      rfl
    | false =>
      obtain ⟨linear, M', hadd, hd⟩ :=
        Delivered.addFactList hmark.ok hpred hact hqueued dir depth (List.cons_ne_nil tpl [])
      refine ⟨_, M', ?_, hmark.trans hd⟩
      rw [DbNode.addWorkMyself, DbNode.innerAddWorkMyself, if_neg (by simp [hact]),
        if_neg (by simp [hqueued]), DbNode.addLinearFact]
      have hadd' : n.linear.addFact tpl pred.store = some linear := hadd
      simp only [Option.bind_eq_bind, hadd', Option.bind_some]

theorem addWorkOthers_delivered (ok : NodeOk P n M) (tpl : Tuple) {pred : WorkPredicate}
    (hpred : pred ∈ P.predicates) (dir : Direction) (depth : ℕ) :
    Delivered P [⟨tpl, pred, dir, depth⟩] n M (n.addWorkOthers tpl pred dir depth) M := by
  have hmark := Delivered.mark ok
  rw [DbNode.addWorkOthers, DbNode.innerAddWorkOthers]
  split
  · rename_i hact
    exact hmark.trans (Delivered.pushAction hmark.ok hact dir depth [tpl])
  · rename_i hact
    have hact' : pred.isAction = false := by simpa using hact
    split
    · rename_i hqueued
      exact hmark.trans (Delivered.pushPersistent hmark.ok hact' hqueued dir depth [tpl])
    · rename_i hqueued
      exact hmark.trans (Delivered.addIncomingList hmark.ok hpred hact' (by simpa using hqueued)
        dir depth [tpl])

/-- The loop of `process_incoming_tuples`, up to the predicate `k`. -/
theorem foldlM_processIncoming (ok : NodeOk P n M) {k : ℕ} (hk : k ≤ P.linearPredicates.length) :
    ∃ n' M', (List.range k).foldlM (DbNode.processIncoming P) n = some n' ∧
      Delivered P [] n M n' M' ∧ ∀ i < k, n'.store.incoming i = [] := by
  induction k with
  | zero => exact ⟨n, M, rfl, Delivered.refl ok, fun i hi => absurd hi (Nat.not_lt_zero i)⟩
  | succ k ih =>
    obtain ⟨n₁, M₁, hfold, hd, hempty⟩ := ih (by omega)
    obtain ⟨n', M', hrun, hd', hin⟩ := Delivered.processIncoming hd.ok (i := k) (by omega)
    refine ⟨n', M', ?_, hd.trans hd', ?_⟩
    · rw [List.range_succ, List.foldlM_append, hfold]
      simp [hrun]
    · intro i hi
      rw [hin]
      by_cases hik : i = k
      · rw [hik, Function.update_self]
      · rw [Function.update_of_ne hik]
        exact hempty i (by omega)

/-- **`process_incoming_tuples`** leaves nothing waiting. -/
theorem processIncomingTuples_delivered (ok : NodeOk P n M) :
    ∃ n' M', n.processIncomingTuples P = some n' ∧ Delivered P [] n M n' M' ∧
      ∀ pred ∈ P.linearPredicates, n'.store.incoming pred.store.linearId = [] := by
  obtain ⟨n', M', hrun, hd, hempty⟩ := foldlM_processIncoming ok le_rfl
  refine ⟨n', M', hrun, hd, ?_⟩
  intro pred hpred
  obtain ⟨i, hi⟩ := List.mem_iff_getElem?.mp hpred
  obtain ⟨hlt, -⟩ := List.getElem?_eq_some_iff.mp hi
  rw [P.linearId_eq i pred hi]
  exact hempty i hlt

/-- **One delivery.** -/
theorem run_delivered (ok : NodeOk P n M) {d : Delivery} (hd : d.Valid P) :
    ∃ n' M', d.run P n = some n' ∧ Delivered P d.facts n M n' M' := by
  have hmark := Delivered.mark ok
  cases d with
  | myself w =>
    cases w with
    | tuple tpl pred dir depth => exact addWorkMyself_delivered ok tpl hd dir depth
    | buffer b =>
      obtain ⟨n', M', hrun, hdel⟩ := foldlM_addItemMyself hmark.ok hd
      exact ⟨n', M', hrun, hmark.trans hdel⟩
  | others w =>
    cases w with
    | tuple tpl pred dir depth => exact ⟨_, M, rfl, addWorkOthers_delivered ok tpl hd dir depth⟩
    | buffer b =>
      exact ⟨_, M, rfl, hmark.trans (foldl_addItemOthers hmark.ok fun i hi => (hd i hi).1)⟩
  | process =>
    obtain ⟨n', M', hrun, hdel, -⟩ := processIncomingTuples_delivered ok
    exact ⟨n', M', hrun, hdel⟩

/-- **A sequence of deliveries**, by induction on it. -/
theorem deliver_delivered (ok : NodeOk P n M) {ds : List Delivery} (hds : ∀ d ∈ ds, d.Valid P) :
    ∃ n' M', n.deliver P ds = some n' ∧ Delivered P (ds.flatMap Delivery.facts) n M n' M' := by
  induction ds generalizing n M with
  | nil => exact ⟨n, M, rfl, Delivered.refl ok⟩
  | cons d ds ih =>
    obtain ⟨n₁, M₁, hrun, hdel⟩ := run_delivered ok (hds d List.mem_cons_self)
    obtain ⟨n', M', hrest, hdel'⟩ := ih hdel.ok fun e he => hds e (List.mem_cons_of_mem _ he)
    refine ⟨n', M', ?_, hdel.trans hdel'⟩
    rw [DbNode.deliver, List.foldlM_cons, hrun]
    exact hrest

end Steps

/-! ## The two ways agree -/

/-- The two nodes hold the same facts and their matchers are in the same state: the linear tuples of
every predicate and the queued tuples agree as multisets, and nothing waits. -/
structure NodesAgree (P : WorkProgram) (n₁ n₂ : DbNode) : Prop where
  linear : ∀ pred ∈ P.linearPredicates, ∃ ls₁ ls₂ : List Tuple,
    n₁.linear.contents pred.store.linearId = some ls₁ ∧
      n₂.linear.contents pred.store.linearId = some ls₂ ∧ ls₁.Perm ls₂
  waiting : ∀ pred ∈ P.linearPredicates, n₁.store.incoming pred.store.linearId = [] ∧
    n₂.store.incoming pred.store.linearId = []
  persistent : n₁.store.incomingPersistentTuples.Perm n₂.store.incomingPersistentTuples
  action : n₁.store.incomingActionTuples.Perm n₂.store.incomingActionTuples
  matcher : RuleMatcher.Same n₁.matcher n₂.matcher

theorem not_pending {P : WorkProgram} {n : DbNode}
    (h : ∀ pred ∈ P.linearPredicates, n.store.incoming pred.store.linearId = []) (p : PredicateId) :
    ¬ Pending P n p := by
  rintro ⟨pred, hpred, -, hne⟩
  exact hne (h pred hpred)

/-- Deliveries of the same facts after which nothing waits leave nodes that agree. -/
theorem Delivered.agree {P : WorkProgram} {F G : List WorkFact} {n n₁ n₂ : DbNode}
    {M M₁ M₂ : ℕ → Multiset Tuple} (ok : NodeOk P n M) (h₁ : Delivered P F n M n₁ M₁)
    (h₂ : Delivered P G n M n₂ M₂) (hsame : F.Perm G)
    (hw₁ : ∀ pred ∈ P.linearPredicates, n₁.store.incoming pred.store.linearId = [])
    (hw₂ : ∀ pred ∈ P.linearPredicates, n₂.store.incoming pred.store.linearId = []) :
    NodesAgree P n₁ n₂ := by
  refine ⟨?_, fun pred hpred => ⟨hw₁ pred hpred, hw₂ pred hpred⟩, ?_, ?_, ?_⟩
  · intro pred hpred
    have hp := WorkProgram.mem_linear hpred
    obtain ⟨ls₁, hc₁, hls₁⟩ := h₁.ok.store.faithful.contents _ hp
    obtain ⟨ls₂, hc₂, hls₂⟩ := h₂.ok.store.faithful.contents _ hp
    refine ⟨ls₁, ls₂, hc₁, hc₂, Multiset.coe_eq_coe.mp ?_⟩
    have e₁ := h₁.linear pred hpred
    have e₂ := h₂.linear pred hpred
    rw [hw₁ pred hpred, Multiset.coe_nil, add_zero] at e₁
    rw [hw₂ pred hpred, Multiset.coe_nil, add_zero, ← linearTuples_perm hsame, ← e₁] at e₂
    rw [hls₁, hls₂, e₂]
  · refine Multiset.coe_eq_coe.mp ?_
    rw [h₁.persistent, h₂.persistent, persistentTuples_perm hsame]
  · refine Multiset.coe_eq_coe.mp ?_
    rw [h₁.action, h₂.action, actionTuples_perm hsame]
  · obtain ⟨ids₁, hids₁, hm₁, hp₁, -⟩ := h₁.matcher
    obtain ⟨ids₂, hids₂, hm₂, hp₂, -⟩ := h₂.matcher
    have hspec₁ := announce_spec ok.tally ids₁ hids₁
    have hspec₂ := announce_spec ok.tally ids₂ hids₂
    rw [hm₁, hm₂]
    refine hspec₁.same hspec₂ ?_
    intro p
    have e₁ := hp₁ p
    have e₂ := hp₂ p
    rw [or_iff_left (not_pending hw₁ p)] at e₁
    rw [or_iff_left (not_pending hw₂ p)] at e₂
    rw [e₁, e₂, (storedIds_perm hsame).mem_iff]

/-- A new node is empty. -/
theorem nodeOk_create (P : WorkProgram) : NodeOk P (DbNode.create P) fun _ => 0 :=
  ⟨storeOk_create P.linear, tally_create P.rules⟩

/-- A node whose store and matcher went through any operations. -/
theorem nodeOk_of_reach {P : WorkProgram} {n : DbNode} {M : ℕ → Multiset Tuple}
    (hstore : LinearStore.Reach P.linear (fun st op => op.Safe st) n.linear M)
    {ops : List (RuleMatcher.Op P.rules)} (hmatcher : n.matcher = RuleMatcher.run P.rules ops) :
    NodeOk P n M :=
  ⟨reach_storeOk hstore, hmatcher ▸ tally_run P.rules ops⟩

/-- **Both ways into a node lead to the same node.**  Two sequences of deliveries that bring the
same facts, each followed by `process_incoming_tuples`, succeed and leave nodes that agree: in
whatever order the facts come, whether they are added at once or left to others, one by one or in
lists, and whenever the waiting ones are moved over in between. -/
theorem deliver_agree {P : WorkProgram} {n : DbNode} {M : ℕ → Multiset Tuple} (ok : NodeOk P n M)
    {ds es : List Delivery} (hds : ∀ d ∈ ds, d.Valid P) (hes : ∀ e ∈ es, e.Valid P)
    (hsame : (ds.flatMap Delivery.facts).Perm (es.flatMap Delivery.facts)) :
    ∃ n₁ n₂, n.deliver P (ds ++ [.process]) = some n₁ ∧
      n.deliver P (es ++ [.process]) = some n₂ ∧ NodesAgree P n₁ n₂ := by
  have hrun : ∀ {ds : List Delivery}, (∀ d ∈ ds, d.Valid P) →
      ∃ n' M', n.deliver P (ds ++ [.process]) = some n' ∧
        Delivered P (ds.flatMap Delivery.facts) n M n' M' ∧
        ∀ pred ∈ P.linearPredicates, n'.store.incoming pred.store.linearId = [] := by
    intro ds hds
    obtain ⟨n₀, M₀, hdel₀, hd₀⟩ := deliver_delivered ok hds
    obtain ⟨n', M', hproc, hd', hempty⟩ := processIncomingTuples_delivered hd₀.ok
    refine ⟨n', M', ?_, ?_, hempty⟩
    · rw [DbNode.deliver] at hdel₀ ⊢
      rw [List.foldlM_append, hdel₀]
      simp [Delivery.run, hproc]
    · simpa using hd₀.trans hd'
  obtain ⟨n₁, M₁, hrun₁, hd₁, hw₁⟩ := hrun hds
  obtain ⟨n₂, M₂, hrun₂, hd₂, hw₂⟩ := hrun hes
  exact ⟨n₁, n₂, hrun₁, hrun₂, hd₁.agree ok hd₂ hsame hw₁ hw₂⟩

/-- A program with a linear, an action and a persistent predicate, and a rule that needs two facts
of the first and one of the last. -/
def threeKinds : WorkProgram where
  rules := ⟨3, [[0, 0, 2]], by decide⟩
  predicates := [⟨0, true, false, false, ⟨0, true, 0⟩⟩, ⟨1, true, true, false, ⟨1, false, 0⟩⟩,
    ⟨2, false, false, false, ⟨0, false, 0⟩⟩]
  numPredicates_eq := rfl
  id_eq := by
    intro i p hp
    match i with
    | 0 | 1 | 2 => simp_all; rw [← hp]
    | i + 3 => simp at hp
  linearId_eq := by
    intro i p hp
    match i with
    | 0 | 1 => simp_all; rw [← hp]
    | i + 2 => simp at hp

/-- A fact of the predicate. -/
def threeKindsTuple (i k : ℕ) : Work :=
  .tuple [.int (BitVec.ofNat 32 k)] (threeKinds.predicates.getD i ⟨0, true, false, false, ⟨0, true, 0⟩⟩)
    .positive 0

theorem deliver_agree_threeKinds :
    ∃ n₁ n₂, (DbNode.create threeKinds).deliver threeKinds
        ([.myself (threeKindsTuple 0 5), .others (threeKindsTuple 1 7),
          .myself (threeKindsTuple 0 6), .others (threeKindsTuple 2 8)] ++ [.process]) = some n₁ ∧
      (DbNode.create threeKinds).deliver threeKinds
        ([.myself (threeKindsTuple 2 8), .process, .others (.buffer
          [⟨⟨0, true, false, false, ⟨0, true, 0⟩⟩, [[.int 6], [.int 5]]⟩]),
          .myself (threeKindsTuple 1 7)] ++ [.process]) = some n₂ ∧
      NodesAgree threeKinds n₁ n₂ := by
  refine deliver_agree (nodeOk_create _) ?_ ?_ (by decide +kernel)
  · simp [Delivery.Valid, Work.Valid, threeKindsTuple, threeKinds]
  · simp [Delivery.Valid, Work.Valid, threeKindsTuple, threeKinds]

end Meld
