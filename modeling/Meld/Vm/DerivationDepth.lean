import Meld.Db.TupleTrieDepths
import Meld.Vm.PersistentTuples

/-!
# The depth of a derivation

A derivation of a cycle predicate has a depth, which travels with the full tuple and is to be
recorded in the depth counter of the tuple's leaf, where a retraction of the same depth looks for
it. The direct path records the current depth of the interpreter, which is also the depth it would
give to a full tuple.  The path through the queue records the current depth too, although the tuple
comes with a depth of its own: whatever `setup` left there for the tuple, rule or iterate before it.

* `Ledger`: the derivations of every tuple by their own depths.
* `Records`: a step records one derivation at a depth.
* `Reach`, `reach_depthCount`: as long as queued tuples meet the interpreter at their own depth, the
  depth counters are the ledger.
* `recorded_depth`: when the queue records a tuple's own depth, and what a retraction then finds.
* `not_forall_records`: the second of two tuples of depth zero is recorded at depth one.
-/

namespace Meld
namespace DerivationDepth

/-- The derivations of every tuple, by the depths they came with. -/
abbrev Ledger := PredicateId → Tuple → ℕ → ℕ

/-- One more derivation. -/
def derive (O : Ledger) (p : PredicateId) (t : Tuple) (d : ℕ) : Ledger := fun q u e =>
  O q u e + if q = p ∧ u = t ∧ e = d then 1 else 0

/-- One retraction: it takes one derivation from its depth, and the deeper ones when none is left
there; of a tuple that is gone nothing remains. -/
def retract (O : Ledger) (p : PredicateId) (t : Tuple) (d : ℕ) (gone : Bool) : Ledger :=
  fun q u e =>
    if q = p ∧ u = t then (if gone then 0 else TupleTrie.retracted d (O p t) e) else O q u e

variable (P : Program) (preds : PredicateId → Predicate) (nodeId : BitVec 64 → ℕ)

/-- The step records one derivation of the tuple at the depth. -/
def Records (s s' : NodeState) (p : PredicateId) (t : Tuple) (d : ℕ) : Prop :=
  ∀ e, (s'.tries p).depthCount nodeId t e =
    (s.tries p).depthCount nodeId t e + if e = d then 1 else 0

/-- The states of a node, with the ledger: the interpreter sets its depth, adds tuples directly at
its depth, and processes queued tuples, the derived ones of which are allowed. -/
inductive Reach (allowed : NodeState → FullTuple → Prop) : NodeState → Ledger → Prop where
  | create : Reach allowed (.create P) fun _ _ _ => 0
  | setup {s O} (h : Reach allowed s O) (pred : Option Predicate) (dir : Direction) (dpt : ℕ) :
      Reach allowed (s.setup pred dir dpt) O
  | direct {s O} (h : Reach allowed s O) {p : PredicateId} {t : Tuple}
      (ht : TupleHasType t (preds p).fields) :
      Reach allowed (s.addNodePersistent P preds nodeId p t) (derive O p t s.depth)
  | positive {s O} (h : Reach allowed s O) {x : FullTuple}
      (ht : TupleHasType x.data (preds x.pred).fields) (hallowed : allowed s x) :
      Reach allowed (s.processPositive P preds nodeId x) (derive O x.pred x.data x.depth)
  | negative {s O s'} (h : Reach allowed s O) {x : FullTuple}
      (ht : TupleHasType x.data (preds x.pred).fields)
      (hs' : s.processNegative P preds nodeId x = some s') :
      Reach allowed s' (retract O x.pred x.data x.depth
        ((s'.tries x.pred).toTrie.countOf x.data == 0))
  | contribute {s O s' list} (h : Reach allowed s O) {x : FullTuple} {typ : AggregateType}
      {field : ℕ} (hs' : s.addToAggregate preds nodeId x typ field = some (s', list)) :
      Reach allowed s' O

variable {P preds nodeId} {s s' : NodeState} {O : Ledger} {x : FullTuple}
  {allowed : NodeState → FullTuple → Prop}

/-! ## What the steps do to the tries -/

theorem tries_processPositive (s : NodeState) (x : FullTuple) :
    (s.processPositive P preds nodeId x).tries = Function.update s.tries x.pred
      ((s.tries x.pred).insertTuple nodeId (preds x.pred).isCycle x.data s.depth).1 := by
  simp only [NodeState.processPositive]
  split <;> rfl

theorem tries_processNegative (hs' : s.processNegative P preds nodeId x = some s') :
    ∃ T b, (s.tries x.pred).remove nodeId (preds x.pred).isCycle x.data x.depth = some (T, b) ∧
      s'.tries = Function.update s.tries x.pred T := by
  obtain ⟨⟨T, b⟩, hr, rfl⟩ := Option.map_eq_some_iff.1 hs'
  refine ⟨T, b, hr, ?_⟩
  simp only
  split <;> rfl

theorem tries_addToAggregate {typ : AggregateType} {field : ℕ} {list : List FullTuple}
    (hs' : s.addToAggregate preds nodeId x typ field = some (s', list)) : s'.tries = s.tries := by
  obtain ⟨r, -, heq⟩ := Option.map_eq_some_iff.1 hs'
  obtain ⟨rfl, -⟩ := Prod.mk.inj heq
  rfl

/-- The tries of all cycle predicates hold some multiset, as far as their leaves are concerned. -/
def Counted (preds : PredicateId → Predicate) (nodeId : BitVec 64 → ℕ) (s : NodeState) : Prop :=
  ∀ p, (preds p).isCycle = true → ∃ M, (s.tries p).Counted nodeId (preds p).fields M

/-- The depth counters of all cycle predicates are the ledger. -/
def Agrees (preds : PredicateId → Predicate) (nodeId : BitVec 64 → ℕ) (s : NodeState)
    (O : Ledger) : Prop :=
  ∀ p, (preds p).isCycle = true → ∀ t e, (s.tries p).depthCount nodeId t e = O p t e

/-- An insertion at the current depth, by either path. -/
theorem Counted.insert (h : Counted preds nodeId s) {p : PredicateId} {t : Tuple}
    (ht : TupleHasType t (preds p).fields) (htries : s'.tries = Function.update s.tries p
      ((s.tries p).insertTuple nodeId (preds p).isCycle t s.depth).1) :
    Counted preds nodeId s' ∧ ((preds p).isCycle = true → Records nodeId s s' p t s.depth) ∧
      (Agrees preds nodeId s O → Agrees preds nodeId s' (derive O p t s.depth)) := by
  refine ⟨fun q hq => ?_, fun hp e => ?_, fun hO q hq u e => ?_⟩
  · rw [htries]
    by_cases hqp : q = p
    · subst hqp
      obtain ⟨M, hM⟩ := h q hq
      rw [Function.update_self, hq]
      exact ⟨_, (hM.insertTuple ht s.depth).1⟩
    · rw [Function.update_of_ne hqp]
      exact h q hq
  · obtain ⟨M, hM⟩ := h p hp
    rw [htries, Function.update_self, hp, (hM.insertTuple ht s.depth).2]
    simp only [true_and]
  · rw [htries, derive]
    by_cases hqp : q = p
    · subst hqp
      obtain ⟨M, hM⟩ := h q hq
      rw [Function.update_self, hq, (hM.insertTuple ht s.depth).2, hO q hq]
      simp only [true_and]
    · rw [Function.update_of_ne hqp, hO q hq, if_neg fun hb => hqp hb.1, Nat.add_zero]

/-- A retraction. -/
theorem Counted.retract (h : Counted preds nodeId s)
    (ht : TupleHasType x.data (preds x.pred).fields)
    (hs' : s.processNegative P preds nodeId x = some s') :
    Counted preds nodeId s' ∧ (Agrees preds nodeId s O → Agrees preds nodeId s'
      (retract O x.pred x.data x.depth ((s'.tries x.pred).toTrie.countOf x.data == 0))) := by
  obtain ⟨T, b, hr, htries⟩ := tries_processNegative hs'
  refine ⟨fun q hq => ?_, fun hO q hq u e => ?_⟩
  · rw [htries]
    by_cases hqp : q = x.pred
    · subst hqp
      obtain ⟨M, hM⟩ := h _ hq
      rw [hq] at hr
      rw [Function.update_self]
      exact (hM.remove ht hr).1
    · rw [Function.update_of_ne hqp]
      exact h q hq
  · rw [htries, DerivationDepth.retract]
    by_cases hqp : q = x.pred
    · subst hqp
      obtain ⟨M, hM⟩ := h _ hq
      rw [hq] at hr
      have hbefore : (s.tries x.pred).depthCount nodeId x.data = O x.pred x.data :=
        funext (hO _ hq x.data)
      rw [Function.update_self, (hM.remove ht hr).2, hO _ hq, hbefore]
      simp only [true_and, beq_iff_eq]
    · rw [Function.update_of_ne hqp, hO q hq, if_neg fun hb => hqp hb.1]

/-! ## Runs -/

theorem counted_create (P : Program) : Counted preds nodeId (.create P) :=
  fun _ _ => ⟨0, TupleTrie.counted_empty⟩

/-- In every state the tries of cycle predicates hold some multiset. -/
theorem reach_counted (h : Reach P preds nodeId allowed s O) : Counted preds nodeId s := by
  induction h with
  | create => exact counted_create P
  | setup h pred dir dpt ih => exact ih
  | direct h ht ih => exact (ih.insert (O := fun _ _ _ => 0) ht rfl).1
  | positive h ht hallowed ih =>
    exact (ih.insert (O := fun _ _ _ => 0) ht (tries_processPositive _ _)).1
  | negative h ht hs' ih => exact (ih.retract (O := fun _ _ _ => 0) ht hs').1
  | contribute h hs' ih =>
    intro p hp
    rw [tries_addToAggregate hs']
    exact ih p hp

/-- As long as queued tuples of cycle predicates meet the interpreter at their own depth, the depth
counters are the ledger. -/
theorem reach_agrees (h : Reach P preds nodeId
    (fun s x => (preds x.pred).isCycle = true → s.depth = x.depth) s O) :
    Agrees preds nodeId s O := by
  induction h with
  | create => exact fun _ _ _ _ => rfl
  | setup h pred dir dpt ih => exact ih
  | direct h ht ih => exact ((reach_counted h).insert ht rfl).2.2 ih
  | @positive s O h x ht hallowed ih =>
    intro q hq u e
    have hcounts := ((reach_counted h).insert ht (tries_processPositive (P := P) s x)).2.2 ih q hq
      u e
    rw [hcounts, derive, derive]
    by_cases hqx : q = x.pred
    · rw [hallowed (hqx ▸ hq)]
    · rw [if_neg fun hb => hqx hb.1, if_neg fun hb => hqx hb.1]
  | negative h ht hs' ih => exact ((reach_counted h).retract ht hs').2 ih
  | contribute h hs' ih =>
    intro p hp t e
    rw [tries_addToAggregate hs']
    exact ih p hp t e

/-- A queued tuple is recorded at its own depth exactly when this is the current depth of the
interpreter. -/
theorem records_iff (h : Counted preds nodeId s) (hcycle : (preds x.pred).isCycle = true)
    (ht : TupleHasType x.data (preds x.pred).fields) :
    Records nodeId s (s.processPositive P preds nodeId x) x.pred x.data x.depth ↔
      s.depth = x.depth := by
  have hrec := (h.insert (O := fun _ _ _ => 0) ht (tries_processPositive (P := P) s x)).2.1 hcycle
  constructor
  · intro hown
    have h1 := hrec x.depth
    rw [hown x.depth, if_pos rfl] at h1
    by_contra hne
    rw [if_neg (Ne.symm hne)] at h1
    omega
  · intro heq
    rw [← heq]
    exact hrec

/-- **The depth that the queue records.**  In every state of a node, a queued derivation of a cycle
predicate is recorded at its own depth if and only if the interpreter, as the last `setup` left it,
is at this depth; the direct path always records the depth of the interpreter.  And in every run in
which all queued derivations of cycle predicates meet the interpreter at their own depth, a
retraction finds the derivations of its depth and takes one of them away. -/
theorem recorded_depth (P : Program) (preds : PredicateId → Predicate) (nodeId : BitVec 64 → ℕ) :
    (∀ s O, Reach P preds nodeId (fun _ _ => True) s O → ∀ x : FullTuple,
      (preds x.pred).isCycle = true → TupleHasType x.data (preds x.pred).fields →
        (Records nodeId s (s.processPositive P preds nodeId x) x.pred x.data x.depth ↔
          s.depth = x.depth) ∧
        Records nodeId s (s.addNodePersistent P preds nodeId x.pred x.data) x.pred x.data
          s.depth) ∧
    ∀ s O, Reach P preds nodeId
        (fun s x => (preds x.pred).isCycle = true → s.depth = x.depth) s O →
      ∀ x : FullTuple, (preds x.pred).isCycle = true →
        TupleHasType x.data (preds x.pred).fields → 0 < O x.pred x.data x.depth →
          ∃ T info, (s.tries x.pred).deleteTuple nodeId true x.data x.depth =
              some (T, some info) ∧
            DepthCounter.getCount ((s.tries x.pred).depths info.leaf) x.depth =
              O x.pred x.data x.depth ∧
            DepthCounter.getCount (T.depths info.leaf) x.depth =
              O x.pred x.data x.depth - 1 := by
  refine ⟨fun s O h x hcycle ht => ?_, fun s O h x hcycle ht hpos => ?_⟩
  · have hcounted := reach_counted h
    exact ⟨records_iff hcounted hcycle ht, (hcounted.insert (O := O) ht rfl).2.1 hcycle⟩
  · obtain ⟨M, hM⟩ := reach_counted h x.pred hcycle
    have hagree := reach_agrees h x.pred hcycle x.data x.depth
    have hmem : x.data ∈ M := by
      by_contra hmem
      rw [hM.depthCount_of_notMem hmem] at hagree
      omega
    rw [hM.depthCount_of_mem hmem] at hagree
    obtain ⟨T₁, hany, -, -⟩ := hM.loose.deleteTuple hmem
    refine ⟨⟨T₁, Function.update (s.tries x.pred).depths (Trie.word x.data).reverse
      (DepthCounter.sub x.depth 1 ((s.tries x.pred).depths (Trie.word x.data).reverse))⟩,
      ⟨(Trie.word x.data).reverse, decide (M.count x.data = 1),
        if decide (M.count x.data = 1) then 1 else 0⟩, ?_, hagree, ?_⟩
    · simp only [TupleTrie.deleteTuple, hany, if_true]
    · simp only [Function.update_self]
      rw [DepthCounter.getCount_sub (hM.ordered _), if_pos rfl, hagree]

/-- A cycle predicate with one integer field. -/
def cyclePredicate : Predicate := .plain [.int] true

/-- A program with one predicate and no rules. -/
def onlyCycles : Program := .noRules 1

/-- A derivation of depth zero. -/
def atZero (i : BitVec 32) : FullTuple := ⟨[.int i], 0, .positive, 0, false⟩

/-- The first tuple of a fresh node meets the interpreter at depth zero. -/
theorem recorded_depth_atZero :
    Records (fun _ => 0) (.create onlyCycles) (NodeState.processPositive onlyCycles
      (fun _ => cyclePredicate) (fun _ => 0) (.create onlyCycles) (atZero 7)) 0 [.int 7] 0 :=
  (((recorded_depth onlyCycles (fun _ => cyclePredicate) fun _ => 0).1 _ _ .create (atZero 7) rfl
    (.cons (.int 7) .nil)).1).2 rfl

/-- **The queue does not always record a tuple's own depth.**  `setup` for the first of two tuples
of depth zero leaves the interpreter at depth one, where the second is recorded. -/
theorem not_forall_records :
    ¬ ∀ s O, Reach onlyCycles (fun _ => cyclePredicate) (fun _ => 0) (fun _ _ => True) s O →
      ∀ x : FullTuple, TupleHasType x.data cyclePredicate.fields →
        Records (fun _ => 0) s (s.processPositive onlyCycles (fun _ => cyclePredicate)
          (fun _ => 0) x) x.pred x.data x.depth := by
  intro hall
  have htyped : ∀ i, TupleHasType (atZero i).data cyclePredicate.fields := fun i =>
    .cons (.int i) .nil
  have hreach := Reach.positive (x := atZero 7)
    (@Reach.create onlyCycles (fun _ => cyclePredicate) (fun _ => 0) fun _ _ => True) (htyped 7)
    trivial
  have hown := hall _ _ hreach (atZero 8) (htyped 8)
  rw [records_iff (reach_counted hreach) rfl (htyped 8)] at hown
  exact absurd hown (by decide)

end DerivationDepth

end Meld
