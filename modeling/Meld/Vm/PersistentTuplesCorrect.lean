import Meld.Vm.PersistentTuples
import Meld.Vm.RuleMatcherInvariant

/-!
# The queue of persistent tuples is drained faithfully

What waits in the queue is a sequence of changes to the multisets of tuples of the predicates.  As
long as no prefix of it removes a tuple more often than it is present, draining the queue performs
all of them, whether they were cancelled in the queue or carried out, and an aggregate predicate
ends up with one tuple for every group that has contributions.

* `Holds`: what the tries, the aggregates and the matcher have to do with the multisets.
* `Pending`: what may stand in the queue, announcements included.
* `step_spec`, `drain_spec`: one round of the loop, and all of them.
* `Reach`, `reach_holds`: the states a node gets into.
* `doPersistentTuples_counts`, `doPersistentTuples_aggregates`: the results.
-/

namespace Meld
namespace NodeState

open Change

/-- The tuples in the tries of the predicates and in their aggregates: for an aggregate predicate,
the announced tuples carry the tag and the contributions do not. -/
abbrev Contents := PredicateId → Bool → Multiset Tuple

/-- The changes that a queue holds for the tagged or untagged tuples of one predicate. -/
def changes (p : PredicateId) (tag : Bool) (q : List FullTuple) : List (Change Tuple) :=
  (q.filter fun x => decide (x.pred = p ∧ x.isAggregate = tag)).map FullTuple.change

/-- The contents after one more change. -/
def bump (U : Contents) (x : FullTuple) : Contents := fun p tag =>
  if x.pred = p ∧ x.isAggregate = tag then x.change.apply (U p tag) else U p tag

/-- The announced tuple as a multiset. -/
def announced : Option Tuple → Multiset Tuple
  | none => 0
  | some t => {t}

section Queue

variable {p : PredicateId} {tag : Bool} {x : FullTuple} {q r : List FullTuple} {U : Contents}

@[simp] theorem changes_nil (p : PredicateId) (tag : Bool) : changes p tag [] = [] := rfl

theorem changes_cons_of_pos (h : x.pred = p ∧ x.isAggregate = tag) (q : List FullTuple) :
    changes p tag (x :: q) = x.change :: changes p tag q := by
  simp [changes, h]

theorem changes_cons_of_neg (h : ¬ (x.pred = p ∧ x.isAggregate = tag)) (q : List FullTuple) :
    changes p tag (x :: q) = changes p tag q := by
  simp only [changes, List.filter_cons, decide_eq_false h]
  rfl

theorem changes_append (p : PredicateId) (tag : Bool) (q r : List FullTuple) :
    changes p tag (q ++ r) = changes p tag q ++ changes p tag r := by
  simp [changes]

/-- Taking a tuple from the front and performing it does not change where the queue leads. -/
theorem total_bump (U : Contents) (x : FullTuple) (q : List FullTuple) (p : PredicateId)
    (tag : Bool) :
    total (bump U x p tag) (changes p tag q) = total (U p tag) (changes p tag (x :: q)) := by
  by_cases h : x.pred = p ∧ x.isAggregate = tag
  · rw [changes_cons_of_pos h, total_cons, bump, if_pos h]
  · rw [changes_cons_of_neg h, bump, if_neg h]

theorem mem_of_admissible (h : Admissible (U x.pred x.isAggregate)
    (changes x.pred x.isAggregate (x :: q))) (hdir : x.dir = .negative) :
    x.data ∈ U x.pred x.isAggregate := by
  rw [changes_cons_of_pos ⟨rfl, rfl⟩, FullTuple.change, hdir] at h
  exact (admissible_cons_remove.1 h).1

theorem admissible_bump (h : ∀ p tag, Admissible (U p tag) (changes p tag (x :: q)))
    (p : PredicateId) (tag : Bool) : Admissible (bump U x p tag) (changes p tag q) := by
  have hp := h p tag
  by_cases hx : x.pred = p ∧ x.isAggregate = tag
  · rw [changes_cons_of_pos hx] at hp
    rw [bump, if_pos hx]
    rw [FullTuple.change] at hp ⊢
    rcases hdir : x.dir with _ | _ <;> rw [hdir] at hp
    · exact admissible_cons_add.1 hp
    · exact (admissible_cons_remove.1 hp).2
  · rw [changes_cons_of_neg hx] at hp
    rwa [bump, if_neg hx]

/-- What `search_for_negative_tuple` finds is the first retraction of the tuple. -/
theorem searchForNegativeTuple_spec {rest : List FullTuple}
    (h : searchForNegativeTuple x q = some rest) :
    ∃ l y m, q = l ++ y :: m ∧ rest = l ++ m ∧ y.pred = x.pred ∧
      y.isAggregate = x.isAggregate ∧ y.change = .remove x.data ∧
      Change.remove x.data ∉ changes x.pred x.isAggregate l := by
  induction q generalizing rest with
  | nil => simp [searchForNegativeTuple] at h
  | cons z q ih =>
    rw [searchForNegativeTuple] at h
    split at h
    next hz =>
      obtain rfl := Option.some.inj h
      refine ⟨[], z, q, rfl, rfl, hz.1.symm, hz.2.1, ?_, by simp⟩
      rw [FullTuple.change, hz.2.2.1, hz.2.2.2]
    next hz =>
      obtain ⟨rest', hrest', rfl⟩ := Option.map_eq_some_iff.1 h
      obtain ⟨l, y, m, rfl, rfl, hpred, htag, hchange, hfirst⟩ := ih hrest'
      refine ⟨z :: l, y, m, rfl, rfl, hpred, htag, hchange, ?_⟩
      by_cases hsame : z.pred = x.pred ∧ z.isAggregate = x.isAggregate
      · rw [changes_cons_of_pos hsame, List.mem_cons, not_or]
        refine ⟨fun heq => hz ?_, hfirst⟩
        rw [FullTuple.change] at heq
        rcases hdir : z.dir with _ | _ <;> rw [hdir] at heq
        · cases heq
        · exact ⟨hsame.1.symm, hsame.2, rfl, (Change.remove.inj heq).symm⟩
      · rw [changes_cons_of_neg hsame]
        exact hfirst

/-- Dropping a tuple together with its first retraction keeps the queue admissible and leads to the
same contents. -/
theorem cancel_spec {rest : List FullTuple} (hdir : x.dir = .positive)
    (h : searchForNegativeTuple x q = some rest)
    (hadm : ∀ p tag, Admissible (U p tag) (changes p tag (x :: q))) (p : PredicateId)
    (tag : Bool) :
    Admissible (U p tag) (changes p tag rest) ∧
      total (U p tag) (changes p tag rest) = total (U p tag) (changes p tag (x :: q)) := by
  obtain ⟨l, y, m, rfl, rfl, hpred, htag, hchange, hfirst⟩ := searchForNegativeTuple_spec h
  have hp := hadm p tag
  by_cases hx : x.pred = p ∧ x.isAggregate = tag
  · obtain ⟨rfl, rfl⟩ := hx
    have hxc : x.change = .add x.data := by rw [FullTuple.change, hdir]
    have hqueue : changes x.pred x.isAggregate (x :: (l ++ y :: m)) = .add x.data ::
        (changes x.pred x.isAggregate l ++ .remove x.data :: changes x.pred x.isAggregate m) := by
      rw [changes_cons_of_pos ⟨rfl, rfl⟩, changes_append, changes_cons_of_pos ⟨hpred, htag⟩, hxc,
        hchange]
    rw [hqueue] at hp ⊢
    rw [changes_append]
    exact ⟨hp.cancel hfirst, total_cancel hp hfirst⟩
  · have hy : ¬ (y.pred = p ∧ y.isAggregate = tag) := by
      rw [hpred, htag]
      exact hx
    have hqueue : changes p tag (x :: (l ++ y :: m)) = changes p tag (l ++ m) := by
      rw [changes_cons_of_neg hx, changes_append, changes_cons_of_neg hy, ← changes_append]
    rw [hqueue] at hp ⊢
    exact ⟨hp, rfl⟩

theorem sublist_of_searchForNegativeTuple {rest : List FullTuple}
    (h : searchForNegativeTuple x q = some rest) : rest.Sublist q := by
  obtain ⟨l, y, m, rfl, rfl, -⟩ := searchForNegativeTuple_spec h
  exact (List.sublist_cons_self y m).append_left l

end Queue

/-! ## Announcements -/

section Announce

variable {field : ℕ} {key : Tuple} {W : Multiset Tuple} {old new : Option Tuple}

/-- The announced changes can be performed and lead to the new tuple of the group. -/
theorem announce_spec (hold : groupOf field key W = announced old)
    (hnew : ∀ t, new = some t → t.take field = key) :
    Admissible W (announce old new) ∧
      groupOf field key (total W (announce old new)) = announced new := by
  have hmem : ∀ t, old = some t → t ∈ W ∧ t.take field = key := by
    intro t ht
    rw [ht] at hold
    have hin : t ∈ groupOf field key W := by
      rw [hold]
      exact Multiset.mem_singleton_self t
    exact Multiset.mem_filter.1 hin
  have hadd : ∀ t V, new = some t → groupOf field key V = 0 →
      groupOf field key (t ::ₘ V) = {t} := by
    intro t V ht hV
    rw [← hnew t ht] at hV ⊢
    rw [groupOf_add, hV, Multiset.cons_zero]
  have hremove : ∀ t, old = some t → groupOf field key (W.erase t) = 0 := by
    intro t ht
    obtain ⟨hin, hkey⟩ := hmem t ht
    rw [ht] at hold
    rw [← hkey] at hold ⊢
    rw [groupOf_remove hin, hold]
    exact Multiset.erase_singleton t
  rcases old with _ | o <;> rcases new with _ | n
  · exact ⟨admissible_nil W, hold⟩
  · exact ⟨admissible_cons_add.2 (admissible_nil _), hadd n W rfl hold⟩
  · exact ⟨admissible_cons_remove.2 ⟨(hmem o rfl).1, admissible_nil _⟩, hremove o rfl⟩
  · by_cases heq : o = n
    · rw [announce, if_pos heq]
      refine ⟨admissible_nil W, ?_⟩
      rw [← heq]
      exact hold
    · rw [announce, if_neg heq]
      exact ⟨admissible_cons_remove.2 ⟨(hmem o rfl).1, admissible_cons_add.2 (admissible_nil _)⟩,
        hadd n _ rfl (hremove o rfl)⟩

/-- Other groups are left alone. -/
theorem groupOf_total_announce {key' : Tuple} (hne : key ≠ key')
    (hold : ∀ t, old = some t → t.take field = key)
    (hnew : ∀ t, new = some t → t.take field = key) :
    groupOf field key' (total W (announce old new)) = groupOf field key' W := by
  have hother : ∀ (c : Change Tuple) t, (old = some t ∨ new = some t) →
      (c = .add t ∨ c = .remove t) → ∀ V, groupOf field key' (c.apply V) = groupOf field key' V := by
    intro c t ht hc V
    refine groupOf_apply_of_ne hc ?_ V
    rw [ht.elim (hold t) (hnew t)]
    exact hne
  rcases old with _ | o <;> rcases new with _ | n
  · rfl
  · exact hother _ n (Or.inr rfl) (Or.inl rfl) W
  · exact hother _ o (Or.inl rfl) (Or.inr rfl) W
  · rw [announce]
    split
    · rfl
    · exact (hother (.add n) n (Or.inr rfl) (Or.inl rfl) _).trans
        (hother (.remove o) o (Or.inl rfl) (Or.inr rfl) W)

end Announce

/-! ## What the state has to do with the contents -/

variable (P : Program) (preds : PredicateId → Predicate) (nodeId : BitVec 64 → ℕ)

/-- The tries, the aggregates and the matcher agree with the contents. -/
structure Holds (s : NodeState) (U : Contents) : Prop where
  tries : ∀ p, (s.tries p).toTrie.Inv nodeId (preds p).fields (U p (preds p).aggregate.isSome)
  aggs : ∀ p typ field, (preds p).aggregate = some (typ, field) →
    (s.aggs p).Inv nodeId (preds p).fields typ field (U p false)
  existence : ∀ p < P.numPredicates,
    (s.matcher.predicateExistence.getBit p = true ↔ U p (preds p).aggregate.isSome ≠ 0)
  capacity : P.numPredicates ≤ s.matcher.predicateExistence.capacity

/-- What may stand in a queue: tuples of predicates without depth counters, of the types of their
predicate; only announcements of aggregates carry the tag. -/
def Enqueued (q : List FullTuple) : Prop :=
  ∀ x ∈ q, TupleHasType x.data (preds x.pred).fields ∧ x.pred < P.numPredicates ∧
    (preds x.pred).isCycle = false ∧ (x.isAggregate = true → (preds x.pred).aggregate.isSome)

/-- The queue fits to the state: it can be performed, and when it has been, the trie of an aggregate
predicate holds what the configurations announced. -/
structure Pending (s : NodeState) (U : Contents) (q : List FullTuple) : Prop where
  enqueued : Enqueued P preds q
  admissible : ∀ p tag, Admissible (U p tag) (changes p tag q)
  announced : ∀ p typ field, (preds p).aggregate = some (typ, field) →
    ∀ key, TupleHasType key ((preds p).fields.take field) →
      groupOf field key (total (U p true) (changes p true q)) =
        announced ((s.aggs p).conf (Trie.word key).reverse).corresponds

variable {P preds nodeId} {s : NodeState} {U : Contents} {x : FullTuple} {q ls : List FullTuple}

/-- A change to the trie that stores the tuple, reported to the matcher. -/
theorem Holds.store (h : Holds P preds nodeId s U)
    (htag : x.isAggregate = (preds x.pred).aggregate.isSome) {s' : NodeState} {T : TupleTrie}
    (hT : T.toTrie.Inv nodeId (preds x.pred).fields (x.change.apply (U x.pred x.isAggregate)))
    (htries : s'.tries = Function.update s.tries x.pred T) (haggs : s'.aggs = s.aggs)
    (hbit : ∀ p, s'.matcher.predicateExistence.getBit p =
      if x.pred = p then decide (T.size ≠ 0) else s.matcher.predicateExistence.getBit p)
    (hcap : s'.matcher.predicateExistence.capacity = s.matcher.predicateExistence.capacity) :
    Holds P preds nodeId s' (bump U x) := by
  have hself : bump U x x.pred (preds x.pred).aggregate.isSome =
      x.change.apply (U x.pred x.isAggregate) := by
    rw [bump, if_pos ⟨rfl, htag⟩, htag]
  have hother : ∀ p, x.pred ≠ p → bump U x p = U p := by
    intro p hp
    funext tag
    rw [bump, if_neg fun hx => hp hx.1]
  refine ⟨fun p => ?_, fun p typ field hp => ?_, fun p hp => ?_, ?_⟩
  · rw [htries]
    by_cases hxp : x.pred = p
    · subst hxp
      rw [Function.update_self, hself]
      exact hT
    · rw [Function.update_of_ne (Ne.symm hxp), hother p hxp]
      exact h.tries p
  · rw [haggs]
    have huntagged : bump U x p false = U p false := by
      by_cases hxp : x.pred = p
      · subst hxp
        rw [bump, if_neg]
        rintro ⟨-, hfalse⟩
        rw [htag, hp] at hfalse
        exact Bool.noConfusion hfalse
      · rw [hother p hxp]
    rw [huntagged]
    exact h.aggs p typ field hp
  · rw [hbit]
    by_cases hxp : x.pred = p
    · subst hxp
      rw [if_pos rfl, hself, decide_eq_true_eq, TupleTrie.size, hT.represents.size_eq, Ne,
        Multiset.card_eq_zero]
    · rw [if_neg hxp, hother p hxp]
      exact h.existence p hp
  · rw [hcap]
    exact h.capacity

/-- `process_persistent_tuple` performs the change. -/
theorem Holds.processPersistentTuple (h : Holds P preds nodeId s U)
    (ht : TupleHasType x.data (preds x.pred).fields) (hid : x.pred < P.numPredicates)
    (hcycle : (preds x.pred).isCycle = false)
    (htag : x.isAggregate = (preds x.pred).aggregate.isSome)
    (hmem : x.dir = .negative → x.data ∈ U x.pred x.isAggregate) :
    ∃ s', s.processPersistentTuple P preds nodeId x = some s' ∧
      Holds P preds nodeId s' (bump U x) ∧ s'.aggs = s.aggs := by
  have hinv := h.tries x.pred
  rw [← htag] at hinv
  have hlt : x.pred < s.matcher.predicateExistence.capacity := Nat.lt_of_lt_of_le hid h.capacity
  rcases hdir : x.dir with _ | _
  · obtain ⟨hT, -⟩ := TupleTrie.insertTuple_spec hinv ht (preds x.pred).isCycle s.depth
    have hs' : s.processPersistentTuple P preds nodeId x =
        some (s.processPositive P preds nodeId x) := by
      rw [NodeState.processPersistentTuple, hdir]
    have hchange : x.change = .add x.data := by rw [FullTuple.change, hdir]
    refine ⟨_, hs', h.store htag (T := ((s.tries x.pred).insertTuple nodeId
      (preds x.pred).isCycle x.data s.depth).1) ?_ ?_ ?_ ?_ ?_, ?_⟩
    · rw [hchange]
      exact hT
    · simp only [processPositive]
      split <;> rfl
    · simp only [processPositive]
      split <;> rfl
    · intro p
      have hm : (s.processPositive P preds nodeId x).matcher =
          s.matcher.newPersistentFact P x.pred := by
        simp only [processPositive]
        split <;> rfl
      rw [hm, RuleMatcher.newPersistentFact, RuleMatcher.getBit_newLinearFact hlt]
      by_cases hp : x.pred = p
      · rw [if_pos hp, decide_eq_true hp, Bool.true_or, eq_comm, decide_eq_true_eq,
          TupleTrie.size, hT.represents.size_eq, Multiset.card_cons]
        exact Nat.succ_ne_zero _
      · rw [if_neg hp, decide_eq_false hp, Bool.false_or]
    · simp only [processPositive]
      split <;> exact RuleMatcher.capacity_newLinearFact P _ _
    · simp only [processPositive]
      split <;> rfl
  · obtain ⟨T, hremove, hT⟩ := TupleTrie.remove_spec hinv (hmem hdir) x.depth
    have hchange : x.change = .remove x.data := by rw [FullTuple.change, hdir]
    rw [NodeState.processPersistentTuple, hdir]
    simp only [processNegative, hcycle, hremove, Option.map_some]
    refine ⟨_, rfl, h.store htag (T := T) ?_ ?_ ?_ ?_ ?_, ?_⟩
    · rw [hchange]
      exact hT
    · split <;> rfl
    · split <;> rfl
    · intro p
      split <;> exact RuleMatcher.getBit_newPersistentCount hlt _ _
    · split <;> exact RuleMatcher.capacity_newPersistentCount P _ _ _
    · split <;> rfl

/-- `add_to_aggregate` performs the change on its group, and puts at the end of the queue what leads
from the tuple announced before to the one announced now. -/
theorem Holds.addToAggregate (h : Holds P preds nodeId s U)
    (ht : TupleHasType x.data (preds x.pred).fields) (hcycle : (preds x.pred).isCycle = false)
    {typ : AggregateType} {field : ℕ} (hagg : (preds x.pred).aggregate = some (typ, field))
    (htag : x.isAggregate = false) (hmem : x.dir = .negative → x.data ∈ U x.pred false) :
    ∃ s' list, s.addToAggregate preds nodeId x typ field = some (s', list) ∧
      Holds P preds nodeId s' (bump U x) ∧ list.length ≤ 2 ∧
      (∀ y ∈ list, y.pred = x.pred ∧ y.isAggregate = true ∧
        TupleHasType y.data (preds x.pred).fields) ∧
      list.map FullTuple.change = announce
        ((s.aggs x.pred).conf (Trie.word (x.data.take field)).reverse).corresponds
        ((s'.aggs x.pred).conf (Trie.word (x.data.take field)).reverse).corresponds ∧
      (∀ p, p ≠ x.pred → s'.aggs p = s.aggs p) ∧
      ∀ path, path ≠ (Trie.word (x.data.take field)).reverse →
        (s'.aggs x.pred).conf path = (s.aggs x.pred).conf path := by
  have hfield := (preds x.pred).int_field typ field hagg
  have hkey := typed_take ht field
  obtain ⟨A, p, hadd, rfl, hcorr, hrest⟩ :=
    TupleAggregate.contribute_spec (h.aggs _ typ field hagg) x ht hmem x.depth
  obtain ⟨hlist, hdata, hlen, hvals, hnew⟩ := AggConfiguration.generate_spec
    (A.conf (Trie.word (x.data.take field)).reverse) x.pred typ field
  obtain ⟨c, list, hgen⟩ : ∃ c list, (A.conf (Trie.word (x.data.take field)).reverse).generate
      x.pred typ field = (c, list) := ⟨_, _, rfl⟩
  rw [hgen] at hlist hdata hlen hvals hnew
  obtain ⟨hinv, hconf⟩ := hrest c hvals (by rw [hnew, hvals])
  have hself : TupleAggregate.conf ⟨A.vals, Function.update A.confs
      (Trie.word (x.data.take field)).reverse (some c)⟩
      (Trie.word (x.data.take field)).reverse = c :=
    (TupleAggregate.conf_update A A.vals _ _ c).trans (if_pos rfl)
  have hbump : ∀ p, bump U x p false =
      if x.pred = p then x.change.apply (U p false) else U p false := by
    intro p
    simp only [bump, htag, and_true]
  have hstored : ∀ p, bump U x p (preds p).aggregate.isSome = U p (preds p).aggregate.isSome := by
    intro p
    rw [bump, if_neg]
    rintro ⟨rfl, hfalse⟩
    rw [htag, hagg] at hfalse
    exact Bool.noConfusion hfalse
  refine ⟨⟨s.tries, Function.update s.aggs x.pred ⟨A.vals, Function.update A.confs
    (Trie.word (x.data.take field)).reverse (some c)⟩, s.matcher, s.direction, s.depth⟩,
    list.map fun y => { y with isAggregate := true }, ?_, ⟨?_, ?_, ?_, h.capacity⟩, ?_, ?_, ?_,
    ?_, ?_⟩
  · simp only [NodeState.addToAggregate, hcycle, hadd, Option.map_some, hgen]
  · intro p
    rw [hstored]
    exact h.tries p
  · intro p typ' field' hp
    by_cases hxp : x.pred = p
    · subst hxp
      obtain ⟨rfl, rfl⟩ := Prod.mk.inj (Option.some.inj (hagg.symm.trans hp))
      simp only [Function.update_self, hbump, if_true]
      exact hinv
    · simp only [Function.update_of_ne (Ne.symm hxp), hbump, if_neg hxp]
      exact h.aggs p typ' field' hp
  · intro p hp
    rw [hstored]
    exact h.existence p hp
  · rw [List.length_map]
    exact hlen
  · intro y hy
    obtain ⟨z, hz, rfl⟩ := List.mem_map.1 hy
    obtain ⟨hpred, hold | hgenerated⟩ := hdata z hz
    · rw [hcorr] at hold
      exact ⟨hpred, rfl, (((h.aggs _ typ field hagg).conf _ hkey).typed hfield hold).1⟩
    · have hconfInv := hinv.conf _ hkey
      rw [hself] at hconfInv
      exact ⟨hpred, rfl, (hconfInv.typed hfield (hnew.trans hgenerated)).1⟩
  · rw [List.map_map]
    have hsame : (FullTuple.change ∘ fun y : FullTuple => { y with isAggregate := true }) =
        FullTuple.change := rfl
    rw [hsame, hlist, hcorr]
    simp only [Function.update_self, hself]
    rw [← hnew]
  · intro p hp
    exact Function.update_of_ne hp _ _
  · intro path hpath
    simp only [Function.update_self]
    exact hconf path hpath

/-! ## One round of the loop -/

/-- The number of rounds a tuple can cause: a contribution is announced by two tuples at most. -/
def weight (preds : PredicateId → Predicate) (x : FullTuple) : ℕ :=
  if (preds x.pred).aggregate.isSome = true ∧ x.isAggregate = false then 3 else 1

/-- The number of rounds a queue can cause. -/
def work (preds : PredicateId → Predicate) (q : List FullTuple) : ℕ := (q.map (weight preds)).sum

theorem weight_pos (preds : PredicateId → Predicate) (x : FullTuple) : 1 ≤ weight preds x := by
  rw [weight]
  split <;> omega

theorem weight_le (preds : PredicateId → Predicate) (x : FullTuple) : weight preds x ≤ 3 := by
  rw [weight]
  split <;> omega

theorem work_cons (preds : PredicateId → Predicate) (x : FullTuple) (q : List FullTuple) :
    work preds (x :: q) = weight preds x + work preds q := by
  rw [work, List.map_cons, List.sum_cons, work]

theorem work_append (preds : PredicateId → Predicate) (q r : List FullTuple) :
    work preds (q ++ r) = work preds q + work preds r := by
  rw [work, List.map_append, List.sum_append, work, work]

theorem work_le (preds : PredicateId → Predicate) (q : List FullTuple) :
    work preds q ≤ 3 * q.length := by
  induction q with
  | nil => simp [work]
  | cons x q ih =>
    have := weight_le preds x
    rw [work_cons, List.length_cons]
    omega

theorem work_of_tagged {list : List FullTuple} (h : ∀ y ∈ list, y.isAggregate = true) :
    work preds list = list.length := by
  induction list with
  | nil => rfl
  | cons y list ih =>
    have hy : weight preds y = 1 := by
      rw [weight, if_neg]
      rintro ⟨-, hfalse⟩
      rw [h y List.mem_cons_self] at hfalse
      exact Bool.noConfusion hfalse
    rw [work_cons, hy, ih fun z hz => h z (List.mem_cons_of_mem _ hz), List.length_cons]
    omega

/-- What a round has to achieve. -/
def StepOk (P : Program) (preds : PredicateId → Predicate) (nodeId : BitVec 64 → ℕ)
    (s : NodeState) (U : Contents) (x : FullTuple) (ls : List FullTuple) : Prop :=
  ∃ s' ls' U', s.step P preds nodeId x ls = some (s', ls') ∧ Holds P preds nodeId s' U' ∧
    Pending P preds s' U' ls' ∧ work preds ls' < work preds (x :: ls) ∧
    ∀ p, total (U' p false) (changes p false ls') = total (U p false) (changes p false (x :: ls))

/-- A round that drops a tuple and its retraction. -/
theorem step_cancel (h : Holds P preds nodeId s U) (hq : Pending P preds s U (x :: ls))
    (hdir : x.dir = .positive) {rest : List FullTuple}
    (hfound : searchForNegativeTuple x ls = some rest) :
    StepOk P preds nodeId s U x ls := by
  have hsub := sublist_of_searchForNegativeTuple hfound
  have hspec := cancel_spec hdir hfound hq.admissible
  refine ⟨s, rest, U, ?_, h, ⟨?_, fun p tag => (hspec p tag).1, ?_⟩, ?_, fun p => (hspec p _).2⟩
  · rw [step, if_pos hdir, hfound]
  · exact fun y hy => hq.enqueued y (List.mem_cons_of_mem _ (hsub.subset hy))
  · intro p typ field hp key hkey
    rw [(hspec p true).2]
    exact hq.announced p typ field hp key hkey
  · have hpos := weight_pos preds x
    have hle : work preds rest ≤ work preds ls := by
      obtain ⟨l, y, m, rfl, rfl, -⟩ := searchForNegativeTuple_spec hfound
      rw [work_append, work_append, work_cons]
      omega
    rw [work_cons]
    omega

/-- A round that stores or deletes a tuple. -/
theorem step_process (h : Holds P preds nodeId s U) (hq : Pending P preds s U (x :: ls))
    (hsearch : (if x.dir = .positive then searchForNegativeTuple x ls else none) = none)
    (htag : x.isAggregate = (preds x.pred).aggregate.isSome) :
    StepOk P preds nodeId s U x ls := by
  obtain ⟨ht, hid, hcycle, -⟩ := hq.enqueued x List.mem_cons_self
  obtain ⟨s', hs', hholds, haggs⟩ := h.processPersistentTuple ht hid hcycle htag
    (mem_of_admissible (hq.admissible _ _))
  refine ⟨s', ls, bump U x, ?_, hholds, ⟨?_, admissible_bump hq.admissible, ?_⟩, ?_,
    fun p => total_bump U x ls p false⟩
  · rw [step, hsearch]
    rcases hagg : (preds x.pred).aggregate with _ | ⟨typ, field⟩
    · simp [hs']
    · rw [hagg] at htag
      simp [htag, hs']
  · exact fun y hy => hq.enqueued y (List.mem_cons_of_mem _ hy)
  · intro p typ field hp key hkey
    rw [total_bump, haggs]
    exact hq.announced p typ field hp key hkey
  · have hpos := weight_pos preds x
    rw [work_cons]
    omega

/-- The changes announced for one predicate. -/
theorem changes_of_announced {list : List FullTuple} {p : PredicateId}
    (h : ∀ y ∈ list, y.pred = p ∧ y.isAggregate = true) :
    changes p true list = list.map FullTuple.change ∧
      ∀ q tag, ¬ (p = q ∧ true = tag) → changes q tag list = [] := by
  constructor
  · rw [changes, List.filter_eq_self.2]
    exact fun y hy => decide_eq_true (h y hy)
  · intro q tag hne
    rw [changes, List.filter_eq_nil_iff.2, List.map_nil]
    intro y hy hcontra
    obtain ⟨hpred, htag⟩ := h y hy
    rw [hpred, htag] at hcontra
    exact hne (of_decide_eq_true hcontra)

/-- A round that contributes to an aggregate. -/
theorem step_contribute (h : Holds P preds nodeId s U) (hq : Pending P preds s U (x :: ls))
    (hsearch : (if x.dir = .positive then searchForNegativeTuple x ls else none) = none)
    {typ : AggregateType} {field : ℕ} (hagg : (preds x.pred).aggregate = some (typ, field))
    (htag : x.isAggregate = false) :
    StepOk P preds nodeId s U x ls := by
  obtain ⟨ht, hid, hcycle, -⟩ := hq.enqueued x List.mem_cons_self
  have hmem := mem_of_admissible (hq.admissible x.pred x.isAggregate)
  rw [htag] at hmem
  obtain ⟨s', list, hs', hholds, hlen, hlist, hannounce, hother, hconf⟩ :=
    h.addToAggregate ht hcycle hagg htag hmem
  have hkey := typed_take ht field
  have hfield := (preds x.pred).int_field typ field hagg
  obtain ⟨hself, hnone⟩ := changes_of_announced fun y hy => ⟨(hlist y hy).1, (hlist y hy).2.1⟩
  have hold : ∀ t, ((s.aggs x.pred).conf (Trie.word (x.data.take field)).reverse).corresponds =
      some t → t.take field = x.data.take field := fun t hs =>
    (((h.aggs _ typ field hagg).conf _ hkey).typed hfield hs).2
  have hnew : ∀ t, ((s'.aggs x.pred).conf (Trie.word (x.data.take field)).reverse).corresponds =
      some t → t.take field = x.data.take field := fun t hs =>
    (((hholds.aggs _ typ field hagg).conf _ hkey).typed hfield hs).2
  have hbefore := hq.announced _ typ field hagg _ hkey
  rw [← total_bump] at hbefore
  obtain ⟨hadm, hafter⟩ := announce_spec hbefore hnew
  rw [← hannounce, ← hself] at hadm hafter
  refine ⟨s', ls ++ list, bump U x, ?_, hholds, ⟨?_, ?_, ?_⟩, ?_, ?_⟩
  · rw [step, hsearch]
    simp only [hagg, htag, hs', Option.map_some]
  · intro y hy
    rcases List.mem_append.1 hy with hy | hy
    · exact hq.enqueued y (List.mem_cons_of_mem _ hy)
    · obtain ⟨hpred, -, htyped⟩ := hlist y hy
      rw [hpred]
      exact ⟨htyped, hid, hcycle, fun _ => by rw [hagg]; rfl⟩
  · intro p tag
    rw [changes_append, admissible_append]
    refine ⟨admissible_bump hq.admissible p tag, ?_⟩
    by_cases hp : x.pred = p ∧ true = tag
    · obtain ⟨rfl, rfl⟩ := hp
      exact hadm
    · rw [hnone p tag hp]
      exact admissible_nil _
  · intro p typ' field' hp key hk
    rw [changes_append, total_append]
    by_cases hxp : x.pred = p
    · subst hxp
      obtain ⟨rfl, rfl⟩ := Prod.mk.inj (Option.some.inj (hagg.symm.trans hp))
      by_cases hsame : x.data.take field = key
      · subst hsame
        exact hafter
      · have hpath : (Trie.word key).reverse ≠ (Trie.word (x.data.take field)).reverse := by
          intro heq
          refine hsame (Trie.word_inj (r := []) hkey hk ?_)
          rw [List.append_nil, List.reverse_injective heq]
        rw [hself, hannounce, groupOf_total_announce hsame hold hnew, total_bump, hconf _ hpath]
        exact hq.announced _ typ field hagg key hk
    · rw [hnone p true fun hx => hxp hx.1, total_nil, total_bump, hother p (Ne.symm hxp)]
      exact hq.announced p typ' field' hp key hk
  · have hweight : weight preds x = 3 := by
      rw [weight, if_pos]
      rw [hagg]
      exact ⟨rfl, htag⟩
    rw [work_append, work_of_tagged fun y hy => (hlist y hy).2.1, work_cons, hweight]
    omega
  · intro p
    rw [changes_append, hnone p false (by simp), List.append_nil, total_bump]

/-- **One round of the loop** performs the change at the front of the queue, or drops it together
with its retraction. -/
theorem step_spec (h : Holds P preds nodeId s U) (hq : Pending P preds s U (x :: ls)) :
    StepOk P preds nodeId s U x ls := by
  rcases hsearch : (if x.dir = .positive then searchForNegativeTuple x ls else none) with _ | rest
  · rcases hagg : (preds x.pred).aggregate with _ | ⟨typ, field⟩
    · refine step_process h hq hsearch ?_
      have htag := (hq.enqueued x List.mem_cons_self).2.2.2
      rw [hagg] at htag ⊢
      cases hx : x.isAggregate with
      | false => rfl
      | true => exact absurd (htag hx) (by simp)
    · cases htag : x.isAggregate with
      | false => exact step_contribute h hq hsearch hagg htag
      | true =>
        refine step_process h hq hsearch ?_
        rw [htag, hagg]
        rfl
  · by_cases hdir : x.dir = .positive
    · rw [if_pos hdir] at hsearch
      exact step_cancel h hq hdir hsearch
    · rw [if_neg hdir] at hsearch
      cases hsearch

/-! ## The whole loop -/

/-- **Draining the queue** performs all of its changes, and leaves in the trie of an aggregate
predicate what the configurations announced. -/
theorem drain_spec (fuel : ℕ) (h : Holds P preds nodeId s U) (hq : Pending P preds s U q)
    (hfuel : work preds q ≤ fuel) :
    ∃ s' U', s.drain P preds nodeId fuel q = some s' ∧ Holds P preds nodeId s' U' ∧
      Pending P preds s' U' [] ∧ ∀ p, U' p false = total (U p false) (changes p false q) := by
  induction fuel generalizing s U q with
  | zero =>
    cases q with
    | nil => exact ⟨s, U, rfl, h, hq, fun _ => rfl⟩
    | cons x ls =>
      have := weight_pos preds x
      rw [work_cons] at hfuel
      omega
  | succ fuel ih =>
    cases q with
    | nil => exact ⟨s, U, rfl, h, hq, fun _ => rfl⟩
    | cons x ls =>
      obtain ⟨s₁, ls₁, U₁, hstep, h₁, hq₁, hwork, htotal⟩ := step_spec h hq
      obtain ⟨s', U', hdrain, h', hq', hU'⟩ := ih h₁ hq₁ (by omega)
      refine ⟨s', U', ?_, h', hq', fun p => ?_⟩
      · rw [drain, hstep]
        exact hdrain
      · rw [hU' p, htotal p]

/-! ## Runs -/

/-- What is submitted to the queue: no tuple carries the tag yet. -/
def Submitted (P : Program) (preds : PredicateId → Predicate) (q : List FullTuple) : Prop :=
  Enqueued P preds q ∧ ∀ x ∈ q, x.isAggregate = false

/-- The states of a node, with the tuples contributed to every predicate and not retracted: the
interpreter sets its depth and direction, takes rules from the queue of the matcher, adds tuples
directly, and drains queues in which no prefix removes a tuple more often than it is present. -/
inductive Reach (P : Program) (preds : PredicateId → Predicate) (nodeId : BitVec 64 → ℕ) :
    NodeState → (PredicateId → Multiset Tuple) → Prop where
  | create : Reach P preds nodeId (create P) fun _ => 0
  | setup {s C} (h : Reach P preds nodeId s C) (pred : Option Predicate) (dir : Direction)
      (dpt : ℕ) : Reach P preds nodeId (s.setup pred dir dpt) C
  | dequeueRule {s C} (h : Reach P preds nodeId s C) :
      Reach P preds nodeId { s with matcher := s.matcher.dequeueRule } C
  | addNodePersistent {s C} (h : Reach P preds nodeId s C) {p : PredicateId} {tpl : Tuple}
      (hp : p < P.numPredicates) (hplain : (preds p).aggregate = none)
      (ht : TupleHasType tpl (preds p).fields) :
      Reach P preds nodeId (s.addNodePersistent P preds nodeId p tpl)
        (Function.update C p (tpl ::ₘ C p))
  | drain {s C} (h : Reach P preds nodeId s C) {q : List FullTuple} {s' : NodeState}
      (hq : Submitted P preds q) (hadm : ∀ p, Admissible (C p) (changes p false q))
      (hs' : s.doPersistentTuples P preds nodeId q = some s') :
      Reach P preds nodeId s' fun p => total (C p) (changes p false q)

theorem changes_tagged (hq : ∀ x ∈ q, x.isAggregate = false) (p : PredicateId) :
    changes p true q = [] := by
  rw [changes, List.filter_eq_nil_iff.2, List.map_nil]
  intro x hx hcontra
  rw [hq x hx] at hcontra
  simp at hcontra

/-- A submitted queue fits to a state in which nothing is pending. -/
theorem Pending.submit (h : Pending P preds s U []) (hq : Submitted P preds q)
    (hadm : ∀ p, Admissible (U p false) (changes p false q)) : Pending P preds s U q where
  enqueued := hq.1
  admissible := by
    intro p tag
    cases tag with
    | false => exact hadm p
    | true =>
      rw [changes_tagged hq.2]
      exact admissible_nil _
  announced := by
    intro p typ field hp key hkey
    rw [changes_tagged hq.2]
    exact h.announced p typ field hp key hkey

theorem holds_create (P : Program) (preds : PredicateId → Predicate) (nodeId : BitVec 64 → ℕ) :
    Holds P preds nodeId (create P) fun _ _ => 0 where
  tries := fun _ => Trie.inv_empty
  aggs := fun _ typ field _ => TupleAggregate.inv_create typ field
  existence := by
    intro p _
    have hbit : (create P).matcher.predicateExistence.getBit p = false := Bitmap.getBit_create _ _
    simp [hbit]
  capacity := RuleMatcher.numPredicates_le_capacity _

theorem pending_create (P : Program) (preds : PredicateId → Predicate) :
    Pending P preds (create P) (fun _ _ => 0) [] where
  enqueued := fun _ hx => absurd hx List.not_mem_nil
  admissible := fun _ _ => admissible_nil _
  announced := fun _ _ _ _ _ _ => rfl

/-- Only the tries, the aggregates and the bits of the matcher matter. -/
theorem Holds.congr (h : Holds P preds nodeId s U) {s' : NodeState} (htries : s'.tries = s.tries)
    (haggs : s'.aggs = s.aggs)
    (hbits : s'.matcher.predicateExistence = s.matcher.predicateExistence) :
    Holds P preds nodeId s' U where
  tries := by
    rw [htries]
    exact h.tries
  aggs := by
    rw [haggs]
    exact h.aggs
  existence := by
    rw [hbits]
    exact h.existence
  capacity := by
    rw [hbits]
    exact h.capacity

theorem existence_dequeueRule (m : RuleMatcher) :
    m.dequeueRule.predicateExistence = m.predicateExistence := by
  rw [RuleMatcher.dequeueRule]
  split <;> rfl

/-- Adding a tuple directly is the positive change to its trie. -/
theorem Holds.addNodePersistent (h : Holds P preds nodeId s U) {p : PredicateId} {tpl : Tuple}
    (hp : p < P.numPredicates) (hplain : (preds p).aggregate = none)
    (ht : TupleHasType tpl (preds p).fields) :
    Holds P preds nodeId (s.addNodePersistent P preds nodeId p tpl)
      (bump U ⟨tpl, p, .positive, 0, false⟩) := by
  have hinv := h.tries p
  rw [hplain] at hinv
  obtain ⟨hT, -⟩ := TupleTrie.insertTuple_spec hinv ht (preds p).isCycle s.depth
  have hlt : p < s.matcher.predicateExistence.capacity := Nat.lt_of_lt_of_le hp h.capacity
  refine h.store (x := ⟨tpl, p, .positive, 0, false⟩) ?_ hT rfl rfl ?_
    (RuleMatcher.capacity_newLinearFact P _ _)
  · rw [hplain]
    rfl
  · intro q
    rw [NodeState.addNodePersistent, RuleMatcher.newPersistentFact,
      RuleMatcher.getBit_newLinearFact hlt]
    by_cases hq : p = q
    · rw [if_pos hq, decide_eq_true hq, Bool.true_or, eq_comm, decide_eq_true_eq,
        TupleTrie.size, hT.represents.size_eq, Multiset.card_cons]
      exact Nat.succ_ne_zero _
    · rw [if_neg hq, decide_eq_false hq, Bool.false_or]

/-- In every state a node gets into, the tries and aggregates hold what was contributed, and nothing
that was announced is pending. -/
theorem reach_holds {C : PredicateId → Multiset Tuple} (h : Reach P preds nodeId s C) :
    ∃ U, Holds P preds nodeId s U ∧ Pending P preds s U [] ∧ ∀ p, U p false = C p := by
  induction h with
  | create => exact ⟨_, holds_create P preds nodeId, pending_create P preds, fun _ => rfl⟩
  | setup h pred dir dpt ih =>
    obtain ⟨U, hU, hpend, hC⟩ := ih
    exact ⟨U, hU.congr rfl rfl rfl, ⟨hpend.1, hpend.2, hpend.3⟩, hC⟩
  | dequeueRule h ih =>
    obtain ⟨U, hU, hpend, hC⟩ := ih
    exact ⟨U, hU.congr rfl rfl (existence_dequeueRule _), ⟨hpend.1, hpend.2, hpend.3⟩, hC⟩
  | @addNodePersistent s C h p tpl hp hplain ht ih =>
    obtain ⟨U, hU, hpend, hC⟩ := ih
    refine ⟨_, hU.addNodePersistent hp hplain ht,
      ⟨hpend.enqueued, fun _ _ => admissible_nil _, ?_⟩, fun q => ?_⟩
    · intro q typ field hq key hkey
      have hsame : bump U ⟨tpl, p, .positive, 0, false⟩ q true = U q true := by
        rw [bump, if_neg]
        simp
      rw [hsame]
      exact hpend.announced q typ field hq key hkey
    · by_cases hq : p = q
      · subst hq
        rw [bump, if_pos ⟨rfl, rfl⟩, Function.update_self, hC]
        rfl
      · rw [bump, if_neg fun hx => hq hx.1, Function.update_of_ne (Ne.symm hq), hC]
  | @drain s C h q s' hq hadm hs' ih =>
    obtain ⟨U, hU, hpend, hC⟩ := ih
    have hadm' : ∀ p, Admissible (U p false) (changes p false q) := by
      intro p
      rw [hC]
      exact hadm p
    obtain ⟨t, U', hdrain, hU', hpend', htotal⟩ :=
      drain_spec _ hU (hpend.submit hq hadm') (work_le preds q)
    obtain rfl := Option.some.inj (hs'.symm.trans hdrain)
    refine ⟨U', hU', hpend', fun p => ?_⟩
    rw [htotal, hC]

/-- Contributed tuples have the types of their predicate. -/
theorem Reach.typed {C : PredicateId → Multiset Tuple} (h : Reach P preds nodeId s C)
    (p : PredicateId) {t : Tuple} (ht : t ∈ C p) : TupleHasType t (preds p).fields := by
  induction h with
  | create => exact absurd ht (Multiset.notMem_zero t)
  | setup h pred dir dpt ih => exact ih ht
  | dequeueRule h ih => exact ih ht
  | @addNodePersistent s C h r tpl hr hplain htyped ih =>
    by_cases hp : p = r
    · subst hp
      rw [Function.update_self] at ht
      rcases Multiset.mem_cons.1 ht with rfl | ht
      · exact htyped
      · exact ih ht
    · rw [Function.update_of_ne hp] at ht
      exact ih ht
  | @drain s C h q s' hq hadm hs' ih =>
    rcases mem_total ht with ht | hadd
    · exact ih ht
    · obtain ⟨x, hx, hchange⟩ := List.mem_map.1 hadd
      obtain ⟨hx, hpred⟩ := List.mem_filter.1 hx
      have hdata : x.data = t := by
        rw [FullTuple.change] at hchange
        cases hdir : x.dir <;> rw [hdir] at hchange <;> cases hchange
        rfl
      rw [← hdata, ← (of_decide_eq_true hpred).1]
      exact (hq.1 x hx).1

/-- A queue that can be performed is drained completely. -/
theorem Reach.drains {C : PredicateId → Multiset Tuple} (h : Reach P preds nodeId s C)
    (hq : Submitted P preds q) (hadm : ∀ p, Admissible (C p) (changes p false q)) :
    ∃ s', s.doPersistentTuples P preds nodeId q = some s' ∧
      Reach P preds nodeId s' fun p => total (C p) (changes p false q) := by
  obtain ⟨U, hU, hpend, hC⟩ := reach_holds h
  have hadm' : ∀ p, Admissible (U p false) (changes p false q) := by
    intro p
    rw [hC]
    exact hadm p
  obtain ⟨s', -, hs', -⟩ := drain_spec _ hU (hpend.submit hq hadm') (work_le preds q)
  exact ⟨s', hs', h.drain hq hadm hs'⟩

/-- The trie of a predicate that is no aggregate holds what was contributed, and the matcher marks
the predicate as present exactly when the trie is not empty. -/
theorem Reach.plain {C : PredicateId → Multiset Tuple} (h : Reach P preds nodeId s C)
    {p : PredicateId} (hplain : (preds p).aggregate = none) :
    (s.tries p).toTrie.Represents (C p) ∧
      (p < P.numPredicates →
        (s.matcher.predicateExistence.getBit p = true ↔ (s.tries p).size ≠ 0)) := by
  obtain ⟨U, hU, -, hC⟩ := reach_holds h
  have hinv := hU.tries p
  rw [hplain] at hinv
  refine ⟨hC p ▸ hinv.represents, fun hp => ?_⟩
  rw [hU.existence p hp, hplain, TupleTrie.size, hinv.represents.size_eq, Ne, Ne,
    Multiset.card_eq_zero]

/-- **Draining a queue counts every derivation and every retraction.**  In every state of a node,
for every queue of which no prefix removes a tuple more often than it is present,
`do_persistent_tuples` empties the queue; then every tuple of a predicate that is neither an
aggregate nor a cycle predicate has its initial count plus the derivations minus the retractions,
and the matcher marks the predicate as present exactly when its trie is not empty. -/
theorem doPersistentTuples_counts {C : PredicateId → Multiset Tuple}
    (h : Reach P preds nodeId s C) (hq : Submitted P preds q)
    (hadm : ∀ p, Admissible (C p) (changes p false q)) :
    ∃ s', s.doPersistentTuples P preds nodeId q = some s' ∧
      ∀ p, (preds p).aggregate = none → (preds p).isCycle = false →
        (s.tries p).toTrie.Represents (C p) ∧
        (s'.tries p).toTrie.Represents (total (C p) (changes p false q)) ∧
        (∀ t, (s'.tries p).toTrie.countOf t + removed t (changes p false q) =
          (s.tries p).toTrie.countOf t + added t (changes p false q)) ∧
        (p < P.numPredicates →
          (s'.matcher.predicateExistence.getBit p = true ↔ (s'.tries p).size ≠ 0)) := by
  obtain ⟨s', hs', hreach⟩ := h.drains hq hadm
  refine ⟨s', hs', fun p hplain _ => ?_⟩
  obtain ⟨hbefore, -⟩ := h.plain hplain
  obtain ⟨hafter, hbit⟩ := hreach.plain hplain
  refine ⟨hbefore, hafter, fun t => ?_, hbit⟩
  rw [hbefore.countOf_eq, hafter.countOf_eq]
  exact count_total (hadm p) t

/-- A program with one predicate and no rules. -/
def onePredicate : Program := .noRules 1

/-- A predicate with one integer field. -/
def intPredicate : Predicate := .plain [.int] false

/-- Two derivations of a tuple and one retraction. -/
def sevenQueue : List FullTuple :=
  [⟨[.int 7], 0, .positive, 0, false⟩, ⟨[.int 7], 0, .positive, 0, false⟩,
    ⟨[.int 7], 0, .negative, 0, false⟩]

theorem doPersistentTuples_counts_sevenQueue :
    ∃ s', (create onePredicate).doPersistentTuples onePredicate (fun _ => intPredicate)
        (fun _ => 0) sevenQueue = some s' ∧
      (s'.tries 0).toTrie.countOf [.int 7] = 1 := by
  have ht : TupleHasType [.int 7] intPredicate.fields := .cons (.int 7) .nil
  have hsubmitted : Submitted onePredicate (fun _ => intPredicate) sevenQueue := by
    refine ⟨fun x hx => ?_, by simp [sevenQueue]⟩
    simp only [sevenQueue, List.mem_cons, List.not_mem_nil, or_false] at hx
    rcases hx with rfl | rfl | rfl <;> exact ⟨ht, by decide, rfl, by simp⟩
  have hadm : ∀ p, Admissible 0 (changes p false sevenQueue) := by
    intro p
    by_cases hp : p = 0
    · subst hp
      exact admissible_cons_add.2 (admissible_cons_add.2
        (admissible_cons_remove.2 ⟨Multiset.mem_cons_self _ _, admissible_nil _⟩))
    · have hnil : changes p false sevenQueue = [] := by
        simp [changes, sevenQueue, Ne.symm hp]
      rw [hnil]
      exact admissible_nil _
  obtain ⟨s', hs', hcounts⟩ := doPersistentTuples_counts
    (@Reach.create onePredicate (fun _ => intPredicate) fun _ => 0) hsubmitted hadm
  obtain ⟨-, -, hcount, -⟩ := hcounts 0 rfl rfl
  have h7 := hcount [.int 7]
  have hzero : ((create onePredicate).tries 0).toTrie.countOf [.int 7] = 0 := rfl
  have hadded : added [.int 7] (changes 0 false sevenQueue) = 2 := by decide
  have hremoved : removed [.int 7] (changes 0 false sevenQueue) = 1 := by decide
  exact ⟨s', hs', by omega⟩

/-- The largest second field for every first field. -/
def maxPredicate : Predicate := ⟨[.int, .int], false, some (.maxInt, 1), by
  intro typ field h
  obtain ⟨-, rfl⟩ := Prod.mk.inj (Option.some.inj h)
  rfl⟩

/-- Two contributions to one group, the larger of which is retracted. -/
def maxQueue : List FullTuple :=
  [⟨[.int 1, .int 5], 0, .positive, 0, false⟩, ⟨[.int 1, .int 9], 0, .positive, 0, false⟩,
    ⟨[.int 1, .int 9], 0, .negative, 0, false⟩]

end NodeState

end Meld
