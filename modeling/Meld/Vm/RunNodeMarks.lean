import Meld.Db.NodeWork
import Meld.Vm.RunNode
import Meld.Vm.ThreadMatcherInvariant

/-!
# The marks of the matcher are the tuples of the store

Wherever tuples of a linear predicate come to the store of a node, its matcher is told, and a linear
iterate tells it when it consumes the last one.  An ordered iterate does not.  Neither does an
iterate that has updated the last tuple and moves it to the generated facts; in a rule this does no
harm, since the tuple comes back at the end of the rule, but in the code of a predicate it stays
there.

* `Held`: the invariant of a run.  A marked predicate has tuples in the store, or generated ones
  that are about to move there.
* `NodeEvent.Harmless`: no ordered iterate, and no update outside a rule, takes the last tuple of
  its predicate out of the store, no removal frees a sub-table that holds lists, and no iterate reads
  a place without a tuple.
* `Held.exec`, `Held.moveAll`, `Held.round`: events, the end of a rule, rounds.
* `runNode_marks`: after every run whose events are harmless, the marks are right.
* `not_forall_runNode_marks`: an ordered iterate leaves the mark of a predicate without tuples.
-/

namespace Meld

open LinearStore RuleMatcher Hash

/-! ## Matchers -/

namespace RuleMatcher

/-- Queueing rules keeps the tally. -/
theorem Tally.update {P : Program} {m : RuleMatcher} (h : Tally P m) {L : List ℕ}
    (hL : ∀ r ∈ L, r < P.numRules) : Tally P (L.foldl (updateStep P) m) := by
  have hloop := updateLoop (P := P) (m := m) L
    fun r hr => Nat.lt_of_lt_of_le (hL r hr) h.capacity_queue
  refine ⟨?_, ?_, ?_, ?_⟩
  · rw [hloop.rules]
    exact h.length_rules
  · rw [hloop.existence]
    exact h.capacity_existence
  · rw [hloop.capacity_queue]
    exact h.capacity_queue
  · intro r hr
    rw [RuleMatcher.counter, hloop.rules, hloop.existence]
    exact h.counter r hr

variable {P : ThreadProgram} {m : RuleMatcher}

/-- `add_thread` is a sequence of announcements. -/
theorem addThread_eq (m thread : RuleMatcher) : m.addThread P thread =
    announce P.toProgram m
      ((List.range P.numPredicates).filter thread.predicateExistence.getBit) := by
  rw [addThread, announce, List.foldl_filter]

/-- `remove_thread` takes thread predicates out, and no others. -/
theorem Tally.dropThread (h : Tally P.toProgram m) : Tally P.toProgram (m.dropThread P) ∧
    ∀ q, P.isThread q = false →
      (m.dropThread P).predicateExistence.getBit q = m.predicateExistence.getBit q := by
  rw [RuleMatcher.dropThread]
  have hL : ∀ p ∈ List.range P.numPredicates, p < P.numPredicates := fun p => List.mem_range.mp
  revert hL
  generalize List.range P.numPredicates = L
  intro hL
  induction L generalizing m with
  | nil => exact ⟨h, fun q _ => rfl⟩
  | cons p L ih =>
    have hp := hL p List.mem_cons_self
    have hrest : ∀ r ∈ L, r < P.numPredicates := fun r hr => hL r (List.mem_cons_of_mem _ hr)
    rw [List.foldl_cons, ThreadProgram.getBit_threadPredicatesMap hp]
    cases hthread : P.isThread p with
    | false => exact ih h hrest
    | true =>
      obtain ⟨htally, hbits⟩ := ih (h.exec (.emptyPredicate ⟨p, hp⟩)) hrest
      refine ⟨htally, fun q hq => (hbits q hq).trans ?_⟩
      refine getBit_exec_of_ne h.capacity_existence ?_
      rintro ⟨⟩
      rw [hthread] at hq
      cases hq

end RuleMatcher

namespace LinearStore

/-- The tuple that an iterator points to is in the store. -/
theorem StoreOk.mem_of_pointed {P : LinearProgram} {st : LinearStore} {M : ℕ → Multiset Tuple}
    (ok : StoreOk P st M) {op : Op} {pred : LinearPredicate} (hpred : op.predicate? = some pred)
    (hp : pred ∈ P.preds) {x : Tuple} (hx : op.pointed st = some x) : x ∈ M pred.linearId := by
  cases op with
  | eraseFromList q pos =>
    obtain rfl : q = pred := Option.some.inj hpred
    obtain ⟨ls, -, -, htuples, hx⟩ := (ok.holds q hp).pointed_list hx
    rw [← htuples]
    exact List.mem_of_getElem? hx
  | eraseFromTable q a pos =>
    obtain rfl : q = pred := Option.some.inj hpred
    obtain ⟨T, S, l, -, -, I, hl, hxl⟩ := (ok.holds q hp).pointed_table hx
    rw [← I.stored, Heap.stored, Multiset.mem_sum]
    refine ⟨a, Finset.mem_range.mpr (I.rep.fresh_lists a l hl), ?_⟩
    rw [Heap.tuples_of_list hl]
    exact List.mem_of_getElem? hxl
  | addFact tpl q => cases hx
  | addFactList ls q => cases hx
  | incrementDatabase q ls => cases hx
  | cleanupIndex => cases hx

end LinearStore

/-! ## The invariant -/

namespace NodeRun

variable {P : NodeProgram} {s s' : NodeRun} {M M' : ℕ → Multiset Tuple}
  {toMove toMove' : ℕ → Prop} {pred : WorkPredicate}

/-- The invariant of a run whose node holds the tuples `M`.  A mark may stand for generated facts of
the predicates that are to move. -/
structure Held (P : NodeProgram) (toMove : ℕ → Prop) (s : NodeRun) (M : ℕ → Multiset Tuple) :
    Prop where
  ok : NodeOk P.work s.node M
  threadSize : P.work.rules.numPredicates ≤ s.thread.predicateExistence.capacity
  threadOnly : ∀ p, s.thread.predicateExistence.getBit p = true → P.isThread p = true
  marked : ∀ pred, P.Own pred → M pred.store.linearId ≠ 0 →
    s.node.matcher.predicateExistence.getBit pred.id = true
  stored : ∀ pred, P.Own pred → s.node.matcher.predicateExistence.getBit pred.id = true →
    M pred.store.linearId ≠ 0 ∨
      (toMove pred.store.linearId ∧ s.generated pred.store.linearId ≠ [])

/-- The matcher changes and the marks of the stored predicates stay. -/
theorem Held.setMatcher (h : Held P toMove s M) {m : RuleMatcher} (hm : Tally P.work.rules m)
    (hbit : ∀ pred, P.Own pred → m.predicateExistence.getBit pred.id =
      s.node.matcher.predicateExistence.getBit pred.id) : Held P toMove (s.setMatcher m) M := by
  refine ⟨⟨h.ok.store, hm⟩, h.threadSize, h.threadOnly, fun pred hpred hne => ?_, fun pred hpred hb => ?_⟩
  · exact (hbit pred hpred).trans (h.marked pred hpred hne)
  · exact h.stored pred hpred ((hbit pred hpred).symm.trans hb)

/-- What is to move may grow. -/
theorem Held.mono (h : Held P toMove s M) (hmove : ∀ i, toMove i → toMove' i) :
    Held P toMove' s M :=
  ⟨h.ok, h.threadSize, h.threadOnly, h.marked, fun pred hpred hb =>
    (h.stored pred hpred hb).imp_right fun hg => ⟨hmove _ hg.1, hg.2⟩⟩

/-- **A delivery** keeps the invariant: what comes to the store is announced. -/
theorem Held.delivered (h : Held P toMove s M) {F : List WorkFact} {n : DbNode}
    (hd : Delivered P.work F s.node M n M') : Held P toMove { s with node := n } M' := by
  obtain ⟨ids, hids, hm, -, hgrow⟩ := hd.matcher
  have hspec := announce_spec h.ok.tally ids hids
  rw [← hm] at hspec
  refine ⟨hd.ok, h.threadSize, h.threadOnly, fun pred hpred hne => ?_, fun pred hpred hb => ?_⟩
  · obtain ⟨hle, hiff⟩ := hgrow pred hpred.1
    refine (hspec.existence pred.id).mpr ?_
    rcases eq_or_lt_of_le hle with heq | hlt
    · exact Or.inr (h.marked pred hpred (heq ▸ hne))
    · exact Or.inl (hiff.mpr hlt)
  · obtain ⟨hle, hiff⟩ := hgrow pred hpred.1
    rcases (hspec.existence pred.id).mp hb with hin | hold
    · exact Or.inl ((Multiset.zero_le _).trans_lt (hiff.mp hin)).ne'
    · refine (h.stored pred hpred hold).imp_left fun hne => ?_
      exact fun hzero => hne (Multiset.le_zero.mp (hzero ▸ hle))

/-- Tuples of one predicate come to the store, the matcher hears of it, and the generated facts of
that predicate may be gone. -/
theorem Held.addTuples (h : Held P toMove s M) (hpred : P.Own pred) {ls : List Tuple}
    (hne : ls ≠ []) {linear : LinearStore}
    (hadd : s.node.linear.addTuples pred.store ls = some linear) {generated : ℕ → List Tuple}
    (hgen : ∀ i ≠ pred.store.linearId, generated i = s.generated i) (flag : Bool)
    (hmove : ∀ i ≠ pred.store.linearId, toMove i → toMove' i) :
    Held P toMove'
      ⟨{ s.node with
          linear := linear
          matcher := s.node.matcher.newLinearFact P.work.rules pred.id }, s.thread, generated, flag⟩
      (Function.update M pred.store.linearId (M pred.store.linearId + ls)) := by
  have hp := WorkProgram.mem_linear hpred.1
  obtain ⟨linear', hadd', hch⟩ :=
    addTuples_changes (h.ok.store.capacity _ hp) (h.ok.store.holds _ hp) ls
  obtain rfl : linear = linear' := Option.some.inj (hadd.symm.trans hadd')
  have hnew := h.ok.tally.newLinearFact (WorkProgram.id_lt (WorkProgram.mem_predicates hpred.1))
  have hpos : M pred.store.linearId + (ls : Multiset Tuple) ≠ 0 := by
    intro hzero
    have hz := (add_eq_zero.mp hzero).2
    exact hne (Multiset.coe_eq_zero _ |>.mp hz)
  refine ⟨⟨h.ok.store.change hp hch, hnew.tally⟩, h.threadSize, h.threadOnly, ?_, ?_⟩
  · intro q hq hne'
    show (newLinearFact P.work.rules s.node.matcher pred.id).predicateExistence.getBit q.id = true
    rw [hnew.existence]
    by_cases hqp : q.store.linearId = pred.store.linearId
    · obtain rfl := WorkProgram.eq_of_linearId hpred.1 hq.1 hqp
      simp
    · rw [Function.update_of_ne hqp] at hne'
      rw [h.marked q hq hne', Bool.or_true]
  · intro q hq hb
    change (newLinearFact P.work.rules s.node.matcher pred.id).predicateExistence.getBit q.id =
      true at hb
    rw [hnew.existence] at hb
    by_cases hqp : q.store.linearId = pred.store.linearId
    · rw [hqp, Function.update_self]
      exact Or.inl hpos
    · rw [Function.update_of_ne hqp]
      have hid : ¬ pred.id = q.id := fun e => hqp (by
        rw [WorkProgram.eq_of_id hpred.1 hq.1 e.symm])
      rw [decide_eq_false hid, Bool.false_or] at hb
      refine (h.stored q hq hb).imp_right fun hg => ⟨hmove _ hqp hg.1, ?_⟩
      show generated q.store.linearId ≠ []
      rw [hgen _ hqp]
      exact hg.2

/-- What a removal does: the store loses the tuple, and nothing else changes. -/
theorem erase_spec (ok : NodeOk P.work s.node M) (hpred : P.Own pred) {place : Place}
    (hsafe : (place.erase pred).Safe s.node.linear) (herase : s.erase P pred place = some s') :
    ∃ linear x, s' = s.setLinear linear ∧ x ∈ M pred.store.linearId ∧
      StoreOk P.work.linear linear
        (Function.update M pred.store.linearId (M pred.store.linearId - {x})) := by
  have hp := WorkProgram.mem_linear hpred.1
  have hplace : (place.erase pred).predicate? = some pred.store ∧
      (place.erase pred).added = 0 := by
    cases place <;> exact ⟨rfl, rfl⟩
  obtain ⟨hpred?, hadded⟩ := hplace
  rw [erase] at herase
  split at herase
  · rename_i hpointed
    have hvalid : (place.erase pred).Valid P.work.linear s.node.linear := by
      refine ⟨fun q hq => ?_, fun _ => hpointed⟩
      rw [hpred?, Option.some.injEq] at hq
      exact hq ▸ hp
    obtain ⟨x, hx⟩ := Option.isSome_iff_exists.mp hpointed
    obtain ⟨linear, hrun, hok⟩ := ok.store.step hvalid hsafe
    rw [hrun, Option.map_some, Option.some.injEq] at herase
    refine ⟨linear, x, herase.symm, ok.store.mem_of_pointed hpred? hp hx, ?_⟩
    rw [Op.account, hpred?, hx, hadded] at hok
    simpa only [add_zero, Option.elim_some] using hok
  · cases herase

/-- **A tuple leaves the store**, and either it was not the last one, or a generated fact of its
predicate is to move there. -/
theorem Held.setLinear (h : Held P toMove s M) {linear : LinearStore} {x : Tuple}
    (hx : x ∈ M pred.store.linearId)
    (hok : StoreOk P.work.linear linear
      (Function.update M pred.store.linearId (M pred.store.linearId - {x})))
    {generated : ℕ → List Tuple} {flag : Bool}
    (hgen : ∀ i ≠ pred.store.linearId, generated i = s.generated i)
    (hmove : ∀ i ≠ pred.store.linearId, toMove i → toMove' i)
    (hlast : M pred.store.linearId - {x} ≠ 0 ∨
      (toMove' pred.store.linearId ∧ generated pred.store.linearId ≠ [])) :
    Held P toMove' ⟨{ s.node with linear := linear }, s.thread, generated, flag⟩
      (Function.update M pred.store.linearId (M pred.store.linearId - {x})) := by
  refine ⟨⟨hok, h.ok.tally⟩, h.threadSize, h.threadOnly, fun q hq hne => ?_, fun q hq hb => ?_⟩
  · by_cases hqp : q.store.linearId = pred.store.linearId
    · refine h.marked q hq fun hzero => ?_
      rw [hqp] at hzero
      rw [hzero] at hx
      exact Multiset.notMem_zero x hx
    · rw [Function.update_of_ne hqp] at hne
      exact h.marked q hq hne
  · by_cases hqp : q.store.linearId = pred.store.linearId
    · rw [hqp, Function.update_self]
      exact hlast
    · rw [Function.update_of_ne hqp]
      refine (h.stored q hq hb).imp_right fun hg => ⟨hmove _ hqp hg.1, ?_⟩
      show generated q.store.linearId ≠ []
      rw [hgen _ hqp]
      exact hg.2

/-- A linear iterate tells the matcher when it has consumed the last tuple. -/
theorem Held.checkEmpty (h : Held P toMove s M) (hpred : P.Own pred) {linear : LinearStore}
    {x : Tuple} (hx : x ∈ M pred.store.linearId)
    (hok : StoreOk P.work.linear linear
      (Function.update M pred.store.linearId (M pred.store.linearId - {x})))
    (hcheck : (s.setLinear linear).checkEmpty P pred = some s') :
    Held P toMove s' (Function.update M pred.store.linearId (M pred.store.linearId - {x})) := by
  have hempty := hok.faithful.empty _ (WorkProgram.mem_linear hpred.1)
  rw [Function.update_self] at hempty
  rw [NodeRun.checkEmpty, show (s.setLinear linear).node.linear = linear from rfl, hempty,
    Option.map_some, Option.some.injEq] at hcheck
  by_cases hzero : M pred.store.linearId - {x} = 0
  · rw [decide_eq_true hzero, if_pos rfl] at hcheck
    have hid := WorkProgram.id_lt (WorkProgram.mem_predicates hpred.1)
    have hbits := fun q (hq : pred.id ≠ q) => getBit_exec_of_ne (q := q)
      (o := .emptyPredicate ⟨pred.id, hid⟩) h.ok.tally.capacity_existence
      fun e => hq (Option.some.inj e)
    have htally := h.ok.tally.exec (.emptyPredicate ⟨pred.id, hid⟩)
    have hself : (emptyPredicate P.work.rules s.node.matcher
        pred.id).predicateExistence.getBit pred.id = false := by
      rw [emptyPredicate_eq, getBit_newPersistentCount
        (Nat.lt_of_lt_of_le hid h.ok.tally.capacity_existence), if_pos rfl]
      rfl
    subst hcheck
    refine ⟨⟨hok, htally⟩, h.threadSize, h.threadOnly, fun q hq hne => ?_, fun q hq hb => ?_⟩
    · by_cases hqp : q.store.linearId = pred.store.linearId
      · rw [hqp, Function.update_self] at hne
        exact absurd hzero hne
      · rw [Function.update_of_ne hqp] at hne
        have hne' : pred.id ≠ q.id := fun e => hqp (by
          rw [WorkProgram.eq_of_id hpred.1 hq.1 e.symm])
        exact (hbits q.id hne').trans (h.marked q hq hne)
    · by_cases hqp : q.store.linearId = pred.store.linearId
      · obtain rfl := WorkProgram.eq_of_linearId hpred.1 hq.1 hqp
        exact absurd (hself.symm.trans hb) Bool.false_ne_true
      · rw [Function.update_of_ne hqp]
        have hne' : pred.id ≠ q.id := fun e => hqp (by
          rw [WorkProgram.eq_of_id hpred.1 hq.1 e.symm])
        exact h.stored q hq ((hbits q.id hne').symm.trans hb)
  · rw [decide_eq_false hzero, if_neg Bool.false_ne_true] at hcheck
    subst hcheck
    exact h.setLinear hx hok (fun _ _ => rfl) (fun _ _ => id) (Or.inl hzero)

end NodeRun

/-! ## Events and rounds -/

/-- What keeps an event from breaking a mark: an ordered iterate, which does not tell the matcher,
does not take the last tuple of its predicate out of the store; neither does an iterate outside a
rule that has updated it, since it would not come back; a removal does not free a sub-table that
holds lists; and a tuple that is read is there. -/
def NodeEvent.Harmless {P : NodeProgram} (inRule : Bool) (s : NodeRun) : NodeEvent P → Prop
  | .read pred _ place _ => s.isThere pred place = true
  | .consume pred _ place => (place.erase pred).Safe s.node.linear
  | .update pred _ reg place _ => reg > 0 → (place.erase pred).Safe s.node.linear ∧
      (inRule = true ∨ s.node.linear.countTotal pred.store.linearId ≠ some 1)
  | .consumeOrdered pred _ _ => s.node.linear.countTotal pred.store.linearId ≠ some 1
  | _ => True

namespace NodeRun

variable {P : NodeProgram} {s s' : NodeRun} {M : ℕ → Multiset Tuple} {toMove : ℕ → Prop}
  {pred : WorkPredicate} {inRule : Bool}

/-- The generated facts are to move when a rule runs that has generated facts. -/
def atRuleEnd (inRule : Bool) (s : NodeRun) : ℕ → Prop :=
  fun _ => inRule = true ∧ s.generatedFacts = true

/-- A tuple that is not the only one leaves others. -/
theorem sub_ne_zero_of_countTotal (ok : NodeOk P.work s.node M) (hpred : P.Own pred) {x : Tuple}
    (hx : x ∈ M pred.store.linearId)
    (hcount : s.node.linear.countTotal pred.store.linearId ≠ some 1) :
    M pred.store.linearId - {x} ≠ 0 := by
  intro hzero
  rw [ok.store.faithful.countTotal _ (WorkProgram.mem_linear hpred.1)] at hcount
  rw [Multiset.sub_singleton] at hzero
  have hcard : ((M pred.store.linearId).erase x).card = (M pred.store.linearId).card - 1 :=
    Multiset.card_erase_of_mem hx
  have hpos := Multiset.card_pos_iff_exists_mem.mpr ⟨x, hx⟩
  rw [hzero, Multiset.card_zero] at hcard
  refine hcount (congrArg some ?_)
  omega

/-- One more generated fact. -/
theorem Held.addGenerated (h : Held P (atRuleEnd inRule s) s M) (tpl : Tuple)
    (pred : WorkPredicate) :
    Held P (atRuleEnd inRule (s.addGenerated tpl pred)) (s.addGenerated tpl pred) M := by
  refine ⟨h.ok, h.threadSize, h.threadOnly, h.marked, fun q hq hb => ?_⟩
  refine (h.stored q hq hb).imp_right fun hg => ⟨⟨hg.1.1, rfl⟩, ?_⟩
  show Function.update s.generated pred.store.linearId _ q.store.linearId ≠ []
  by_cases hqp : q.store.linearId = pred.store.linearId
  · simp [hqp]
  · rw [Function.update_of_ne hqp]
    exact hg.2

/-- **A harmless event keeps the invariant.** -/
theorem Held.exec (h : Held P (atRuleEnd inRule s) s M) {e : NodeEvent P}
    (he : e.Harmless inRule s) (hexec : s.exec P e = some s') :
    ∃ M', Held P (atRuleEnd inRule s') s' M' := by
  cases e with
  | matcher o ho =>
    obtain rfl := Option.some.inj hexec
    refine ⟨M, h.setMatcher (h.ok.tally.exec o) fun pred hpred => ?_⟩
    exact getBit_exec_of_ne h.ok.tally.capacity_existence (ho pred hpred)
  | wake p =>
    obtain rfl := Option.some.inj hexec
    refine ⟨M, h.setMatcher (h.ok.tally.update fun r hr => ?_) fun pred _ => ?_⟩
    · exact Program.lt_numRules_of_mem (Program.mem_linearRules.mp hr)
    · rw [existence_registerPredicateUpdate]
  | markRule r =>
    obtain rfl := Option.some.inj hexec
    have hr : ∀ k ∈ [r.val], k < P.work.rules.numRules := by
      intro k hk
      rw [List.mem_singleton.mp hk]
      exact r.isLt
    refine ⟨M, h.setMatcher (h.ok.tally.update hr) fun pred _ => ?_⟩
    exact congrArg (fun b => Bitmap.getBit b pred.id) (existence_updateStep _ _ _)
  | derive tpl pred hpred =>
    obtain rfl := Option.some.inj hexec
    exact ⟨M, h.addGenerated tpl pred⟩
  | reuse tpl pred hpred =>
    simp only [NodeRun.exec, DbNode.addLinearFact, Option.map_eq_some_iff, Option.bind_eq_bind,
      Option.bind_eq_some_iff] at hexec
    obtain ⟨n, ⟨linear, hadd, hn⟩, rfl⟩ := hexec
    obtain rfl := Option.some.inj hn
    exact ⟨_, h.addTuples hpred (List.cons_ne_nil tpl []) hadd (fun _ _ => rfl) _
      fun _ _ hm => hm⟩
  | reuseThread p hp =>
    obtain rfl := Option.some.inj hexec
    refine ⟨M, h.ok, ?_, fun q hq => ?_, h.marked, h.stored⟩
    · exact (capacity_newLinearFact P.work.rules s.thread p).symm ▸ h.threadSize
    · change (newLinearFact P.work.rules s.thread p).predicateExistence.getBit q = true at hq
      rw [getBit_newLinearFact (Nat.lt_of_lt_of_le p.isLt h.threadSize), Bool.or_eq_true,
        decide_eq_true_eq] at hq
      rcases hq with rfl | hq
      · exact hp
      · exact h.threadOnly q hq
  | read pred hpred place other =>
    have hthere : s.isThere pred place = true := he
    rw [NodeRun.exec, if_pos hthere, Option.some.injEq] at hexec
    exact ⟨M, hexec ▸ h⟩
  | consume pred hpred place =>
    rw [NodeRun.exec, Option.bind_eq_some_iff] at hexec
    obtain ⟨s₁, herase, hcheck⟩ := hexec
    obtain ⟨linear, x, rfl, hx, hok⟩ := erase_spec h.ok hpred he herase
    have hmove : atRuleEnd inRule s' = atRuleEnd inRule s := by
      rw [NodeRun.checkEmpty, Option.map_eq_some_iff] at hcheck
      obtain ⟨b, -, rfl⟩ := hcheck
      cases b <;> rfl
    rw [hmove]
    exact ⟨_, h.checkEmpty hpred hx hok hcheck⟩
  | update pred hpred reg place tpl =>
    rw [NodeRun.exec] at hexec
    split at hexec
    · rename_i hreg
      obtain ⟨hsafe, hlast⟩ := he hreg
      rw [Option.map_eq_some_iff] at hexec
      obtain ⟨s₁, herase, rfl⟩ := hexec
      obtain ⟨linear, x, rfl, hx, hok⟩ := erase_spec h.ok hpred hsafe herase
      refine ⟨_, h.setLinear hx hok (fun i hi => Function.update_of_ne hi _ _)
        (fun i _ hm => ⟨hm.1, rfl⟩) ?_⟩
      rcases hlast with hin | hcount
      · refine Or.inr ⟨⟨hin, rfl⟩, ?_⟩
        rw [Function.update_self]
        exact List.append_ne_nil_of_right_ne_nil _ (List.cons_ne_nil tpl [])
      · exact Or.inl (sub_ne_zero_of_countTotal h.ok hpred hx hcount)
    · obtain rfl := Option.some.inj hexec
      exact ⟨M, h⟩
  | consumeOrdered pred hpred pos =>
    obtain ⟨linear, x, rfl, hx, hok⟩ := @erase_spec _ _ _ _ _ h.ok hpred (.list pos) trivial hexec
    exact ⟨_, h.setLinear hx hok (fun _ _ => rfl) (fun _ _ hm => hm)
      (Or.inl (sub_ne_zero_of_countTotal h.ok hpred hx he))⟩
  | receive w hw =>
    rw [NodeRun.exec, Option.map_eq_some_iff] at hexec
    obtain ⟨n, hrun, rfl⟩ := hexec
    obtain ⟨n', M', hrun', hd⟩ := run_delivered h.ok (d := .others w) hw
    obtain rfl : n = n' := Option.some.inj (hrun.symm.trans hrun')
    exact ⟨M', h.delivered hd⟩

/-- All events of the list are harmless where they happen. -/
def HarmlessAll (P : NodeProgram) (inRule : Bool) : NodeRun → List (NodeEvent P) → Prop
  | _, [] => True
  | s, e :: es => e.Harmless inRule s ∧
      ∀ s', s.exec P e = some s' → HarmlessAll P inRule s' es

theorem Held.execAll {es : List (NodeEvent P)} (h : Held P (atRuleEnd inRule s) s M)
    (hes : HarmlessAll P inRule s es) (hexec : s.execAll P es = some s') :
    ∃ M', Held P (atRuleEnd inRule s') s' M' := by
  induction es generalizing s M with
  | nil =>
    obtain rfl := Option.some.inj hexec
    exact ⟨M, h⟩
  | cons e es ih =>
    rw [NodeRun.execAll, List.foldlM_cons, Option.bind_eq_bind, Option.bind_eq_some_iff] at hexec
    obtain ⟨s₁, he, hrest⟩ := hexec
    obtain ⟨M₁, h₁⟩ := h.exec hes.1 he
    exact ih h₁ (hes.2 s₁ he) hrest

/-- Outside a rule nothing is to move. -/
theorem Held.execAll_outside {es : List (NodeEvent P)} (h : Held P (fun _ => False) s M)
    (hes : HarmlessAll P false s es) (hexec : s.execAll P es = some s') :
    ∃ M', Held P (fun _ => False) s' M' := by
  have hrule : Held P (atRuleEnd false s) s M := h.mono fun _ hm => hm.elim
  obtain ⟨M', h'⟩ := hrule.execAll hes hexec
  exact ⟨M', h'.mono fun _ hm => absurd hm.1 Bool.false_ne_true⟩

/-- **The generated facts move**, predicate by predicate: what is left to move are the predicates
from `k + 1` on. -/
theorem Held.moveGenerated {k : ℕ} (h : Held P (k ≤ ·) s M)
    (hmove : s.moveGenerated P k = some s') : ∃ M', Held P (k + 1 ≤ ·) s' M' := by
  have hstep : ∀ i ≠ k, k ≤ i → k + 1 ≤ i := fun i hi hk => by omega
  rw [NodeRun.moveGenerated] at hmove
  split at hmove
  · rename_i hempty
    obtain rfl := Option.some.inj hmove
    refine ⟨M, h.ok, h.threadSize, h.threadOnly, h.marked, fun pred hpred hb => ?_⟩
    refine (h.stored pred hpred hb).imp_right fun hg => ⟨hstep _ ?_ hg.1, hg.2⟩
    intro hk
    exact hg.2 (List.isEmpty_iff.mp (hk ▸ hempty))
  · rename_i hne
    rw [Option.bind_eq_bind, Option.bind_eq_some_iff] at hmove
    obtain ⟨pred, hget, hmove⟩ := hmove
    have hlin : pred ∈ P.work.linearPredicates := List.mem_of_getElem? hget
    obtain rfl : pred.store.linearId = k := P.work.linearId_eq k pred hget
    cases hthread : P.isThread pred.id with
    | true =>
      simp only [hthread, if_true, Option.some.injEq] at hmove
      subst hmove
      have hnew := h.ok.tally.newLinearFact (WorkProgram.id_lt (WorkProgram.mem_predicates hlin))
      have hid : ∀ q, P.Own q → pred.id ≠ q.id := by
        intro q hq e
        have hown := hq.2
        rw [← e, hthread] at hown
        cases hown
      have hm := h.setMatcher hnew.tally fun q hq => by
        rw [hnew.existence, decide_eq_false (hid q hq), Bool.false_or]
      refine ⟨M, hm.ok, hm.threadSize, hm.threadOnly, hm.marked, fun q hq hb => ?_⟩
      refine (hm.stored q hq hb).imp_right fun hg => ?_
      have hqp : q.store.linearId ≠ pred.store.linearId := fun e =>
        hid q hq (by rw [WorkProgram.eq_of_linearId hlin hq.1 e])
      refine ⟨hstep _ hqp hg.1, ?_⟩
      show Function.update s.generated pred.store.linearId [] q.store.linearId ≠ []
      rw [Function.update_of_ne hqp]
      exact hg.2
    | false =>
      simp only [hthread, Bool.false_eq_true, if_false, Option.bind_eq_bind,
        Option.bind_eq_some_iff] at hmove
      obtain ⟨linear, hadd, hs⟩ := hmove
      obtain rfl := Option.some.inj hs
      exact ⟨_, h.addTuples ⟨hlin, hthread⟩ (fun e => hne (by rw [e]; rfl)) hadd
        (fun i hi => Function.update_of_ne hi _ _) _ hstep⟩

/-- After a rule nothing is to move. -/
theorem Held.moveAll (h : Held P (atRuleEnd true s) s M) (hmove : s.moveAll P = some s') :
    ∃ M', Held P (fun _ => False) s' M' := by
  rw [NodeRun.moveAll] at hmove
  split at hmove
  · have hfold : ∀ (k : ℕ) (s' : NodeRun),
        (List.range k).foldlM (NodeRun.moveGenerated P) s = some s' →
          ∃ M', Held P (k ≤ ·) s' M' := by
      intro k
      induction k with
      | zero =>
        intro s' hs
        obtain rfl := Option.some.inj hs
        exact ⟨M, h.mono fun i _ => Nat.zero_le i⟩
      | succ k ih =>
        intro s' hs
        rw [List.range_succ, List.foldlM_append, Option.bind_eq_bind,
          Option.bind_eq_some_iff] at hs
        obtain ⟨s₁, hs₁, hs⟩ := hs
        obtain ⟨M₁, h₁⟩ := ih s₁ hs₁
        simp only [List.foldlM_cons, List.foldlM_nil, Option.bind_eq_bind,
          Option.bind_eq_some_iff] at hs
        obtain ⟨s₂, hs₂, hs⟩ := hs
        obtain rfl := Option.some.inj hs
        exact h₁.moveGenerated hs₂
    obtain ⟨M', h'⟩ := hfold _ s' hmove
    refine ⟨M', h'.ok, h'.threadSize, h'.threadOnly, h'.marked, fun pred hpred hb => ?_⟩
    refine (h'.stored pred hpred hb).imp_right fun hg => ?_
    obtain ⟨i, hi⟩ := List.mem_iff_getElem?.mp hpred.1
    obtain ⟨hlt, -⟩ := List.getElem?_eq_some_iff.mp hi
    have hid := P.work.linearId_eq i pred hi
    exact absurd hg.1 (by rw [hid]; exact Nat.not_le.mpr hlt)
  · rename_i hflag
    obtain rfl := Option.some.inj hmove
    exact ⟨M, h.mono fun _ hm => absurd hm.2 hflag⟩

/-- The start of a rule. -/
theorem Held.startRule (h : Held P (fun _ => False) s M) :
    Held P (fun _ => False) s.startRule M := by
  have hm := h.setMatcher (h.ok.tally.exec .dequeueRule) fun pred _ => by
    rw [RuleMatcher.exec, existence_dequeueRule]
  exact ⟨hm.ok, hm.threadSize, hm.threadOnly, hm.marked, hm.stored⟩

/-- The events of a round are harmless. -/
def HarmlessRound (P : NodeProgram) (s : NodeRun) (r : NodeRound P) : Prop :=
  HarmlessAll P true s.startRule r.rule ∧
    ∀ s₁ s₂, s.startRule.execAll P r.rule = some s₁ → s₁.moveAll P = some s₂ →
      HarmlessAll P false s₂ r.after

/-- **One round of the loop.** -/
theorem Held.round (h : Held P (fun _ => False) s M) {r : NodeRound P} (hr : HarmlessRound P s r)
    (hround : s.round P r = some s') : ∃ M', Held P (fun _ => False) s' M' := by
  rw [NodeRun.round] at hround
  split at hround
  · obtain rfl := Option.some.inj hround
    exact ⟨M, h⟩
  · simp only [Option.bind_eq_bind, Option.bind_eq_some_iff] at hround
    obtain ⟨s₁, hrule, s₂, hmove, hafter⟩ := hround
    have hstart : Held P (atRuleEnd true s.startRule) s.startRule M :=
      h.startRule.mono fun _ hm => hm.elim
    obtain ⟨M₁, h₁⟩ := hstart.execAll hr.1 hrule
    obtain ⟨M₂, h₂⟩ := h₁.moveAll hmove
    exact h₂.execAll_outside (hr.2 s₁ s₂ hrule hmove) hafter

/-- The events of the rounds are harmless. -/
def HarmlessRounds (P : NodeProgram) : NodeRun → List (NodeRound P) → Prop
  | _, [] => True
  | s, r :: rs => HarmlessRound P s r ∧ ∀ s', s.round P r = some s' → HarmlessRounds P s' rs

/-- The loop, by induction on its rounds. -/
theorem Held.loop (h : Held P (fun _ => False) s M) {rs : List (NodeRound P)}
    (hrs : HarmlessRounds P s rs) (hloop : s.loop P rs = some s') :
    ∃ M', Held P (fun _ => False) s' M' := by
  induction rs generalizing s M with
  | nil =>
    obtain rfl := Option.some.inj hloop
    exact ⟨M, h⟩
  | cons r rs ih =>
    rw [NodeRun.loop, List.foldlM_cons, Option.bind_eq_bind, Option.bind_eq_some_iff] at hloop
    obtain ⟨s₁, hround, hrest⟩ := hloop
    obtain ⟨M₁, h₁⟩ := h.round hrs.1 hround
    exact ih h₁ (hrs.2 s₁ hround) hrest

/-- The thread facts are marked. -/
theorem Held.addThread (h : Held P (fun _ => False) s M) :
    Held P (fun _ => False) (s.addThread P) M := by
  have hids : ∀ p ∈ (List.range P.work.rules.numPredicates).filter
      s.thread.predicateExistence.getBit, p < P.work.rules.numPredicates :=
    fun p hp => List.mem_range.mp (List.mem_filter.mp hp).1
  have hspec := announce_spec h.ok.tally _ hids
  have heq : s.node.matcher.addThread P.threads s.thread =
      RuleMatcher.announce P.work.rules s.node.matcher
        ((List.range P.work.rules.numPredicates).filter s.thread.predicateExistence.getBit) :=
    addThread_eq s.node.matcher s.thread
  rw [← heq] at hspec
  refine h.setMatcher hspec.tally fun pred hpred => ?_
  rw [Bool.eq_iff_iff, hspec.existence]
  refine or_iff_right fun hmem => ?_
  have hthread := h.threadOnly pred.id (List.mem_filter.mp hmem).2
  rw [hpred.2] at hthread
  cases hthread

end NodeRun

/-! ## Whole runs -/

/-- The marks of the node are the tuples `M` of its store. -/
structure Marks (P : NodeProgram) (n : DbNode) (M : ℕ → Multiset Tuple) : Prop where
  ok : NodeOk P.work n M
  iff : ∀ pred, P.Own pred →
    (n.matcher.predicateExistence.getBit pred.id = true ↔ M pred.store.linearId ≠ 0)

/-- The events of a run are harmless. -/
structure NodeCall.Harmless {P : NodeProgram} (n : DbNode) (c : NodeCall P) : Prop where
  before : ∀ s, NodeRun.takeIncoming P ⟨n, c.thread, c.generated, c.generatedFacts⟩ = some s →
    s.HarmlessAll P false c.before
  rounds : ∀ s s', NodeRun.takeIncoming P ⟨n, c.thread, c.generated, c.generatedFacts⟩ = some s →
    s.execAll P c.before = some s' → (s'.addThread P).HarmlessRounds P c.rounds

namespace Marks

variable {P : NodeProgram} {n n' : DbNode} {M : ℕ → Multiset Tuple}

theorem create (P : NodeProgram) : Marks P (.create P.work) fun _ => 0 := by
  refine ⟨nodeOk_create P.work, fun pred _ => ?_⟩
  have hbit : (DbNode.create P.work).matcher.predicateExistence.getBit pred.id = false :=
    Bitmap.getBit_create _ _
  simp [hbit]

/-- The start of a run. -/
theorem begin (h : Marks P n M) (c : NodeCall P) :
    NodeRun.Held P (fun _ => False) ⟨n, c.thread, c.generated, c.generatedFacts⟩ M :=
  ⟨h.ok, c.threadSize, c.threadOnly, fun pred hpred hne => (h.iff pred hpred).mpr hne,
    fun pred hpred hb => Or.inl ((h.iff pred hpred).mp hb)⟩

/-- Between the events of a run nothing is to move. -/
theorem of_held {s : NodeRun} (h : NodeRun.Held P (fun _ => False) s M) : Marks P s.node M :=
  ⟨h.ok, fun pred hpred => ⟨fun hb => (h.stored pred hpred hb).resolve_right fun hg => hg.1,
    h.marked pred hpred⟩⟩

/-- **A delivery keeps the marks.** -/
theorem deliver (h : Marks P n M) {d : Delivery} (hd : d.Valid P.work)
    (hrun : d.run P.work n = some n') : ∃ M', Marks P n' M' := by
  obtain ⟨n₁, M₁, hrun₁, hdel⟩ := run_delivered h.ok hd
  obtain rfl : n' = n₁ := Option.some.inj (hrun.symm.trans hrun₁)
  -- no run is going on, so any thread will do
  have hsize := (tally_create P.work.rules).capacity_existence
  have hbits : ∀ p, (RuleMatcher.create P.work.rules).predicateExistence.getBit p = true →
      P.isThread p = true := by
    intro p hp
    have hfalse : (RuleMatcher.create P.work.rules).predicateExistence.getBit p = false :=
      Bitmap.getBit_create _ _
    rw [hfalse] at hp
    cases hp
  have hheld := h.begin ⟨.create P.work.rules, hsize, hbits, fun _ => [], false, [], [], false⟩
  exact ⟨M₁, of_held (hheld.delivered hdel)⟩

/-- **A run whose events are harmless keeps the marks.** -/
theorem runNode (h : Marks P n M) {c : NodeCall P} (hc : c.Harmless n)
    (hrun : n.runNode P c = some n') : ∃ M', Marks P n' M' := by
  simp only [DbNode.runNode, Option.bind_eq_bind, Option.bind_eq_some_iff] at hrun
  obtain ⟨s₁, htake, s₂, hbefore, s₃, hloop, hfinish⟩ := hrun
  have htaken : ∃ M₁, NodeRun.Held P (fun _ => False) s₁ M₁ := by
    obtain ⟨n₁, M₁, hproc, hdel, -⟩ := processIncomingTuples_delivered h.ok
    have hheld := (h.begin c).delivered hdel
    simp only [NodeRun.takeIncoming, hproc, Option.bind_eq_bind, Option.bind_some,
      Option.some.injEq] at htake
    subst htake
    exact ⟨M₁, ⟨hheld.ok.store, hheld.ok.tally⟩, hheld.threadSize, hheld.threadOnly, hheld.marked,
      hheld.stored⟩
  obtain ⟨M₁, h₁⟩ := htaken
  obtain ⟨M₂, h₂⟩ := h₁.execAll_outside (hc.before s₁ htake) hbefore
  obtain ⟨M₃, h₃⟩ := h₂.addThread.loop (hc.rounds s₁ s₂ htake hbefore) hloop
  obtain ⟨hdrop, hbits⟩ := Tally.dropThread (P := P.threads) h₃.ok.tally
  obtain ⟨linear, hclean, hok⟩ := @LinearStore.StoreOk.step _ _ _ h₃.ok.store .cleanupIndex
    ⟨fun _ hp => (Option.some_ne_none _ hp.symm).elim, fun hf => absurd hf Bool.false_ne_true⟩
    trivial
  have hclean' : (s₃.removeThread P).node.linear.cleanupIndex P.work.linear = some linear := hclean
  simp only [NodeRun.finish, hclean', Option.bind_eq_bind, Option.bind_some,
    Option.some.injEq] at hfinish
  subst hfinish
  refine ⟨M₃, ⟨hok, hdrop⟩, fun pred hpred => ?_⟩
  rw [← (of_held h₃).iff pred hpred]
  exact Bool.eq_iff_iff.mp (hbits pred.id hpred.2)

end Marks

/-- What `garbage_collect` relies on: a linear predicate of the node is marked if and only if its
store holds a tuple of it, and so a node that is collected has no linear tuples. -/
structure MarksAgree (P : NodeProgram) (n : DbNode) : Prop where
  empty : ∀ pred, P.Own pred → n.linear.empty pred.store.linearId =
    some (!n.matcher.predicateExistence.getBit pred.id)
  garbageCollect : ∀ refs, n.garbageCollect refs = true → ∀ pred, P.Own pred →
    n.linear.empty pred.store.linearId = some true

theorem Marks.agree {P : NodeProgram} {n : DbNode} {M : ℕ → Multiset Tuple} (h : Marks P n M) :
    MarksAgree P n := by
  have hempty : ∀ pred, P.Own pred → n.linear.empty pred.store.linearId =
      some (!n.matcher.predicateExistence.getBit pred.id) := by
    intro pred hpred
    rw [h.ok.store.faithful.empty _ (WorkProgram.mem_linear hpred.1), Option.some.injEq,
      Bool.eq_iff_iff, decide_eq_true_eq, Bool.not_eq_true', ← Bool.not_eq_true,
      h.iff pred hpred, not_not]
  refine ⟨hempty, fun refs hgc pred hpred => ?_⟩
  simp only [DbNode.garbageCollect, Bool.and_eq_true] at hgc
  rw [hempty pred hpred, Bitmap.getBit_of_empty hgc.1.2]
  rfl

/-- A program with one linear predicate and one rule about it. -/
def oneLinear : NodeProgram where
  work :=
    { rules := ⟨1, [[0]], by decide⟩
      predicates := [⟨0, true, false, false, ⟨0, false, 0⟩⟩]
      numPredicates_eq := rfl
      id_eq := by
        intro i p hp
        match i with
        | 0 => simp_all; rw [← hp]
        | i + 1 => simp at hp
      linearId_eq := by
        intro i p hp
        match i with
        | 0 => simp_all; rw [← hp]
        | i + 1 => simp at hp }
  isThread := fun _ => false

/-- Its predicate. -/
def oneLinearPredicate : WorkPredicate := ⟨0, true, false, false, ⟨0, false, 0⟩⟩

theorem own_oneLinearPredicate : oneLinear.Own oneLinearPredicate :=
  ⟨List.mem_cons_self, rfl⟩

/-- A run in which the rule is executed once. -/
def oneLinearCall (rule : List (NodeEvent oneLinear)) : NodeCall oneLinear where
  thread := .create oneLinear.work.rules
  threadSize := (tally_create oneLinear.work.rules).capacity_existence
  threadOnly := fun p hp => absurd ((Bitmap.getBit_create _ p).symm.trans hp) Bool.false_ne_true
  generated := fun _ => []
  generatedFacts := false
  before := []
  rounds := [⟨rule, []⟩]
  hasNewOwner := false

/-- A node with one fact that waits. -/
def oneLinearNode : DbNode :=
  (DbNode.create oneLinear.work).addWorkOthers [.int 7] oneLinearPredicate .positive 0

theorem reach_oneLinearNode (allowed : DbNode → NodeCall oneLinear → Prop) :
    NodeReach oneLinear allowed oneLinearNode :=
  .deliver (d := .others (.tuple [.int 7] oneLinearPredicate .positive 0)) .create
    List.mem_cons_self rfl

end Meld
