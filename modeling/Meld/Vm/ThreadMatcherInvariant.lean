import Meld.Vm.RuleMatcherInvariant
import Meld.Vm.ThreadMatcher

/-!
# What survives the transfers of thread facts

`add_thread` and `remove_thread` leave the matcher of an ordinary node exact: between runs it knows
no thread predicate, and during a run its marks follow the store.  The matcher of the thread node
does not fare so well.  `remove_thread` overwrites its marks and leaves its counters and its queue,
which belong to the old marks.

* `inv_addThread`, `inv_dropThread`: the matcher of the node.
* `inv_saveThread`: the matcher of the thread node, when the new marks give every rule the count
  that the old ones gave.
* `ThreadRun.Held`: the invariant of a run.  Before `add_thread` the marks of a stored fact are in
  either matcher, afterwards in that of the node; inside a rule a mark may also stand for a fact
  that waits in `generated`.
* `Event.Harmless`, `ThreadRun.Careful`, `ThreadRun.CarefulThread`: the condition on the events and
  on the two transfers.
* `System.reach_exact`: in every sequence of such runs all matchers are exact and the marks of every
  thread node are the facts of its store.
* `System.not_forall_reach_exact`: one incoming fact and one rule are enough to break the thread
  matcher.
-/

namespace Meld

/-! ## The bitmap of the thread predicates -/

namespace ThreadProgram

variable {P : ThreadProgram}

theorem getBit_foldl_setBit (L : List ℕ) (b : Bitmap) (f : ℕ → Bool)
    (hL : ∀ p ∈ L, p < b.capacity) (q : ℕ) :
    (L.foldl (fun b p => if f p then b.setBit p else b) b).getBit q =
      ((decide (q ∈ L) && f q) || b.getBit q) := by
  induction L generalizing b with
  | nil => simp
  | cons p L ih =>
    rw [List.foldl_cons]
    have hp : p < b.capacity := hL p List.mem_cons_self
    have hrest : ∀ r ∈ L, r < b.capacity := fun r hr => hL r (List.mem_cons_of_mem _ hr)
    cases hf : f p with
    | true =>
      rw [if_pos rfl, ih _ (by simpa using hrest), Bitmap.getBit_setBit hp]
      by_cases hpq : p = q
      · subst hpq
        simp [hf]
      · have hqp : ¬ q = p := fun e => hpq e.symm
        simp [hpq, hqp]
    | false =>
      rw [if_neg Bool.false_ne_true, ih _ hrest]
      by_cases hpq : q = p
      · subst hpq
        simp [hf]
      · simp [hpq]

/-- The map has the bits of the thread predicates. -/
theorem getBit_threadPredicatesMap {p : ℕ} (hp : p < P.numPredicates) :
    P.threadPredicatesMap.getBit p = P.isThread p := by
  have hcap : ∀ q ∈ List.range P.numPredicates,
      q < (Bitmap.create (Program.nextUint P.numPredicates)).capacity := fun q hq =>
    Nat.lt_of_lt_of_le (List.mem_range.mp hq) (RuleMatcher.numPredicates_le_capacity _)
  rw [threadPredicatesMap, getBit_foldl_setBit _ _ _ hcap]
  simp [hp]

end ThreadProgram

/-! ## The transfers -/

namespace RuleMatcher

section Ops

variable {P : Program} {m : RuleMatcher}

theorem emptyPredicate_eq (P : Program) (m : RuleMatcher) (p : PredicateId) :
    emptyPredicate P m p = newPersistentCount P m p 0 := by
  simp [emptyPredicate, newPersistentCount]

theorem inv_newPersistentCount (h : Inv P m) {p : ℕ} (hp : p < P.numPredicates)
    (hbyte : ∀ r, P.ruleNumPredicates r ≤ 255) (count : ℕ) :
    Inv P (newPersistentCount P m p count) :=
  (inv_exec h hbyte (.newPersistentCount ⟨p, hp⟩ count)).1

theorem existence_registerPredicateUpdate (P : Program) (m : RuleMatcher) (p : PredicateId) :
    (registerPredicateUpdate P m p).predicateExistence = m.predicateExistence :=
  existence_foldl_updateStep _ _

theorem existence_updateStep (P : Program) (m : RuleMatcher) (r : RuleId) :
    (updateStep P m r).predicateExistence = m.predicateExistence :=
  existence_foldl_updateStep [r] m

theorem existence_dequeueRule (m : RuleMatcher) :
    m.dequeueRule.predicateExistence = m.predicateExistence := by
  unfold dequeueRule
  split <;> rfl

/-- The body of `MARK_RULE`. -/
theorem inv_updateStep (h : Inv P m) {r : ℕ} (hr : r < P.numRules) : Inv P (updateStep P m r) := by
  unfold updateStep
  split
  · rename_i hfull
    refine ⟨h.length_rules, h.capacity_existence, ?_, h.counter, fun q hq => ?_, h.noWrap⟩
    · simpa using h.capacity_queue
    · rw [Bitmap.getBit_setBit (Nat.lt_of_lt_of_le hr h.capacity_queue), Bool.or_eq_true,
        decide_eq_true_eq] at hq
      rcases hq with rfl | hq
      · exact (h.complete_iff hr).mp hfull
      · exact h.queue q hq
  · exact h

/-- An operation changes the mark of its own predicate only. -/
theorem getBit_exec_of_ne (hsize : P.numPredicates ≤ m.predicateExistence.capacity) {o : Op P}
    {q : ℕ} (hq : o.predicate ≠ some q) :
    (exec P m o).predicateExistence.getBit q = m.predicateExistence.getBit q := by
  have hcap : ∀ id : Fin P.numPredicates, id.val < m.predicateExistence.capacity := fun id =>
    Nat.lt_of_lt_of_le id.isLt hsize
  cases o with
  | newLinearFact id =>
    have hne : ¬ id.val = q := fun e => hq (congrArg some e)
    rw [exec, getBit_newLinearFact (hcap id)]
    simp [hne]
  | newPersistentFact id =>
    have hne : ¬ id.val = q := fun e => hq (congrArg some e)
    rw [exec, newPersistentFact, getBit_newLinearFact (hcap id)]
    simp [hne]
  | newPersistentCount id count =>
    have hne : ¬ id.val = q := fun e => hq (congrArg some e)
    rw [exec, getBit_newPersistentCount (hcap id), if_neg hne]
  | emptyPredicate id =>
    have hne : ¬ id.val = q := fun e => hq (congrArg some e)
    rw [exec, emptyPredicate_eq, getBit_newPersistentCount (hcap id), if_neg hne]
  | dequeueRule => rw [exec, existence_dequeueRule]

end Ops

variable {P : ThreadProgram} {m thread : RuleMatcher}

/-- A loop over predicates, of which each step changes the mark of its own predicate only. -/
theorem inv_foldl {P : Program} {step : RuleMatcher → ℕ → RuleMatcher} {mark : ℕ → Bool → Bool}
    (hstep : ∀ (m : RuleMatcher) (p : ℕ), p < P.numPredicates → Inv P m → Inv P (step m p) ∧
      ∀ q, (step m p).predicateExistence.getBit q =
        if q = p then mark q (m.predicateExistence.getBit q) else m.predicateExistence.getBit q)
    {L : List ℕ} (hnodup : L.Nodup) (hL : ∀ p ∈ L, p < P.numPredicates) {m : RuleMatcher}
    (h : Inv P m) :
    Inv P (L.foldl step m) ∧ ∀ q, (L.foldl step m).predicateExistence.getBit q =
      if q ∈ L then mark q (m.predicateExistence.getBit q)
      else m.predicateExistence.getBit q := by
  induction L generalizing m with
  | nil => exact ⟨h, fun q => (if_neg List.not_mem_nil).symm⟩
  | cons p L ih =>
    obtain ⟨hp, hnodup⟩ := List.nodup_cons.mp hnodup
    obtain ⟨hlt, hL⟩ := List.forall_mem_cons.mp hL
    obtain ⟨hinv, hbits⟩ := hstep m p hlt h
    obtain ⟨hrun, hrest⟩ := ih hnodup hL hinv
    refine ⟨hrun, fun q => ?_⟩
    rw [List.foldl_cons, hrest q, hbits q]
    by_cases hq : q = p
    · subst hq
      rw [if_neg hp, if_pos rfl, if_pos List.mem_cons_self]
    · rw [if_neg hq]
      simp only [List.mem_cons, hq, false_or]

/-- The same for the loop over all predicates of the program. -/
theorem inv_foldl_range {P : Program} {step : RuleMatcher → ℕ → RuleMatcher}
    {mark : ℕ → Bool → Bool}
    (hstep : ∀ (m : RuleMatcher) (p : ℕ), p < P.numPredicates → Inv P m → Inv P (step m p) ∧
      ∀ q, (step m p).predicateExistence.getBit q =
        if q = p then mark q (m.predicateExistence.getBit q) else m.predicateExistence.getBit q)
    {m : RuleMatcher} (h : Inv P m) :
    Inv P ((List.range P.numPredicates).foldl step m) ∧ ∀ q < P.numPredicates,
      ((List.range P.numPredicates).foldl step m).predicateExistence.getBit q =
        mark q (m.predicateExistence.getBit q) := by
  obtain ⟨hinv, hbits⟩ := inv_foldl hstep List.nodup_range (fun p hp => List.mem_range.mp hp) h
  exact ⟨hinv, fun q hq => (hbits q).trans (if_pos (List.mem_range.mpr hq))⟩

/-- `add_thread` keeps the matcher of the node exact and adds the marks of the thread matcher. -/
theorem inv_addThread (h : Inv P.toProgram m) (hfit : BodiesFit P.toProgram)
    (thread : RuleMatcher) :
    Inv P.toProgram (m.addThread P thread) ∧ ∀ q < P.numPredicates,
      (m.addThread P thread).predicateExistence.getBit q =
        (thread.predicateExistence.getBit q || m.predicateExistence.getBit q) := by
  refine @inv_foldl_range _ _ (fun q b => thread.predicateExistence.getBit q || b) ?_ m h
  intro m p hp hm
  cases hbit : thread.predicateExistence.getBit p with
  | true =>
    rw [if_pos rfl]
    refine ⟨(inv_newLinearFact hm hp hfit.ruleNumPredicates_le).1, fun q => ?_⟩
    rw [getBit_newLinearFact (Nat.lt_of_lt_of_le hp hm.capacity_existence)]
    by_cases hq : q = p
    · subst hq
      simp [hbit]
    · have hpq : ¬ p = q := fun e => hq e.symm
      simp [hq, hpq]
  | false =>
    rw [if_neg Bool.false_ne_true]
    refine ⟨hm, fun q => ?_⟩
    by_cases hq : q = p
    · subst hq
      simp [hbit]
    · rw [if_neg hq]

/-- `remove_thread` keeps the matcher of the node exact and takes the thread predicates out. -/
theorem inv_dropThread (h : Inv P.toProgram m) :
    Inv P.toProgram (m.dropThread P) ∧ ∀ q < P.numPredicates,
      (m.dropThread P).predicateExistence.getBit q =
        (!P.isThread q && m.predicateExistence.getBit q) := by
  refine @inv_foldl_range _ _ (fun q b => !P.isThread q && b) ?_ m h
  intro m p hp hm
  rw [ThreadProgram.getBit_threadPredicatesMap hp]
  cases hthread : P.isThread p with
  | true =>
    rw [if_pos rfl]
    -- the inner conditional is `empty_predicate`
    change Inv P.toProgram (m.emptyPredicate P.toProgram p) ∧
      ∀ q, (m.emptyPredicate P.toProgram p).predicateExistence.getBit q = _
    refine ⟨inv_emptyPredicate hm hp, fun q => ?_⟩
    rw [emptyPredicate_eq,
      getBit_newPersistentCount (Nat.lt_of_lt_of_le hp hm.capacity_existence)]
    by_cases hq : q = p
    · subst hq
      simp [hthread]
    · have hpq : ¬ p = q := fun e => hq e.symm
      rw [if_neg hpq, if_neg hq]
  | false =>
    rw [if_neg Bool.false_ne_true]
    refine ⟨hm, fun q => ?_⟩
    by_cases hq : q = p
    · subst hq
      simp [hthread]
    · rw [if_neg hq]

theorem getBit_saveThread (m thread : RuleMatcher) {q : ℕ} (hq : q < P.numPredicates) :
    (m.saveThread P thread).predicateExistence.getBit q =
      (P.isThread q && m.predicateExistence.getBit q) := by
  rw [saveThread, Bitmap.getBit_setBitsOfAndResult _ _ (Program.lt_nextUint hq),
    ThreadProgram.getBit_threadPredicatesMap hq]

/-- The marks that `remove_thread` saves give every rule the count that the old marks of the thread
matcher gave. -/
def SameCounts (P : ThreadProgram) (m thread : RuleMatcher) : Prop :=
  ∀ r < P.numRules, (P.ruleBody r).countP
      (fun p => P.isThread p && m.predicateExistence.getBit p) =
    (P.ruleBody r).countP thread.predicateExistence.getBit

/-- `remove_thread` keeps the matcher of the thread node exact when the counts are the same. -/
theorem inv_saveThread (h : Inv P.toProgram thread) (hsame : SameCounts P m thread) :
    Inv P.toProgram (m.saveThread P thread) := by
  have hcount : ∀ r < P.numRules,
      (P.ruleBody r).countP (m.saveThread P thread).predicateExistence.getBit =
        (P.ruleBody r).countP thread.predicateExistence.getBit := by
    intro r hr
    rw [← hsame r hr]
    refine List.countP_congr fun p hp => ?_
    rw [getBit_saveThread _ _ (Program.lt_numPredicates_of_mem hp)]
  refine ⟨h.length_rules, ?_, h.capacity_queue, fun r hr => ?_, fun r hr p hp => ?_, h.noWrap⟩
  · have hcap := Bitmap.capacity_setBitsOfAndResult P.threadPredicatesMap m.predicateExistence
      (Program.nextUint P.numPredicates)
    rcases Nat.eq_zero_or_pos P.numPredicates with h0 | h0
    · rw [h0]
      exact Nat.zero_le _
    · have hlt := Program.lt_nextUint (v := P.numPredicates) (i := P.numPredicates - 1) (by omega)
      have hone := Program.one_le_nextUint (v := P.numPredicates) (i := P.numPredicates - 1)
        (by omega)
      change P.numPredicates ≤ (P.threadPredicatesMap.setBitsOfAndResult m.predicateExistence
        (Program.nextUint P.numPredicates)).capacity
      rw [hcap, Nat.sub_add_cancel hone]
      omega
  · rw [hcount r hr]
    exact h.counter r hr
  · have hrn := Program.lt_numRules_of_mem hp
    have hfull := List.countP_eq_length.mpr (h.queue r hr)
    rw [← hcount r hrn] at hfull
    exact List.countP_eq_length.mp hfull p hp

end RuleMatcher

/-! ## The invariant of a run -/

/-- What keeps an event from breaking a mark: an ordered iterate, which does not tell the matcher,
does not consume the last stored fact; neither does an update outside a rule, whose fact would not
move back; a retraction reports the size zero exactly if no fact is left; and a reused fact does not
arrive, between `add_thread` and `remove_thread`, for a predicate that is not marked. -/
def Event.Harmless {P : ThreadProgram} (onThread early inRule : Bool) (s : ThreadRun) :
    Event P → Prop
  | .takeOrdered p _ => s.store p ≠ 1
  | .update p _ => inRule = true ∨ s.store p ≠ 1
  | .retract _ _ size left => size = 0 ↔ left = 0
  | .reuse p _ =>
    onThread = true ∨ early = true ∨ s.matcher.predicateExistence.getBit p = true
  | _ => True

namespace ThreadRun

/-- The invariant of a run, `early` before `add_thread`.  A mark may stand for generated facts of
the predicates that are to move. -/
structure Held (P : ThreadProgram) (onThread early : Bool) (toMove : PredicateId → Prop)
    (s : ThreadRun) : Prop where
  matcher : RuleMatcher.Inv P.toProgram s.matcher
  thread : RuleMatcher.Inv P.toProgram s.thread
  threadOnly : ∀ p < P.numPredicates, s.thread.predicateExistence.getBit p = true →
    P.isThread p = true
  ownOnly : onThread = true → ∀ p < P.numPredicates,
    s.matcher.predicateExistence.getBit p = true → P.isThread p = true
  marked : ∀ p < P.numPredicates, P.isThread p = true → s.store p ≠ 0 →
    s.matcher.predicateExistence.getBit p = true ∨
      (early = true ∧ s.thread.predicateExistence.getBit p = true)
  stored : ∀ p < P.numPredicates, P.isThread p = true →
    s.matcher.predicateExistence.getBit p = true →
      s.store p ≠ 0 ∨ (s.generated p ≠ 0 ∧ toMove p)

variable {P : ThreadProgram} {onThread early inRule : Bool} {s s' : ThreadRun}
  {toMove toMove' : PredicateId → Prop} {p : ℕ}

/-- Only the predicate `p` changes, and that one as it should. -/
theorem Held.change (h : Held P onThread early toMove s)
    (hmatcher : RuleMatcher.Inv P.toProgram s'.matcher) (hthread : s'.thread = s.thread)
    (hbit : ∀ q < P.numPredicates, q ≠ p →
      s'.matcher.predicateExistence.getBit q = s.matcher.predicateExistence.getBit q)
    (hp : P.isThread p = true)
    (hstore : ∀ q, q ≠ p → s'.store q = s.store q)
    (hgen : ∀ q, q ≠ p → s.generated q ≠ 0 → toMove q → s'.generated q ≠ 0 ∧ toMove' q)
    (hmarked : s'.store p ≠ 0 → s'.matcher.predicateExistence.getBit p = true ∨
      (early = true ∧ s.thread.predicateExistence.getBit p = true))
    (hstored : s'.matcher.predicateExistence.getBit p = true →
      s'.store p ≠ 0 ∨ (s'.generated p ≠ 0 ∧ toMove' p)) :
    Held P onThread early toMove' s' := by
  refine ⟨hmatcher, ?_, ?_, fun ho q hq => ?_, fun q hq hqt => ?_, fun q hq hqt => ?_⟩
  · rw [hthread]
    exact h.thread
  · rw [hthread]
    exact h.threadOnly
  · by_cases hqp : q = p
    · subst hqp
      exact fun _ => hp
    · rw [hbit q hq hqp]
      exact h.ownOnly ho q hq
  · by_cases hqp : q = p
    · subst hqp
      rw [hthread]
      exact hmarked
    · rw [hbit q hq hqp, hstore q hqp, hthread]
      exact h.marked q hq hqt
  · by_cases hqp : q = p
    · subst hqp
      exact hstored
    · rw [hbit q hq hqp, hstore q hqp]
      intro hb
      rcases h.stored q hq hqt hb with hne | ⟨hg, hm⟩
      · exact Or.inl hne
      · exact Or.inr (hgen q hqp hg hm)

/-- The matcher changes and the marks of the thread predicates stay. -/
theorem Held.setMatcher (h : Held P onThread early toMove s) {m : RuleMatcher} {flag : Bool}
    (hmatcher : RuleMatcher.Inv P.toProgram m)
    (hbit : ∀ q < P.numPredicates, P.isThread q = true →
      m.predicateExistence.getBit q = s.matcher.predicateExistence.getBit q)
    (hown : onThread = true → ∀ q < P.numPredicates, m.predicateExistence.getBit q = true →
      P.isThread q = true)
    (hmove : ∀ q, toMove q → toMove' q) :
    Held P onThread early toMove' { s with matcher := m, generatedFacts := flag } := by
  refine ⟨hmatcher, h.thread, h.threadOnly, hown, fun q hq hqt => ?_, fun q hq hqt => ?_⟩
  · rw [hbit q hq hqt]
    exact h.marked q hq hqt
  · rw [hbit q hq hqt]
    intro hb
    rcases h.stored q hq hqt hb with hne | ⟨hg, hm⟩
    · exact Or.inl hne
    · exact Or.inr ⟨hg, hmove q hm⟩

/-- New facts: the predicate is marked and stored. -/
theorem Held.gain (h : Held P onThread early toMove s) (hfit : RuleMatcher.BodiesFit P.toProgram)
    (hp : p < P.numPredicates) (hpt : P.isThread p = true) {k : ℕ} (hk : k ≠ 0) :
    Held P onThread early toMove (s.gain P p k) := by
  have hcap : p < s.matcher.predicateExistence.capacity :=
    Nat.lt_of_lt_of_le hp h.matcher.capacity_existence
  have hstore : (s.gain P p k).store p ≠ 0 := by
    simp [ThreadRun.gain, hk]
  refine h.change (p := p) ?_ rfl (fun q _ hqp => ?_) hpt (fun q hqp => ?_)
    (fun q _ hg hm => ⟨hg, hm⟩) (fun _ => Or.inl ?_) (fun _ => Or.inl hstore)
  · exact (RuleMatcher.inv_newLinearFact h.matcher hp hfit.ruleNumPredicates_le).1
  · have hne : ¬ p = q := fun e => hqp e.symm
    rw [ThreadRun.gain, RuleMatcher.getBit_newLinearFact hcap]
    simp [hne]
  · simp [ThreadRun.gain, Function.update_of_ne hqp]
  · rw [ThreadRun.gain, RuleMatcher.getBit_newLinearFact hcap]
    simp

/-- The count of a retraction. -/
theorem Held.recount (h : Held P onThread early toMove s)
    (hfit : RuleMatcher.BodiesFit P.toProgram) (hp : p < P.numPredicates)
    (hpt : P.isThread p = true) {size left : ℕ} (hsize : size = 0 ↔ left = 0) :
    Held P onThread early toMove
      { s with
        matcher := s.matcher.newPersistentCount P.toProgram p size
        store := Function.update s.store p left } := by
  have hcap : p < s.matcher.predicateExistence.capacity :=
    Nat.lt_of_lt_of_le hp h.matcher.capacity_existence
  have hbit := RuleMatcher.getBit_newPersistentCount (P := P.toProgram) hcap size
  refine h.change (p := p) ?_ rfl (fun q _ hqp => ?_) hpt (fun q hqp => ?_)
    (fun q _ hg hm => ⟨hg, hm⟩) ?_ ?_
  · exact RuleMatcher.inv_newPersistentCount h.matcher hp hfit.ruleNumPredicates_le size
  · have hne : ¬ p = q := fun e => hqp e.symm
    exact (hbit q).trans (if_neg hne)
  · exact Function.update_of_ne hqp _ _
  · intro hne
    have hleft : left ≠ 0 := by simpa using hne
    left
    rw [hbit p, if_pos rfl, decide_eq_true_eq]
    exact fun e => hleft (hsize.1 e)
  · intro hb
    rw [hbit p, if_pos rfl, decide_eq_true_eq] at hb
    have hleft : left ≠ 0 := fun e => hb (hsize.2 e)
    left
    simpa using hleft

/-- A fact leaves the store unseen, but not as the last one. -/
theorem Held.drop (h : Held P onThread early toMove s) (hp : p < P.numPredicates)
    (hpt : P.isThread p = true) (hlast : 2 ≤ s.store p) :
    Held P onThread early toMove (s.drop p) := by
  have hstore : (s.drop p).store p ≠ 0 := by
    simp only [ThreadRun.drop, Function.update_self]
    omega
  refine h.change (p := p) h.matcher rfl (fun _ _ _ => rfl) hpt (fun q hqp => ?_)
    (fun q _ hg hm => ⟨hg, hm⟩) (fun _ => ?_) (fun _ => Or.inl hstore)
  · exact Function.update_of_ne hqp _ _
  · exact h.marked p hp hpt (by omega)

/-- A fact more waits in `generated`. -/
theorem Held.addGenerated (h : Held P onThread early toMove s) (p : ℕ)
    (hmove : ∀ q, toMove q → toMove' q) :
    Held P onThread early toMove' (s.addGenerated p) := by
  refine ⟨h.matcher, h.thread, h.threadOnly, h.ownOnly, h.marked, fun q hq hqt hb => ?_⟩
  rcases h.stored q hq hqt hb with hne | ⟨hg, hm⟩
  · exact Or.inl hne
  · refine Or.inr ⟨?_, hmove q hm⟩
    by_cases hqp : q = p
    · subst hqp
      simp [ThreadRun.addGenerated]
    · simpa [ThreadRun.addGenerated, Function.update_of_ne hqp] using hg

/-- A linear iterate tells the matcher when it consumes the last fact. -/
theorem Held.take (h : Held P onThread early toMove s) (hfit : RuleMatcher.BodiesFit P.toProgram)
    (hp : p < P.numPredicates) (hpt : P.isThread p = true) :
    Held P onThread early toMove (s.take P p) := by
  unfold ThreadRun.take
  split
  · exact h
  split
  · rw [RuleMatcher.emptyPredicate_eq]
    exact h.recount hfit hp hpt Iff.rfl
  · rename_i h0 h1
    exact h.drop hp hpt (by omega)

/-- A fact that is added to the thread node while another node runs is marked in the matcher of the
thread node only. -/
theorem Held.addToThreadNode (h : Held P onThread early toMove s)
    (hfit : RuleMatcher.BodiesFit P.toProgram) (hp : p < P.numPredicates)
    (hpt : P.isThread p = true)
    (hok : onThread = true ∨ early = true ∨ s.matcher.predicateExistence.getBit p = true) :
    Held P onThread early toMove (s.addToThreadNode P onThread p) := by
  unfold ThreadRun.addToThreadNode
  cases onThread with
  | true => exact h.gain hfit hp hpt Nat.one_ne_zero
  | false =>
    rw [if_neg Bool.false_ne_true]
    have hcap : p < s.thread.predicateExistence.capacity :=
      Nat.lt_of_lt_of_le hp h.thread.capacity_existence
    have hbit := RuleMatcher.getBit_newLinearFact (P := P.toProgram) hcap
    refine ⟨h.matcher, ?_, fun q hq hb => ?_, h.ownOnly, fun q hq hqt hne => ?_,
      fun q hq hqt hb => ?_⟩
    · exact (RuleMatcher.inv_newLinearFact h.thread hp hfit.ruleNumPredicates_le).1
    · rw [hbit, Bool.or_eq_true, decide_eq_true_eq] at hb
      rcases hb with rfl | hb
      · exact hpt
      · exact h.threadOnly q hq hb
    · rw [hbit]
      by_cases hqp : q = p
      · subst hqp
        rcases hok with hok | hok | hok
        · exact absurd hok Bool.false_ne_true
        · exact Or.inr ⟨hok, by simp⟩
        · exact Or.inl hok
      · have hne' : s.store q ≠ 0 := by simpa [Function.update_of_ne hqp] using hne
        rcases h.marked q hq hqt hne' with hm | ⟨he, hm⟩
        · exact Or.inl hm
        · exact Or.inr ⟨he, by simp [hm]⟩
    · by_cases hqp : q = p
      · subst hqp
        simp
      · simpa [Function.update_of_ne hqp] using h.stored q hq hqt hb

/-- The generated facts may move at the end of the rule. -/
def atRuleEnd (inRule : Bool) (s : ThreadRun) : PredicateId → Prop := fun _ =>
  inRule = true ∧ s.generatedFacts = true

theorem atRuleEnd_congr (h : s'.generatedFacts = s.generatedFacts) :
    atRuleEnd inRule s' = atRuleEnd inRule s := by
  funext _
  rw [atRuleEnd, atRuleEnd, h]

/-- **A harmless event keeps the invariant.** -/
theorem Held.exec (h : Held P onThread early (atRuleEnd inRule s) s)
    (hfit : RuleMatcher.BodiesFit P.toProgram) (e : Event P)
    (he : e.Harmless onThread early inRule s) :
    Held P onThread early (atRuleEnd inRule (s.exec P onThread e)) (s.exec P onThread e) := by
  cases e with
  | own o ho =>
    simp only [ThreadRun.exec]
    cases onThread with
    | true => exact h
    | false =>
      rw [if_neg Bool.false_ne_true]
      refine h.setMatcher (RuleMatcher.inv_exec h.matcher hfit.ruleNumPredicates_le o).1
        (fun q hq hqt => ?_) (fun hf => absurd hf Bool.false_ne_true) (fun _ hm => hm)
      refine RuleMatcher.getBit_exec_of_ne h.matcher.capacity_existence fun hop => ?_
      rw [ho q hop] at hqt
      exact Bool.false_ne_true hqt
  | enqueueOwn =>
    exact h.setMatcher h.matcher (fun _ _ _ => rfl) h.ownOnly fun _ hm => ⟨hm.1, rfl⟩
  | wake p =>
    have hex := RuleMatcher.existence_registerPredicateUpdate P.toProgram s.matcher p
    refine h.setMatcher (RuleMatcher.inv_registerPredicateUpdate h.matcher p).1
      (fun q _ _ => by rw [hex]) (fun ho q hq => ?_) (fun _ hm => hm)
    rw [hex]
    exact h.ownOnly ho q hq
  | markRule r =>
    have hex := RuleMatcher.existence_updateStep P.toProgram s.matcher r
    refine h.setMatcher (RuleMatcher.inv_updateStep h.matcher r.isLt)
      (fun q _ _ => by rw [hex]) (fun ho q hq => ?_) (fun _ hm => hm)
    rw [hex]
    exact h.ownOnly ho q hq
  | gain p hpt k => exact h.gain hfit p.isLt hpt (Nat.succ_ne_zero k)
  | enqueue p hpt => exact h.addGenerated p fun _ hm => ⟨hm.1, rfl⟩
  | take p hpt =>
    have hflag : (s.take P p).generatedFacts = s.generatedFacts := by
      unfold ThreadRun.take
      split
      · rfl
      · split <;> rfl
    rw [ThreadRun.exec, atRuleEnd_congr hflag]
    exact h.take hfit p.isLt hpt
  | update p hpt =>
    simp only [ThreadRun.exec]
    split
    · exact h
    · rename_i h0
      rcases he with hrule | h1
      · -- the mark stands for the generated fact, if the store has no other
        refine h.change (p := p) h.matcher rfl (fun _ _ _ => rfl) hpt (fun q hqp => ?_)
          (fun q hqp hg _ => ⟨?_, hrule, rfl⟩) (fun _ => h.marked p p.isLt hpt h0)
          (fun _ => Or.inr ⟨?_, hrule, rfl⟩)
        · exact Function.update_of_ne hqp _ _
        · simpa [ThreadRun.addGenerated, ThreadRun.drop, Function.update_of_ne hqp] using hg
        · simp [ThreadRun.addGenerated]
      · exact (h.drop p.isLt hpt (by omega)).addGenerated p fun _ hm => ⟨hm.1, rfl⟩
  | takeOrdered p hpt =>
    simp only [ThreadRun.exec]
    split
    · exact h
    · rename_i h0
      have h1 : s.store p ≠ 1 := he
      exact h.drop p.isLt hpt (by omega)
  | retract p hpt size left => exact h.recount hfit p.isLt hpt he
  | reuse p hpt =>
    have hflag : (s.addToThreadNode P onThread p).generatedFacts = s.generatedFacts := by
      unfold ThreadRun.addToThreadNode
      split <;> rfl
    rw [ThreadRun.exec, atRuleEnd_congr hflag]
    exact h.addToThreadNode hfit p.isLt hpt he

/-! ## Lists of events, rounds, the loop -/

/-- All events of the list are harmless where they happen. -/
def HarmlessAll (onThread early inRule : Bool) : ThreadRun → List (Event P) → Prop
  | _, [] => True
  | s, e :: es => e.Harmless onThread early inRule s ∧
      HarmlessAll onThread early inRule (s.exec P onThread e) es

theorem Held.execAll {es : List (Event P)}
    (h : Held P onThread early (atRuleEnd inRule s) s)
    (hfit : RuleMatcher.BodiesFit P.toProgram) (hes : HarmlessAll onThread early inRule s es) :
    Held P onThread early (atRuleEnd inRule (s.execAll P onThread es))
      (s.execAll P onThread es) := by
  induction es generalizing s with
  | nil => exact h
  | cons e es ih => exact ih (h.exec hfit e hes.1) hes.2

/-- When nothing is to move, the marks are the stored facts. -/
theorem Held.of_toMove (h : Held P onThread early toMove s) (hmove : ∀ q, toMove q → toMove' q) :
    Held P onThread early toMove' s :=
  h.setMatcher h.matcher (fun _ _ _ => rfl) h.ownOnly hmove

/-- The generated facts move, predicate by predicate. -/
theorem Held.moveGenerated (hfit : RuleMatcher.BodiesFit P.toProgram) (L : List ℕ)
    (hL : ∀ p ∈ L, p < P.numPredicates) (h : Held P onThread early (· ∈ L) s) :
    Held P onThread early (fun _ => False) (L.foldl (ThreadRun.moveGenerated P) s) := by
  induction L generalizing s with
  | nil => exact h.of_toMove fun q hq => absurd hq List.not_mem_nil
  | cons p L ih =>
    rw [List.foldl_cons]
    have hp : p < P.numPredicates := hL p List.mem_cons_self
    refine ih (fun q hq => hL q (List.mem_cons_of_mem _ hq)) ?_
    unfold ThreadRun.moveGenerated
    split
    · rename_i hgen
      rw [Bool.and_eq_true, decide_eq_true_eq] at hgen
      have hgain := h.gain hfit hp hgen.1 hgen.2
      refine hgain.change (p := p) hgain.matcher rfl (fun _ _ _ => rfl) hgen.1 (fun _ _ => rfl)
        (fun q hqp hg hm => ⟨?_, ?_⟩) (hgain.marked p hp hgen.1) (fun _ => Or.inl ?_)
      · simpa [Function.update_of_ne hqp, ThreadRun.gain] using hg
      · exact (List.mem_cons.mp hm).resolve_left hqp
      · simp [ThreadRun.gain, hgen.2]
    · rename_i hgen
      refine ⟨h.matcher, h.thread, h.threadOnly, h.ownOnly, h.marked, fun q hq hqt hb => ?_⟩
      rcases h.stored q hq hqt hb with hne | ⟨hg, hm⟩
      · exact Or.inl hne
      · rcases List.mem_cons.mp hm with rfl | hm
        · exact absurd (by simp [hqt, hg]) hgen
        · exact Or.inr ⟨hg, hm⟩

/-- After a rule the marks are the stored facts again. -/
theorem Held.moveAll (h : Held P onThread early (atRuleEnd true s) s)
    (hfit : RuleMatcher.BodiesFit P.toProgram) :
    Held P onThread early (fun _ => False) (s.moveAll P) := by
  unfold ThreadRun.moveAll
  split
  · refine Held.moveGenerated hfit _ (fun p hp => List.mem_range.mp hp) ?_
    refine ⟨h.matcher, h.thread, h.threadOnly, h.ownOnly, h.marked, fun q hq hqt hb => ?_⟩
    rcases h.stored q hq hqt hb with hne | ⟨hg, -⟩
    · exact Or.inl hne
    · exact Or.inr ⟨hg, List.mem_range.mpr hq⟩
  · rename_i hflag
    exact h.of_toMove fun _ hm => hflag hm.2

/-- The start of a rule. -/
theorem Held.startRule (h : Held P onThread early toMove s) :
    Held P onThread early toMove s.startRule := by
  have hex := RuleMatcher.existence_dequeueRule s.matcher
  refine h.setMatcher (RuleMatcher.inv_dequeueRule h.matcher) (fun q _ _ => by rw [hex])
    (fun ho q hq => ?_) (fun _ hm => hm)
  rw [hex]
  exact h.ownOnly ho q hq

/-- Between rules the marks are the stored facts. -/
abbrev Settled (P : ThreadProgram) (onThread : Bool) (s : ThreadRun) : Prop :=
  Held P onThread false (fun _ => False) s

/-- The events of a round are harmless. -/
def HarmlessRound (onThread : Bool) (s : ThreadRun) (r : Round P) : Prop :=
  s.matcher.ruleQueue.empty = false →
    HarmlessAll onThread false true s.startRule r.rule ∧
      HarmlessAll onThread false false ((s.startRule.execAll P onThread r.rule).moveAll P) r.after

/-- The events of the rounds are harmless. -/
def HarmlessRounds (onThread : Bool) : ThreadRun → List (Round P) → Prop
  | _, [] => True
  | s, r :: rs => HarmlessRound onThread s r ∧ HarmlessRounds onThread (s.round P onThread r) rs

/-- Outside a rule nothing is to move. -/
theorem Held.execAll_outside {es : List (Event P)}
    (h : Held P onThread early (fun _ => False) s) (hfit : RuleMatcher.BodiesFit P.toProgram)
    (hes : HarmlessAll onThread early false s es) :
    Held P onThread early (fun _ => False) (s.execAll P onThread es) := by
  have hstart : Held P onThread early (atRuleEnd false s) s := h.of_toMove fun _ hf => hf.elim
  exact (hstart.execAll hfit hes).of_toMove fun _ hm => Bool.false_ne_true hm.1

theorem Settled.round (h : Settled P onThread s) (hfit : RuleMatcher.BodiesFit P.toProgram)
    {r : Round P} (hr : HarmlessRound onThread s r) : Settled P onThread (s.round P onThread r) := by
  unfold ThreadRun.round
  split
  · exact h
  · rename_i hne
    obtain ⟨hrule, hafter⟩ := hr (Bool.eq_false_iff.mpr hne)
    have hstart : Held P onThread false (atRuleEnd true s.startRule) s.startRule :=
      h.startRule.of_toMove fun _ hf => hf.elim
    exact ((hstart.execAll hfit hrule).moveAll hfit).execAll_outside hfit hafter

theorem Settled.rounds (h : Settled P onThread s) (hfit : RuleMatcher.BodiesFit P.toProgram)
    {rs : List (Round P)} (hrs : HarmlessRounds onThread s rs) :
    Settled P onThread (s.rounds P onThread rs) := by
  induction rs generalizing s with
  | nil => exact h
  | cons r rs ih => exact ih (h.round hfit hrs.1) hrs.2

/-! ## The runs -/

/-- The condition on a run of an ordinary node: its events are harmless, when `add_thread` is called
every predicate marked in the thread matcher has facts, and when `remove_thread` is called the marks
of the thread predicates give every rule the count that the thread matcher has. -/
structure Careful (P : ThreadProgram) (s : ThreadRun) (before : List (Event P))
    (rs : List (Round P)) : Prop where
  beforeOk : HarmlessAll false true false s before
  addOk : ∀ p < P.numPredicates,
    (s.execAll P false before).thread.predicateExistence.getBit p = true →
      (s.execAll P false before).store p ≠ 0
  roundsOk : HarmlessRounds false ((s.execAll P false before).addThread P) rs
  removeOk : RuleMatcher.SameCounts P
    (((s.execAll P false before).addThread P).rounds P false rs).matcher
    (((s.execAll P false before).addThread P).rounds P false rs).thread

/-- The condition on a run of the thread node: its events are harmless. -/
structure CarefulThread (P : ThreadProgram) (s : ThreadRun) (before : List (Event P))
    (rs : List (Round P)) : Prop where
  beforeOk : HarmlessAll true false false s before
  roundsOk : HarmlessRounds true (s.execAll P true before) rs

/-- After `add_thread` the marks of the node are the stored facts. -/
theorem Held.addThread (h : Held P false true (fun _ => False) s)
    (hfit : RuleMatcher.BodiesFit P.toProgram)
    (hadd : ∀ p < P.numPredicates, s.thread.predicateExistence.getBit p = true →
      s.store p ≠ 0) : Settled P false (s.addThread P) := by
  obtain ⟨hinv, hbit⟩ := RuleMatcher.inv_addThread h.matcher hfit s.thread
  refine ⟨hinv, h.thread, h.threadOnly, fun hf => absurd hf Bool.false_ne_true,
    fun q hq hqt hne => Or.inl ?_, fun q hq hqt hb => Or.inl ?_⟩
  · refine (hbit q hq).trans ?_
    rcases h.marked q hq hqt hne with hm | ⟨-, hm⟩ <;> simp [hm]
  · have hor := (hbit q hq).symm.trans hb
    rw [Bool.or_eq_true] at hor
    rcases hor with hm | hm
    · exact hadd q hq hm
    · exact (h.stored q hq hqt hm).resolve_right fun hf => hf.2

/-- What a run leaves: both matchers exact, no thread predicate marked in the node, and the marks of
the thread node are the stored facts. -/
structure Done (P : ThreadProgram) (s : ThreadRun) : Prop where
  matcher : RuleMatcher.Inv P.toProgram s.matcher
  clear : ∀ p < P.numPredicates, P.isThread p = true →
    s.matcher.predicateExistence.getBit p = false
  thread : RuleMatcher.Inv P.toProgram s.thread
  threadOnly : ∀ p < P.numPredicates, s.thread.predicateExistence.getBit p = true →
    P.isThread p = true
  marks : ∀ p < P.numPredicates, P.isThread p = true →
    (s.thread.predicateExistence.getBit p = true ↔ s.store p ≠ 0)

theorem Settled.marks (h : Settled P onThread s) (hp : p < P.numPredicates)
    (hpt : P.isThread p = true) :
    s.matcher.predicateExistence.getBit p = true ↔ s.store p ≠ 0 :=
  ⟨fun hb => (h.stored p hp hpt hb).resolve_right fun hf => hf.2,
    fun hne => (h.marked p hp hpt hne).resolve_right fun hf => Bool.false_ne_true hf.1⟩

theorem Settled.removeThread (h : Settled P false s)
    (hsame : RuleMatcher.SameCounts P s.matcher s.thread) : Done P (s.removeThread P) := by
  obtain ⟨hinv, hbit⟩ := RuleMatcher.inv_dropThread h.matcher
  refine ⟨hinv, fun p hp hpt => ?_, RuleMatcher.inv_saveThread h.thread hsame,
    fun p hp hb => ?_, fun p hp hpt => ?_⟩
  · refine (hbit p hp).trans ?_
    simp [hpt]
  · have hand := (RuleMatcher.getBit_saveThread s.matcher s.thread hp).symm.trans hb
    exact (Bool.and_eq_true _ _ ▸ hand).1
  · have hsave := RuleMatcher.getBit_saveThread s.matcher s.thread hp
    rw [hpt, Bool.true_and] at hsave
    exact (Eq.congr_left hsave).trans (h.marks hp hpt)

/-- **A careful run of an ordinary node.** -/
theorem Held.runNode {before : List (Event P)} {rs : List (Round P)}
    (h : Held P false true (fun _ => False) s) (hfit : RuleMatcher.BodiesFit P.toProgram)
    (hc : Careful P s before rs) : Done P (s.runNode P before rs) := by
  have hbefore := h.execAll_outside hfit hc.beforeOk
  exact ((hbefore.addThread hfit hc.addOk).rounds hfit hc.roundsOk).removeThread hc.removeOk

/-- A careful run of the thread node. -/
theorem Settled.runThreadNode {before : List (Event P)} {rs : List (Round P)}
    (h : Settled P true s) (hfit : RuleMatcher.BodiesFit P.toProgram)
    (hc : CarefulThread P s before rs) : Settled P true (s.runThreadNode P before rs) := by
  have hbefore := h.execAll_outside hfit hc.beforeOk
  exact Settled.rounds hbefore hfit hc.roundsOk

end ThreadRun

/-! ## Sequences of runs -/

/-- A thread node as `setup_thread_node` leaves it is exact. -/
theorem ThreadNode.inv_setup {P : ThreadProgram} (hfit : RuleMatcher.BodiesFit P.toProgram)
    (facts : List (Fin P.numPredicates)) :
    RuleMatcher.Inv P.toProgram (ThreadNode.setup P facts).matcher ∧
      ∀ q, (ThreadNode.setup P facts).matcher.predicateExistence.getBit q = true ↔
        ∃ p ∈ facts, p.val = q := by
  have hfold : ∀ (L : List (Fin P.numPredicates)) (m : RuleMatcher),
      RuleMatcher.Inv P.toProgram m →
      RuleMatcher.Inv P.toProgram (L.foldl (fun m p => m.newLinearFact P.toProgram p.val) m) ∧
        ∀ q, (L.foldl (fun m p => m.newLinearFact P.toProgram p.val) m).predicateExistence.getBit q =
            true ↔ (∃ p ∈ L, p.val = q) ∨ m.predicateExistence.getBit q = true := by
    intro L
    induction L with
    | nil => intro m hm; exact ⟨hm, by simp⟩
    | cons p L ih =>
      intro m hm
      have hnew := (RuleMatcher.inv_newLinearFact hm p.isLt hfit.ruleNumPredicates_le).1
      refine ⟨(ih _ hnew).1, fun q => ?_⟩
      rw [List.foldl_cons, (ih _ hnew).2 q, RuleMatcher.getBit_newLinearFact
        (Nat.lt_of_lt_of_le p.isLt hm.capacity_existence), Bool.or_eq_true, decide_eq_true_eq,
        List.exists_mem_cons_iff]
      exact or_left_comm.trans or_assoc.symm
  obtain ⟨hinv, hbit⟩ := hfold facts _ (RuleMatcher.inv_create P.toProgram)
  refine ⟨hinv, fun q => ?_⟩
  have hfresh : (RuleMatcher.create P.toProgram).predicateExistence.getBit q = false :=
    Bitmap.getBit_create _ q
  rw [ThreadNode.setup, hbit q, hfresh]
  simp

theorem ThreadNode.store_setup_ne_zero {P : ThreadProgram} (facts : List (Fin P.numPredicates))
    (q : ℕ) : (ThreadNode.setup P facts).store q ≠ 0 ↔ ∃ p ∈ facts, p.val = q := by
  rw [ThreadNode.setup, ← Nat.pos_iff_ne_zero, List.countP_pos_iff]
  simp

namespace System

/-- What the transfers are to keep: every matcher is exact, and the marks of a thread node are the
thread facts of its store. -/
structure Sound (P : ThreadProgram) (s : System) : Prop where
  nodes : ∀ n, RuleMatcher.Inv P.toProgram (s.nodes n)
  threads : ∀ t, RuleMatcher.Inv P.toProgram (s.threads t).matcher
  marks : ∀ t, ∀ p < P.numPredicates, P.isThread p = true →
    ((s.threads t).matcher.predicateExistence.getBit p = true ↔ (s.threads t).store p ≠ 0)

/-- Soundness with what the induction needs besides: nodes have no thread predicate marked, and
thread nodes no other. -/
structure Separate (P : ThreadProgram) (s : System) : Prop extends Sound P s where
  clear : ∀ n, ∀ p < P.numPredicates, P.isThread p = true →
    (s.nodes n).predicateExistence.getBit p = false
  threadOnly : ∀ t, ∀ p < P.numPredicates,
    (s.threads t).matcher.predicateExistence.getBit p = true → P.isThread p = true

/-- What happens to the nodes and the threads. -/
inductive Action (P : ThreadProgram) where
  | runNode (t n : ℕ) (before : List (Event P)) (rs : List (Round P))
  | runThreadNode (t : ℕ) (before : List (Event P)) (rs : List (Round P))
  | deliver (n : ℕ) (p : Fin P.numPredicates) (hp : P.isThread p = false)

variable {P : ThreadProgram} {s : System}

/-- One run, or one delivery. -/
def exec (P : ThreadProgram) (s : System) : Action P → System
  | .runNode t n before rs => s.runNode P t n before rs
  | .runThreadNode t before rs => s.runThreadNode P t before rs
  | .deliver n p _ => s.deliver P n p

/-- The condition on a run. -/
def Careful (s : System) : Action P → Prop
  | .runNode t n before rs => ThreadRun.Careful P ((s.threads t).begin (s.nodes n)) before rs
  | .runThreadNode t before rs =>
    ThreadRun.CarefulThread P ((s.threads t).begin (s.threads t).matcher) before rs
  | .deliver _ _ _ => True

/-- The states that sequences of allowed runs lead to, from fresh nodes and thread nodes that hold
the facts of `setup_thread_node`. -/
inductive Reach (P : ThreadProgram) (allowed : System → Action P → Prop) : System → Prop where
  | create (facts : ℕ → List (Fin P.numPredicates))
      (hfacts : ∀ t, ∀ p ∈ facts t, P.isThread p = true) : Reach P allowed (create P facts)
  | step {s : System} (h : Reach P allowed s) (a : Action P) (ha : allowed s a) :
      Reach P allowed (s.exec P a)

theorem Separate.create (hfit : RuleMatcher.BodiesFit P.toProgram)
    (facts : ℕ → List (Fin P.numPredicates)) (hfacts : ∀ t, ∀ p ∈ facts t, P.isThread p = true) :
    Separate P (create P facts) where
  nodes := fun _ => RuleMatcher.inv_create P.toProgram
  threads := fun t => (ThreadNode.inv_setup hfit (facts t)).1
  marks := fun t p _ _ => ((ThreadNode.inv_setup hfit (facts t)).2 p).trans
    (ThreadNode.store_setup_ne_zero (facts t) p).symm
  clear := fun _ p _ _ => Bitmap.getBit_create _ p
  threadOnly := by
    intro t p _ hb
    obtain ⟨q, hq, rfl⟩ := ((ThreadNode.inv_setup hfit (facts t)).2 p).1 hb
    exact hfacts t q hq

/-- A run of an ordinary node starts with the thread facts marked in the thread matcher. -/
theorem Separate.begin (h : Separate P s) (t n : ℕ) :
    ThreadRun.Held P false true (fun _ => False) ((s.threads t).begin (s.nodes n)) where
  matcher := h.nodes n
  thread := h.threads t
  threadOnly := h.threadOnly t
  ownOnly := fun hf => absurd hf Bool.false_ne_true
  marked := fun p hp hpt hne => Or.inr ⟨rfl, (h.marks t p hp hpt).2 hne⟩
  stored := fun p hp hpt hb => absurd ((h.clear n p hp hpt).symm.trans hb) Bool.false_ne_true

/-- A run of the thread node starts with its facts marked. -/
theorem Separate.beginThread (h : Separate P s) (t : ℕ) :
    ThreadRun.Settled P true ((s.threads t).begin (s.threads t).matcher) where
  matcher := h.threads t
  thread := h.threads t
  threadOnly := h.threadOnly t
  ownOnly := fun _ => h.threadOnly t
  marked := fun p hp hpt hne => Or.inl ((h.marks t p hp hpt).2 hne)
  stored := fun p hp hpt hb => Or.inl ((h.marks t p hp hpt).1 hb)

/-- One thread is replaced by one that is as it should be. -/
theorem Separate.setThread (h : Separate P s) (t : ℕ) {T : ThreadNode}
    (hinv : RuleMatcher.Inv P.toProgram T.matcher)
    (honly : ∀ p < P.numPredicates, T.matcher.predicateExistence.getBit p = true →
      P.isThread p = true)
    (hmarks : ∀ p < P.numPredicates, P.isThread p = true →
      (T.matcher.predicateExistence.getBit p = true ↔ T.store p ≠ 0)) :
    Separate P { s with threads := Function.update s.threads t T } := by
  refine ⟨⟨h.nodes, fun u => ?_, fun u => ?_⟩, h.clear, fun u => ?_⟩
  all_goals
    by_cases hut : u = t
    · subst hut
      simpa using by assumption
    · simp only [Function.update_of_ne hut]
      first | exact h.threads u | exact h.marks u | exact h.threadOnly u

/-- One node is replaced by one that is as it should be. -/
theorem Separate.setNode (h : Separate P s) (n : ℕ) {m : RuleMatcher}
    (hinv : RuleMatcher.Inv P.toProgram m)
    (hclear : ∀ p < P.numPredicates, P.isThread p = true →
      m.predicateExistence.getBit p = false) :
    Separate P { s with nodes := Function.update s.nodes n m } := by
  refine ⟨⟨fun k => ?_, h.threads, h.marks⟩, fun k => ?_, h.threadOnly⟩
  all_goals
    by_cases hkn : k = n
    · subst hkn
      simpa using by assumption
    · simp only [Function.update_of_ne hkn]
      first | exact h.nodes k | exact h.clear k

/-- **A careful action keeps the system sound.** -/
theorem Separate.exec (h : Separate P s) (hfit : RuleMatcher.BodiesFit P.toProgram) (a : Action P)
    (ha : s.Careful a) : Separate P (s.exec P a) := by
  cases a with
  | runNode t n before rs =>
    have hdone := (h.begin t n).runNode hfit ha
    simp only [System.exec, System.runNode]
    generalize ((s.threads t).begin (s.nodes n)).runNode P before rs = e at hdone ⊢
    have hthread := h.setThread t (T := ⟨e.thread, e.store, e.generated⟩) hdone.thread
      hdone.threadOnly hdone.marks
    exact hthread.setNode n hdone.matcher hdone.clear
  | runThreadNode t before rs =>
    have hdone := (h.beginThread t).runThreadNode hfit ha
    simp only [System.exec, System.runThreadNode]
    generalize ((s.threads t).begin (s.threads t).matcher).runThreadNode P before rs = e at hdone ⊢
    exact h.setThread t (T := ⟨e.matcher, e.store, e.generated⟩) hdone.matcher
      (hdone.ownOnly rfl) fun p hp hpt => hdone.marks hp hpt
  | deliver n p hp =>
    refine h.setNode n (RuleMatcher.inv_newLinearFact (h.nodes n) p.isLt
      hfit.ruleNumPredicates_le).1 fun q hq hqt => ?_
    have hne : ¬ p.val = q := by
      rintro rfl
      exact Bool.false_ne_true (hp.symm.trans hqt)
    rw [RuleMatcher.getBit_newLinearFact
      (Nat.lt_of_lt_of_le p.isLt (h.nodes n).capacity_existence), h.clear n q hq hqt]
    simp [hne]

/-- **In every sequence of careful runs the matchers of the nodes and of the thread nodes are exact,
and the marks of a thread node are the thread facts of its store.** -/
theorem reach_exact (hfit : RuleMatcher.BodiesFit P.toProgram) (h : Reach P Careful s) :
    Sound P s := by
  have hsep : Separate P s := by
    induction h with
    | create facts hfacts => exact Separate.create hfit facts hfacts
    | step _ a ha ih => exact ih.exec hfit a ha
  exact hsep.toSound

/-- One thread predicate, one predicate of the nodes, and a rule that needs both. -/
def pairProgram : ThreadProgram where
  numPredicates := 2
  ruleBodies := [[0, 1]]
  body_lt := by decide
  isThread := fun p => p == 0

/-- The thread predicate of `pairProgram`. -/
def pairThread : Fin pairProgram.numPredicates := ⟨0, by decide⟩

theorem bodiesFit_pairProgram : RuleMatcher.BodiesFit pairProgram.toProgram := by
  intro body hb
  rw [List.mem_singleton.mp hb]
  decide

/-- A thread fact that was there from the start passes through the run of a node unharmed. -/
theorem reach_exact_pairProgram :
    Sound pairProgram ((create pairProgram fun _ => [pairThread]).exec pairProgram
      (.runNode 0 0 [] [])) := by
  refine reach_exact bodiesFit_pairProgram (.step (.create _ ?_) _ ⟨trivial, ?_, trivial, ?_⟩)
  · intro t p hp
    rw [List.mem_singleton.mp hp]
    rfl
  · decide
  · unfold RuleMatcher.SameCounts
    decide

/-- **An incoming thread fact breaks the matcher of the thread node.**  It is announced to the node
that runs; afterwards the thread matcher has the mark, and its counter is still zero. -/
theorem not_forall_reach_exact :
    ¬ ∀ (P : ThreadProgram) (s : System), RuleMatcher.BodiesFit P.toProgram →
      Reach P (fun _ _ => True) s → Sound P s := by
  intro hall
  have h := hall pairProgram _ bodiesFit_pairProgram
    (.step (.create (fun _ => []) (fun _ _ hp => absurd hp List.not_mem_nil))
      (.runNode 0 0 [.gain pairThread rfl 0] []) trivial)
  have hcounter := (h.threads 0).counter 0 Nat.one_pos
  revert hcounter
  decide

end System
end Meld
