import Mathlib.Data.List.Count
import Mathlib.Data.List.FinRange
import Meld.Vm.Bitmap

/-!
# The rule matcher

Every node carries a `rule_matcher`.  It knows which predicates the node has facts of
(`predicate_existence`), counts for every rule how many of its body predicates are present
(`rules`, one byte a rule) and keeps the rules that may fire in `rule_queue`.  Facts arrive and
vanish one predicate at a time, and the counters are corrected incrementally: nothing is ever
recounted.

* `Program`: the body lists of the rules, and `linearRules`, the table the loader builds from them
  (`program::program` pushes a rule once for every occurrence of a predicate in its body).
* `registerPredicateAvailability`, `registerPredicateUnavailability`, `registerPredicateUpdate`:
  the three loops over that table.
* `Op`, `exec`, `run`: what a node does to its matcher.

The counters are bytes, so a body of more than 255 entries does not fit in one.  The loader asserts
that bodies are short; `wrapped` records the first time a counter leaves its range.
-/

namespace Meld

/-- `predicate_id`. -/
abbrev PredicateId := ℕ

/-- `rule_id`. -/
abbrev RuleId := ℕ

/-- What the matcher reads of a program: the number of predicates and, for every rule, the list of
predicates of its body, in which a predicate may be listed more than once. -/
structure Program where
  numPredicates : ℕ
  ruleBodies : List (List PredicateId)
  /-- The loader looks every body entry up in the table of predicates. -/
  body_lt : ∀ body ∈ ruleBodies, ∀ p ∈ body, p < numPredicates

namespace Program

/-- A program of `n` predicates and no rules. -/
def noRules (n : ℕ) : Program := ⟨n, [], by simp⟩

/-- `num_rules`. -/
def numRules (P : Program) : ℕ := P.ruleBodies.length

/-- The body list of rule `r`. -/
def ruleBody (P : Program) (r : RuleId) : List PredicateId := P.ruleBodies.getD r []

/-- `rule::num_predicates`. -/
def ruleNumPredicates (P : Program) (r : RuleId) : ℕ := (P.ruleBody r).length

/-- The inner loop of the loader: `predicates[id]->add_linear_affected_rule(rules[i])` for every
entry of the body of rule `i`, on the table `predicate id ↦ linear_rules`. -/
def addRule (tbl : PredicateId → List RuleId) (i : RuleId) (body : List PredicateId) :
    PredicateId → List RuleId :=
  body.foldl (fun t id p => if p = id then t p ++ [i] else t p) tbl

/-- The outer loop of the loader, over the rules from number `i` on. -/
def addRules : (PredicateId → List RuleId) → RuleId → List (List PredicateId) →
    PredicateId → List RuleId
  | tbl, _, [] => tbl
  | tbl, i, body :: bodies => addRules (addRule tbl i body) (i + 1) bodies

/-- `predicate::linear_rules`, as the loader leaves it. -/
def linearRules (P : Program) : PredicateId → List RuleId :=
  addRules (fun _ => []) 0 P.ruleBodies

/-- `next_multiple_of_uint`: the number of bitmap words for `v` bits. -/
def nextUint (v : ℕ) : ℕ := v / bitmapBits + if v % bitmapBits > 0 then 1 else 0

end Program

/-- `rule_matcher`.  `wrapped` is not in the source: it is set when a byte counter is incremented at
255 or decremented at 0. -/
structure RuleMatcher where
  rules : List UInt8
  predicateExistence : Bitmap
  ruleQueue : Bitmap
  wrapped : Bool
  deriving DecidableEq

namespace RuleMatcher

/-- The constructor: all counters zero, both bitmaps empty. -/
def create (P : Program) : RuleMatcher where
  rules := List.replicate P.numRules 0
  predicateExistence := Bitmap.create (Program.nextUint P.numPredicates)
  ruleQueue := Bitmap.create (Program.nextUint P.numRules)
  wrapped := false

/-- `rules[r]`. -/
def counter (m : RuleMatcher) (r : RuleId) : UInt8 := m.rules.getD r 0

/-- One round of the loop of `register_predicate_unavailability`. -/
def unavailabilityStep (P : Program) (m : RuleMatcher) (r : RuleId) : RuleMatcher :=
  let queue :=
    if (m.counter r).toNat = P.ruleNumPredicates r then m.ruleQueue.unsetBit r else m.ruleQueue
  { m with
    ruleQueue := queue
    wrapped := m.wrapped || m.counter r == 0
    rules := m.rules.set r (m.counter r - 1) }

/-- `register_predicate_unavailability`. -/
def registerPredicateUnavailability (P : Program) (m : RuleMatcher) (id : PredicateId) :
    RuleMatcher :=
  (P.linearRules id).foldl (unavailabilityStep P)
    { m with predicateExistence := m.predicateExistence.unsetBit id }

/-- One round of the loop of `register_predicate_availability`. -/
def availabilityStep (P : Program) (m : RuleMatcher) (r : RuleId) : RuleMatcher :=
  let c := m.counter r + 1
  { m with
    wrapped := m.wrapped || m.counter r == 255
    rules := m.rules.set r c
    ruleQueue :=
      if c.toNat = P.ruleNumPredicates r then m.ruleQueue.setBit r else m.ruleQueue }

/-- `register_predicate_availability`. -/
def registerPredicateAvailability (P : Program) (m : RuleMatcher) (id : PredicateId) :
    RuleMatcher :=
  (P.linearRules id).foldl (availabilityStep P)
    { m with predicateExistence := m.predicateExistence.setBit id }

/-- One round of the loop of `register_predicate_update`. -/
def updateStep (P : Program) (m : RuleMatcher) (r : RuleId) : RuleMatcher :=
  if (m.counter r).toNat = P.ruleNumPredicates r then
    { m with ruleQueue := m.ruleQueue.setBit r }
  else m

/-- `register_predicate_update`. -/
def registerPredicateUpdate (P : Program) (m : RuleMatcher) (id : PredicateId) : RuleMatcher :=
  (P.linearRules id).foldl (updateStep P) m

/-- `new_linear_fact`. -/
def newLinearFact (P : Program) (m : RuleMatcher) (id : PredicateId) : RuleMatcher :=
  if m.predicateExistence.getBit id then registerPredicateUpdate P m id
  else registerPredicateAvailability P m id

/-- `new_persistent_fact`. -/
def newPersistentFact (P : Program) (m : RuleMatcher) (id : PredicateId) : RuleMatcher :=
  newLinearFact P m id

/-- `new_persistent_count`. -/
def newPersistentCount (P : Program) (m : RuleMatcher) (id : PredicateId) (count : ℕ) :
    RuleMatcher :=
  if count = 0 then
    if m.predicateExistence.getBit id then registerPredicateUnavailability P m id else m
  else newPersistentFact P m id

/-- `empty_predicate`. -/
def emptyPredicate (P : Program) (m : RuleMatcher) (id : PredicateId) : RuleMatcher :=
  if m.predicateExistence.getBit id then registerPredicateUnavailability P m id else m

/-- The loop head of `run_node`: take the next rule out of a queue that is not empty. -/
def dequeueRule (m : RuleMatcher) : RuleMatcher :=
  if m.ruleQueue.empty then m else { m with ruleQueue := m.ruleQueue.removeFront.2 }

/-- The operations on a matcher, on predicates of the program. -/
inductive Op (P : Program) where
  | newLinearFact (id : Fin P.numPredicates)
  | newPersistentFact (id : Fin P.numPredicates)
  | newPersistentCount (id : Fin P.numPredicates) (count : ℕ)
  | emptyPredicate (id : Fin P.numPredicates)
  | dequeueRule

/-- One operation. -/
def exec (P : Program) (m : RuleMatcher) : Op P → RuleMatcher
  | .newLinearFact id => m.newLinearFact P id
  | .newPersistentFact id => m.newPersistentFact P id
  | .newPersistentCount id count => m.newPersistentCount P id count
  | .emptyPredicate id => m.emptyPredicate P id
  | .dequeueRule => m.dequeueRule

/-- A sequence of operations on a fresh matcher. -/
def run (P : Program) (ops : List (Op P)) : RuleMatcher := ops.foldl (exec P) (create P)

/-- The predicate a fact of which the operation announces. -/
def Op.newFact {P : Program} : Op P → Option PredicateId
  | .newLinearFact id => some id
  | .newPersistentFact id => some id
  | .newPersistentCount id count => if count = 0 then none else some id
  | .emptyPredicate _ => none
  | .dequeueRule => none

end RuleMatcher

/-! ## The table of the loader -/

namespace Program

variable {P : Program}

/-- The inner loop adds `i` to the row of `p` once for every occurrence of `p`. -/
theorem addRule_eq (tbl : PredicateId → List RuleId) (i : ℕ) (body : List PredicateId)
    (p : ℕ) :
    addRule tbl i body p = tbl p ++ List.replicate (body.count p) i := by
  induction body generalizing tbl with
  | nil => simp [addRule]
  | cons id body ih =>
    have h : addRule tbl i (id :: body) p =
        addRule (fun q => if q = id then tbl q ++ [i] else tbl q) i body p := rfl
    rw [h, ih]
    by_cases hp : p = id
    · subst hp
      simp [List.replicate_succ']
      rw [← List.replicate_succ', List.replicate_succ]
    · have hne : id ≠ p := fun h => hp h.symm
      simp [hp, List.count_cons_of_ne hne]

/-- The outer loop: rule `r` stands in the row of `p` as often as `p` in the body of `r`. -/
theorem count_addRules (tbl : PredicateId → List RuleId) (i : ℕ)
    (bodies : List (List PredicateId)) (p r : ℕ) :
    (addRules tbl i bodies p).count r =
      (tbl p).count r + if i ≤ r then ((bodies.getD (r - i) []).count p) else 0 := by
  induction bodies generalizing tbl i with
  | nil => simp [addRules]
  | cons body bodies ih =>
    rw [addRules, ih, addRule_eq, List.count_append, List.count_replicate]
    rcases Nat.lt_trichotomy i r with h | h | h
    · have e : r - i = (r - (i + 1)) + 1 := by omega
      have hne : i ≠ r := by omega
      have hle : i ≤ r := by omega
      simp [hne, hle, e, Nat.succ_le_of_lt h]
    · subst h
      simp
    · have hne : i ≠ r := by omega
      have h1 : ¬ i ≤ r := by omega
      have h2 : ¬ i + 1 ≤ r := by omega
      simp [hne, h1, h2]

/-- A predicate's row of the table counts its occurrences in every body. -/
theorem count_linearRules (P : Program) (p r : ℕ) :
    (P.linearRules p).count r = (P.ruleBody r).count p := by
  rw [linearRules, count_addRules]
  simp [ruleBody]

theorem mem_linearRules {p r : ℕ} :
    r ∈ P.linearRules p ↔ p ∈ P.ruleBody r := by
  rw [← List.count_pos_iff, count_linearRules, List.count_pos_iff]

theorem ruleBody_eq_nil {r : ℕ} (h : P.numRules ≤ r) : P.ruleBody r = [] := by
  rw [ruleBody, List.getD_eq_default _ _ h]

theorem lt_numRules_of_mem {p r : ℕ} (h : p ∈ P.ruleBody r) :
    r < P.numRules := by
  by_contra hr
  rw [ruleBody_eq_nil (Nat.le_of_not_lt hr)] at h
  exact List.not_mem_nil h

theorem ruleBody_mem {r : ℕ} (h : r < P.numRules) : P.ruleBody r ∈ P.ruleBodies := by
  rw [ruleBody, List.getD_eq_getElem _ _ h]
  exact List.getElem_mem h

theorem lt_numPredicates_of_mem {p r : ℕ} (h : p ∈ P.ruleBody r) :
    p < P.numPredicates :=
  P.body_lt _ (ruleBody_mem (lt_numRules_of_mem h)) p h

theorem lt_nextUint {v i : ℕ} (h : i < v) : i < bitmapBits * nextUint v := by
  have hdiv : bitmapBits * (v / bitmapBits) + v % bitmapBits = v := Nat.div_add_mod v bitmapBits
  have hmod : v % bitmapBits < bitmapBits := Nat.mod_lt _ (by decide)
  unfold nextUint
  split
  · rw [Nat.mul_add, Nat.mul_one]
    omega
  · rw [Nat.add_zero]
    omega

theorem one_le_nextUint {v i : ℕ} (h : i < v) : 1 ≤ nextUint v := by
  rcases Nat.eq_zero_or_pos (nextUint v) with h0 | h0
  · have := lt_nextUint h
    rw [h0] at this
    omega
  · exact h0

end Program

end Meld
