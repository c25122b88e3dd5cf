import Meld.Vm.RuleMatcher

/-!
# The rule matcher keeps its counters exact

The invariant of a matcher (`RuleMatcher.Inv`) says that the byte of every rule is the number of
entries of its body whose predicate is marked, and that a queued rule has all its body predicates
marked.  It is preserved by every operation as long as a body has at most 255 entries, the range of
the byte; no wake-up is lost (`RuleMatcher.Woken`).

The three update loops run over `linearRules id`, where a rule stands as often as the predicate in
its body.  So each loop is described for an arbitrary list of rules (`AvailabilityLoop`,
`UnavailabilityLoop`, `UpdateLoop`) in terms of the number of occurrences, and the table of the
loader enters only through `count_linearRules`.

Past 255 entries the byte cannot hold the count, so the condition is exact
(`faithful_iff_bodiesFit`).
-/

namespace Meld
namespace RuleMatcher

variable {P : Program} {m : RuleMatcher} {r : ℕ}

/-! ## The counters -/

theorem counter_set (m : RuleMatcher) {r : ℕ} (hr : r < m.rules.length) (c : UInt8) (s : ℕ) :
    (m.rules.set r c).getD s 0 = if s = r then c else m.counter s := by
  by_cases h : s = r
  · subst h
    simp [List.getD_eq_getElem?_getD, hr]
  · have hne : r ≠ s := fun e => h e.symm
    simp [counter, h, List.getD_eq_getElem?_getD, List.getElem?_set_ne hne]

/-! ## The loop of `register_predicate_availability` -/

/-- What the loop does to the matcher when it runs over the rules `L`. -/
structure AvailabilityLoop (P : Program) (L : List ℕ) (m m' : RuleMatcher) : Prop where
  existence : m'.predicateExistence = m.predicateExistence
  length_rules : m'.rules.length = m.rules.length
  capacity_queue : m'.ruleQueue.capacity = m.ruleQueue.capacity
  wrapped : m'.wrapped = m.wrapped
  counter : ∀ r, (m'.counter r).toNat = (m.counter r).toNat + L.count r
  queue : ∀ r, m'.ruleQueue.getBit r = true ↔
    m.ruleQueue.getBit r = true ∨
      (r ∈ L ∧ (m.counter r).toNat + L.count r = P.ruleNumPredicates r)

@[simp] theorem capacity_availabilityStep (P : Program) (m : RuleMatcher) (r : ℕ) :
    (availabilityStep P m r).ruleQueue.capacity = m.ruleQueue.capacity := by
  simp only [availabilityStep]
  split
  · exact Bitmap.capacity_setBit _ _
  · rfl

@[simp] theorem length_rules_availabilityStep (P : Program) (m : RuleMatcher) (r : ℕ) :
    (availabilityStep P m r).rules.length = m.rules.length := by
  simp [availabilityStep]

theorem counter_availabilityStep (hr : r < m.rules.length) (s : ℕ) :
    (availabilityStep P m r).counter s = if s = r then m.counter r + 1 else m.counter s :=
  counter_set m hr _ s

theorem toNat_add_one {c : UInt8} (h : c.toNat < 255) : (c + 1).toNat = c.toNat + 1 := by
  rw [UInt8.toNat_add]
  simp only [UInt8.reduceToNat]
  omega

theorem toNat_sub_one {c : UInt8} (h : 0 < c.toNat) : (c - 1).toNat = c.toNat - 1 := by
  have hle : (1 : UInt8) ≤ c := by
    rw [UInt8.le_iff_toNat_le]
    exact h
  rw [UInt8.toNat_sub_of_le _ _ hle]
  rfl

/-- One round is the loop over one rule. -/
theorem availabilityStep_spec (hr : r < m.rules.length) (hcap : r < m.ruleQueue.capacity)
    (hlt : (m.counter r).toNat < 255) :
    AvailabilityLoop P [r] m (availabilityStep P m r) := by
  refine ⟨rfl, length_rules_availabilityStep .., capacity_availabilityStep .., ?_, fun s => ?_,
    fun s => ?_⟩
  · have hne : m.counter r ≠ 255 := by
      intro h
      rw [h] at hlt
      exact absurd hlt (by decide)
    simp [availabilityStep, hne]
  · rw [counter_availabilityStep hr]
    by_cases hs : s = r
    · subst hs
      rw [if_pos rfl, toNat_add_one hlt, List.count_singleton_self]
    · rw [if_neg hs, List.count_singleton, if_neg (by simpa using Ne.symm hs), Nat.add_zero]
  · simp only [availabilityStep, toNat_add_one hlt, List.mem_singleton]
    by_cases hs : s = r
    · subst hs
      rw [List.count_singleton_self]
      split
      · rename_i h
        rw [Bitmap.getBit_setBit hcap]
        simp [h]
      · rename_i h
        simp [h]
    · split
      · rw [Bitmap.getBit_setBit hcap]
        simp [hs, Ne.symm hs]
      · simp [hs]

/-- Two loops one after the other.  A counter passes the size of its body at most once, because it
never exceeds that size. -/
theorem AvailabilityLoop.append {m₁ m₂ : RuleMatcher} {L₁ L₂ : List ℕ}
    (h₁ : AvailabilityLoop P L₁ m m₁) (h₂ : AvailabilityLoop P L₂ m₁ m₂)
    (hle : ∀ r ∈ L₁, (m.counter r).toNat + (L₁ ++ L₂).count r ≤ P.ruleNumPredicates r) :
    AvailabilityLoop P (L₁ ++ L₂) m m₂ := by
  refine ⟨h₂.existence.trans h₁.existence, h₂.length_rules.trans h₁.length_rules,
    h₂.capacity_queue.trans h₁.capacity_queue, h₂.wrapped.trans h₁.wrapped, fun r => ?_,
    fun r => ?_⟩
  · rw [h₂.counter, h₁.counter, List.count_append, Nat.add_assoc]
  · rw [h₂.queue, h₁.queue, h₁.counter, List.mem_append, List.count_append, Nat.add_assoc]
    by_cases hr₁ : r ∈ L₁
    · have hler := hle r hr₁
      rw [List.count_append] at hler
      by_cases hr₂ : r ∈ L₂
      · have hpos : 0 < L₂.count r := List.count_pos_iff.mpr hr₂
        have hne : (m.counter r).toNat + L₁.count r ≠ P.ruleNumPredicates r := by omega
        simp [hr₁, hr₂, hne]
      · simp [hr₁, hr₂, List.count_eq_zero.mpr hr₂]
    · simp [hr₁, List.count_eq_zero.mpr hr₁]

/-- The loop, by induction on the rules it runs over. -/
theorem availabilityLoop (L : List ℕ) (hlen : ∀ r ∈ L, r < m.rules.length)
    (hcap : ∀ r ∈ L, r < m.ruleQueue.capacity)
    (hle : ∀ r ∈ L, (m.counter r).toNat + L.count r ≤ P.ruleNumPredicates r)
    (hbyte : ∀ r ∈ L, P.ruleNumPredicates r ≤ 255) :
    AvailabilityLoop P L m (L.foldl (availabilityStep P) m) := by
  induction L generalizing m with
  | nil => exact ⟨rfl, rfl, rfl, rfl, by simp, by simp⟩
  | cons a L ih =>
    have hale := hle a List.mem_cons_self
    rw [List.count_cons_self] at hale
    have habyte := hbyte a List.mem_cons_self
    have hstep := availabilityStep_spec (P := P) (hlen a List.mem_cons_self)
      (hcap a List.mem_cons_self) (by omega)
    refine hstep.append (ih (fun r hr => ?_) (fun r hr => ?_) (fun r hr => ?_)
      fun r hr => hbyte r (List.mem_cons_of_mem a hr)) fun r hr => ?_
    · rw [hstep.length_rules]
      exact hlen r (List.mem_cons_of_mem a hr)
    · rw [hstep.capacity_queue]
      exact hcap r (List.mem_cons_of_mem a hr)
    · rw [hstep.counter, Nat.add_assoc, ← List.count_append]
      exact hle r (List.mem_cons_of_mem a hr)
    · obtain rfl := List.mem_singleton.mp hr
      exact hle r List.mem_cons_self

/-! ## The loop of `register_predicate_unavailability` -/

/-- What the loop does to the matcher when it runs over the rules `L`. -/
structure UnavailabilityLoop (P : Program) (L : List ℕ) (m m' : RuleMatcher) : Prop where
  existence : m'.predicateExistence = m.predicateExistence
  length_rules : m'.rules.length = m.rules.length
  capacity_queue : m'.ruleQueue.capacity = m.ruleQueue.capacity
  wrapped : m'.wrapped = m.wrapped
  counter : ∀ r, (m'.counter r).toNat = (m.counter r).toNat - L.count r
  queue : ∀ r, m'.ruleQueue.getBit r = true ↔
    m.ruleQueue.getBit r = true ∧
      ¬ (r ∈ L ∧ (m.counter r).toNat = P.ruleNumPredicates r)

@[simp] theorem capacity_unavailabilityStep (P : Program) (m : RuleMatcher) (r : ℕ) :
    (unavailabilityStep P m r).ruleQueue.capacity = m.ruleQueue.capacity := by
  simp only [unavailabilityStep]
  split
  · exact Bitmap.capacity_unsetBit _ _
  · rfl

@[simp] theorem length_rules_unavailabilityStep (P : Program) (m : RuleMatcher) (r : ℕ) :
    (unavailabilityStep P m r).rules.length = m.rules.length := by
  simp [unavailabilityStep]

theorem counter_unavailabilityStep (hr : r < m.rules.length) (s : ℕ) :
    (unavailabilityStep P m r).counter s = if s = r then m.counter r - 1 else m.counter s :=
  counter_set m hr _ s

/-- One round is the loop over one rule. -/
theorem unavailabilityStep_spec (hr : r < m.rules.length) (hcap : r < m.ruleQueue.capacity)
    (hpos : 0 < (m.counter r).toNat) :
    UnavailabilityLoop P [r] m (unavailabilityStep P m r) := by
  refine ⟨rfl, length_rules_unavailabilityStep .., capacity_unavailabilityStep .., ?_,
    fun s => ?_, fun s => ?_⟩
  · have hne : m.counter r ≠ 0 := by
      intro h
      rw [h] at hpos
      exact absurd hpos (by decide)
    simp [unavailabilityStep, hne]
  · rw [counter_unavailabilityStep hr]
    by_cases hs : s = r
    · subst hs
      rw [if_pos rfl, toNat_sub_one hpos, List.count_singleton_self]
    · rw [if_neg hs, List.count_singleton, if_neg (by simpa using Ne.symm hs), Nat.sub_zero]
  · simp only [unavailabilityStep, List.mem_singleton]
    by_cases hs : s = r
    · subst hs
      split
      · rename_i h
        rw [Bitmap.getBit_unsetBit hcap]
        simp [h]
      · rename_i h
        simp [h]
    · split
      · rw [Bitmap.getBit_unsetBit hcap]
        simp [hs, Ne.symm hs]
      · simp [hs]

/-- Two loops one after the other.  Only the first round of a rule can find its counter equal to the
size of the body. -/
theorem UnavailabilityLoop.append {m₁ m₂ : RuleMatcher} {L₁ L₂ : List ℕ}
    (h₁ : UnavailabilityLoop P L₁ m m₁) (h₂ : UnavailabilityLoop P L₂ m₁ m₂)
    (hpos : ∀ r ∈ L₁, 0 < (m.counter r).toNat)
    (hle : ∀ r ∈ L₁, (m.counter r).toNat ≤ P.ruleNumPredicates r) :
    UnavailabilityLoop P (L₁ ++ L₂) m m₂ := by
  refine ⟨h₂.existence.trans h₁.existence, h₂.length_rules.trans h₁.length_rules,
    h₂.capacity_queue.trans h₁.capacity_queue, h₂.wrapped.trans h₁.wrapped, fun r => ?_,
    fun r => ?_⟩
  · rw [h₂.counter, h₁.counter, List.count_append, Nat.sub_sub]
  · rw [h₂.queue, h₁.queue, h₁.counter, List.mem_append]
    by_cases hr₁ : r ∈ L₁
    · have hcount : 0 < L₁.count r := List.count_pos_iff.mpr hr₁
      have hposr := hpos r hr₁
      have hler := hle r hr₁
      have hne : (m.counter r).toNat - L₁.count r ≠ P.ruleNumPredicates r := by omega
      simp [hr₁, hne]
    · simp [hr₁, List.count_eq_zero.mpr hr₁]

/-- The loop, by induction on the rules it runs over. -/
theorem unavailabilityLoop (L : List ℕ) (hlen : ∀ r ∈ L, r < m.rules.length)
    (hcap : ∀ r ∈ L, r < m.ruleQueue.capacity)
    (hcount : ∀ r ∈ L, L.count r ≤ (m.counter r).toNat)
    (hle : ∀ r ∈ L, (m.counter r).toNat ≤ P.ruleNumPredicates r) :
    UnavailabilityLoop P L m (L.foldl (unavailabilityStep P) m) := by
  induction L generalizing m with
  | nil => exact ⟨rfl, rfl, rfl, rfl, by simp, by simp⟩
  | cons a L ih =>
    have hacount := hcount a List.mem_cons_self
    rw [List.count_cons_self] at hacount
    have hpos : 0 < (m.counter a).toNat := by omega
    have hstep := unavailabilityStep_spec (P := P) (hlen a List.mem_cons_self)
      (hcap a List.mem_cons_self) hpos
    refine hstep.append (ih (fun r hr => ?_) (fun r hr => ?_) (fun r hr => ?_) fun r hr => ?_)
      (fun r hr => ?_) fun r hr => ?_
    · rw [hstep.length_rules]
      exact hlen r (List.mem_cons_of_mem a hr)
    · rw [hstep.capacity_queue]
      exact hcap r (List.mem_cons_of_mem a hr)
    · have hsum := hcount r (List.mem_cons_of_mem a hr)
      rw [← List.singleton_append, List.count_append] at hsum
      rw [hstep.counter]
      omega
    · rw [hstep.counter]
      exact (Nat.sub_le _ _).trans (hle r (List.mem_cons_of_mem a hr))
    · obtain rfl := List.mem_singleton.mp hr
      exact hpos
    · obtain rfl := List.mem_singleton.mp hr
      exact hle r List.mem_cons_self

/-! ## The loop of `register_predicate_update` -/

/-- What the loop does to the matcher when it runs over the rules `L`. -/
structure UpdateLoop (P : Program) (L : List ℕ) (m m' : RuleMatcher) : Prop where
  existence : m'.predicateExistence = m.predicateExistence
  rules : m'.rules = m.rules
  capacity_queue : m'.ruleQueue.capacity = m.ruleQueue.capacity
  wrapped : m'.wrapped = m.wrapped
  queue : ∀ r, m'.ruleQueue.getBit r = true ↔
    m.ruleQueue.getBit r = true ∨
      (r ∈ L ∧ (m.counter r).toNat = P.ruleNumPredicates r)

theorem updateLoop (L : List ℕ) (hcap : ∀ r ∈ L, r < m.ruleQueue.capacity) :
    UpdateLoop P L m (L.foldl (updateStep P) m) := by
  induction L generalizing m with
  | nil => exact ⟨rfl, rfl, rfl, rfl, by simp⟩
  | cons a L ih =>
    rw [List.foldl_cons]
    have hacap := hcap a List.mem_cons_self
    have htail : ∀ r ∈ L, r < m.ruleQueue.capacity := fun r hr =>
      hcap r (List.mem_cons_of_mem _ hr)
    by_cases hc : (m.counter a).toNat = P.ruleNumPredicates a
    · have hstep : updateStep P m a = { m with ruleQueue := m.ruleQueue.setBit a } := by
        rw [updateStep, if_pos hc]
      rw [hstep]
      have hrec := ih (m := { m with ruleQueue := m.ruleQueue.setBit a })
        (by simpa using htail)
      refine ⟨hrec.existence, hrec.rules, ?_, hrec.wrapped, ?_⟩
      · rw [hrec.capacity_queue]
        exact Bitmap.capacity_setBit _ _
      · intro r
        rw [hrec.queue, Bitmap.getBit_setBit hacap]
        have hcr : ({ m with ruleQueue := m.ruleQueue.setBit a } : RuleMatcher).counter r =
          m.counter r := rfl
        rw [hcr]
        by_cases hra : r = a
        · subst hra
          simp [hc]
        · have hne : ¬ a = r := fun e => hra e.symm
          simp [hra, hne]
    · have hstep : updateStep P m a = m := by rw [updateStep, if_neg hc]
      rw [hstep]
      have hrec := ih htail
      refine ⟨hrec.existence, hrec.rules, hrec.capacity_queue, hrec.wrapped, ?_⟩
      intro r
      rw [hrec.queue]
      by_cases hra : r = a
      · subst hra
        simp [hc]
      · simp [hra]

/-! ## The invariant -/

/-- What every operation preserves: the counters count, the queue holds only rules that can fire,
and no counter has left its range.  The first three fields say that the arrays have the sizes the
constructor gave them. -/
structure Inv (P : Program) (m : RuleMatcher) : Prop where
  length_rules : m.rules.length = P.numRules
  capacity_existence : P.numPredicates ≤ m.predicateExistence.capacity
  capacity_queue : P.numRules ≤ m.ruleQueue.capacity
  counter : ∀ r < P.numRules,
    (m.counter r).toNat = (P.ruleBody r).countP m.predicateExistence.getBit
  queue : ∀ r, m.ruleQueue.getBit r = true →
    ∀ p ∈ P.ruleBody r, m.predicateExistence.getBit p = true
  noWrap : m.wrapped = false

/-- No wake-up of a rule that mentions `p` is pending: if its body is complete, it is queued. -/
def Woken (P : Program) (m : RuleMatcher) (p : PredicateId) : Prop :=
  ∀ r, p ∈ P.ruleBody r → (∀ q ∈ P.ruleBody r, m.predicateExistence.getBit q = true) →
    m.ruleQueue.getBit r = true

theorem numPredicates_le_capacity (v : ℕ) :
    v ≤ (Bitmap.create (Program.nextUint v)).capacity := by
  rcases Nat.eq_zero_or_pos v with h | h
  · omega
  · have hv : v - 1 < v := by omega
    rw [Bitmap.capacity_create (Program.one_le_nextUint hv)]
    have := Program.lt_nextUint hv
    omega

theorem inv_create (P : Program) : Inv P (create P) where
  length_rules := by simp [create]
  capacity_existence := numPredicates_le_capacity _
  capacity_queue := numPredicates_le_capacity _
  counter := by
    intro r hr
    have h : (create P).predicateExistence.getBit = fun _ => false := by
      funext p
      exact Bitmap.getBit_create _ _
    rw [h]
    simp [create, RuleMatcher.counter, hr]
  queue := by
    intro r hr
    simp [create] at hr
  noWrap := rfl

namespace Inv

/-- A full counter means a complete body. -/
theorem complete_iff (h : Inv P m) (hr : r < P.numRules) :
    (m.counter r).toNat = P.ruleNumPredicates r ↔
      ∀ p ∈ P.ruleBody r, m.predicateExistence.getBit p = true := by
  rw [h.counter r hr, Program.ruleNumPredicates, List.countP_eq_length]

theorem lt_capacity (h : Inv P m) {p : ℕ} : ∀ r ∈ P.linearRules p, r < m.ruleQueue.capacity :=
  fun _ hr => Nat.lt_of_lt_of_le
    (Program.lt_numRules_of_mem (Program.mem_linearRules.mp hr)) h.capacity_queue

theorem lt_length (h : Inv P m) {p : ℕ} : ∀ r ∈ P.linearRules p, r < m.rules.length := by
  intro r hr
  rw [h.length_rules]
  exact Program.lt_numRules_of_mem (Program.mem_linearRules.mp hr)

end Inv

/-- Marking one more predicate adds its occurrences to the count. -/
theorem countP_mark (body : List ℕ) {f g : ℕ → Bool} {p : ℕ} (hp : f p = false)
    (hg : ∀ q, g q = (decide (p = q) || f q)) :
    body.countP g = body.countP f + body.count p := by
  induction body with
  | nil => rfl
  | cons q body ih =>
    by_cases hqp : p = q
    · subst hqp
      rw [List.countP_cons_of_pos (by simp [hg]), List.countP_cons_of_neg (by simp [hp]),
        List.count_cons_self, ih]
      omega
    · rw [List.countP_cons, List.countP_cons, hg q, List.count_cons_of_ne (fun e => hqp e.symm), ih]
      simp [hqp]
      omega

/-! ## The operations preserve the invariant -/

/-- `register_predicate_availability` on a predicate that is not marked. -/
theorem inv_registerPredicateAvailability (h : Inv P m) {p : ℕ} (hp : p < P.numPredicates)
    (hbit : m.predicateExistence.getBit p = false)
    (hbyte : ∀ r, P.ruleNumPredicates r ≤ 255) :
    Inv P (registerPredicateAvailability P m p) ∧
      Woken P (registerPredicateAvailability P m p) p := by
  have hcap : p < m.predicateExistence.capacity := Nat.lt_of_lt_of_le hp h.capacity_existence
  have hmark : ∀ q, (m.predicateExistence.setBit p).getBit q =
      (decide (p = q) || m.predicateExistence.getBit q) := Bitmap.getBit_setBit hcap
  have hsum : ∀ r, (P.ruleBody r).countP (m.predicateExistence.setBit p).getBit =
      (P.ruleBody r).countP m.predicateExistence.getBit + (P.linearRules p).count r := by
    intro r
    rw [Program.count_linearRules]
    exact countP_mark _ hbit hmark
  have hle : ∀ r ∈ P.linearRules p,
      (m.counter r).toNat + (P.linearRules p).count r ≤ P.ruleNumPredicates r := by
    intro r hr
    rw [h.counter r (Program.lt_numRules_of_mem (Program.mem_linearRules.mp hr)), ← hsum r]
    exact List.countP_le_length
  have hloop := availabilityLoop (P := P)
    (m := { m with predicateExistence := m.predicateExistence.setBit p })
    (P.linearRules p) h.lt_length h.lt_capacity hle fun r _ => hbyte r
  have hex : (registerPredicateAvailability P m p).predicateExistence =
      m.predicateExistence.setBit p := hloop.existence
  have hcounter : ∀ r < P.numRules, ((registerPredicateAvailability P m p).counter r).toNat =
      (P.ruleBody r).countP (registerPredicateAvailability P m p).predicateExistence.getBit := by
    intro r hr
    rw [hex, hsum r, ← h.counter r hr]
    exact hloop.counter r
  -- in the state the loop leaves, a rule of the table is full exactly when its body is complete
  have hfull : ∀ r, r ∈ P.linearRules p →
      ((m.counter r).toNat + (P.linearRules p).count r = P.ruleNumPredicates r ↔
        ∀ q ∈ P.ruleBody r,
          (registerPredicateAvailability P m p).predicateExistence.getBit q = true) := by
    intro r hr
    have hrn := Program.lt_numRules_of_mem (Program.mem_linearRules.mp hr)
    rw [h.counter r hrn, ← hsum r, hex, Program.ruleNumPredicates, List.countP_eq_length]
  constructor
  · refine ⟨hloop.length_rules.trans h.length_rules, ?_, ?_, hcounter, ?_, ?_⟩
    · rw [hex, Bitmap.capacity_setBit]
      exact h.capacity_existence
    · exact hloop.capacity_queue ▸ h.capacity_queue
    · intro r hr
      rcases (hloop.queue r).mp hr with hold | ⟨hmem, hnum⟩
      · intro q hq
        rw [hex, hmark]
        simp [h.queue r hold q hq]
      · exact (hfull r hmem).mp hnum
    · exact hloop.wrapped.trans h.noWrap
  · intro r hpr hall
    have hmem := Program.mem_linearRules.mpr hpr
    exact (hloop.queue r).mpr (Or.inr ⟨hmem, (hfull r hmem).mpr hall⟩)

/-- `register_predicate_update` on a predicate that is marked. -/
theorem inv_registerPredicateUpdate (h : Inv P m) (p : ℕ) :
    Inv P (registerPredicateUpdate P m p) ∧ Woken P (registerPredicateUpdate P m p) p := by
  have hloop := updateLoop (P := P) (m := m) (P.linearRules p) h.lt_capacity
  have hex : (registerPredicateUpdate P m p).predicateExistence = m.predicateExistence :=
    hloop.existence
  have hc : ∀ r, (registerPredicateUpdate P m p).counter r = m.counter r := by
    intro r
    unfold RuleMatcher.counter
    exact congrArg (fun l => l.getD r 0) hloop.rules
  constructor
  · refine ⟨?_, ?_, ?_, ?_, ?_, hloop.wrapped.trans h.noWrap⟩
    · exact (congrArg List.length hloop.rules).trans h.length_rules
    · rw [hex]
      exact h.capacity_existence
    · exact hloop.capacity_queue ▸ h.capacity_queue
    · intro r hr
      rw [hc, hex]
      exact h.counter r hr
    · intro r hr
      rw [hex]
      rcases (hloop.queue r).mp hr with hold | ⟨hmem, hnum⟩
      · exact h.queue r hold
      · exact (h.complete_iff (Program.lt_numRules_of_mem
          (Program.mem_linearRules.mp hmem))).mp hnum
  · intro r hpr hall
    rw [hex] at hall
    exact (hloop.queue r).mpr (Or.inr ⟨Program.mem_linearRules.mpr hpr,
      (h.complete_iff (Program.lt_numRules_of_mem hpr)).mpr hall⟩)

/-- `register_predicate_unavailability` on a predicate that is marked. -/
theorem inv_registerPredicateUnavailability (h : Inv P m) {p : ℕ} (hp : p < P.numPredicates)
    (hbit : m.predicateExistence.getBit p = true) :
    Inv P (registerPredicateUnavailability P m p) := by
  have hcap : p < m.predicateExistence.capacity := Nat.lt_of_lt_of_le hp h.capacity_existence
  have hunmark : ∀ q, (m.predicateExistence.unsetBit p).getBit q =
      (!decide (p = q) && m.predicateExistence.getBit q) := Bitmap.getBit_unsetBit hcap
  -- read backwards, unmarking is marking again
  have hback : ∀ q, m.predicateExistence.getBit q =
      (decide (p = q) || (m.predicateExistence.unsetBit p).getBit q) := by
    intro q
    rw [hunmark]
    by_cases hpq : p = q
    · subst hpq
      simp [hbit]
    · simp [hpq]
  have hsum : ∀ r, (P.ruleBody r).countP m.predicateExistence.getBit =
      (P.ruleBody r).countP (m.predicateExistence.unsetBit p).getBit +
        (P.linearRules p).count r := by
    intro r
    rw [Program.count_linearRules]
    exact countP_mark _ (by simp [hunmark]) hback
  have hloop := unavailabilityLoop (P := P)
    (m := { m with predicateExistence := m.predicateExistence.unsetBit p })
    (P.linearRules p) h.lt_length h.lt_capacity
    (by
      intro r hr
      have hc := h.counter r (Program.lt_numRules_of_mem (Program.mem_linearRules.mp hr))
      have hs := hsum r
      change _ ≤ (m.counter r).toNat
      omega)
    (by
      intro r hr
      have hc := h.counter r (Program.lt_numRules_of_mem (Program.mem_linearRules.mp hr))
      change (m.counter r).toNat ≤ _
      rw [hc]
      exact List.countP_le_length)
  have hex : (registerPredicateUnavailability P m p).predicateExistence =
      m.predicateExistence.unsetBit p := hloop.existence
  refine ⟨hloop.length_rules.trans h.length_rules, ?_, ?_, ?_, ?_,
    hloop.wrapped.trans h.noWrap⟩
  · rw [hex, Bitmap.capacity_unsetBit]
    exact h.capacity_existence
  · exact hloop.capacity_queue ▸ h.capacity_queue
  · intro r hr
    rw [hex]
    have hc := h.counter r hr
    have hs := hsum r
    have hl : ((registerPredicateUnavailability P m p).counter r).toNat =
      (m.counter r).toNat - (P.linearRules p).count r := hloop.counter r
    omega
  · intro r hr q hq
    obtain ⟨hold, hnot⟩ := (hloop.queue r).mp hr
    have hall := h.queue r hold
    -- a queued rule that mentions `p` had a full counter, so the loop took it out of the queue
    have hpr : p ∉ P.ruleBody r := by
      intro hpr
      exact hnot ⟨Program.mem_linearRules.mpr hpr,
        (h.complete_iff (Program.lt_numRules_of_mem hpr)).mpr hall⟩
    have hpq : p ≠ q := fun e => hpr (e ▸ hq)
    rw [hex, hunmark]
    simp [hpq, hall q hq]

theorem inv_newLinearFact (h : Inv P m) {p : ℕ} (hp : p < P.numPredicates)
    (hbyte : ∀ r, P.ruleNumPredicates r ≤ 255) :
    Inv P (newLinearFact P m p) ∧ Woken P (newLinearFact P m p) p := by
  unfold newLinearFact
  cases hbit : m.predicateExistence.getBit p with
  | true => exact inv_registerPredicateUpdate h p
  | false => exact inv_registerPredicateAvailability h hp hbit hbyte

theorem inv_emptyPredicate (h : Inv P m) {p : ℕ} (hp : p < P.numPredicates) :
    Inv P (emptyPredicate P m p) := by
  unfold emptyPredicate
  cases hbit : m.predicateExistence.getBit p with
  | true => exact inv_registerPredicateUnavailability h hp hbit
  | false => exact h

theorem inv_dequeueRule (h : Inv P m) : Inv P m.dequeueRule := by
  unfold dequeueRule
  split
  · exact h
  · refine ⟨h.length_rules, h.capacity_existence, ?_, h.counter, ?_, h.noWrap⟩
    · simpa using h.capacity_queue
    · intro r hr
      exact h.queue r (Bitmap.getBit_removeFront hr)

/-- One operation keeps the invariant, and a new fact wakes the rules that mention it. -/
theorem inv_exec (h : Inv P m) (hbyte : ∀ r, P.ruleNumPredicates r ≤ 255) (o : Op P) :
    Inv P (exec P m o) ∧ ∀ p, o.newFact = some p → Woken P (exec P m o) p := by
  have hnew : ∀ id : Fin P.numPredicates, Inv P (newLinearFact P m id) ∧
      ∀ p, some (id : ℕ) = some p → Woken P (newLinearFact P m id) p := by
    intro id
    have := inv_newLinearFact h id.isLt hbyte
    exact ⟨this.1, fun p hp => Option.some.inj hp ▸ this.2⟩
  cases o with
  | newLinearFact id => exact hnew id
  | newPersistentFact id => exact hnew id
  | newPersistentCount id count =>
    by_cases hc : count = 0
    · subst hc
      exact ⟨inv_emptyPredicate h id.isLt, by simp [Op.newFact]⟩
    · have hx : exec P m (.newPersistentCount id count) = newLinearFact P m id := by
        simp [exec, newPersistentCount, newPersistentFact, hc]
      rw [hx]
      simpa [Op.newFact, hc] using hnew id
  | emptyPredicate id => exact ⟨inv_emptyPredicate h id.isLt, by simp [Op.newFact]⟩
  | dequeueRule => exact ⟨inv_dequeueRule h, by simp [Op.newFact]⟩

theorem inv_foldl_exec (h : Inv P m) (hbyte : ∀ r, P.ruleNumPredicates r ≤ 255)
    (ops : List (Op P)) : Inv P (ops.foldl (exec P) m) := by
  induction ops generalizing m with
  | nil => exact h
  | cons o ops ih => exact ih (inv_exec h hbyte o).1

theorem run_append_singleton (ops : List (Op P)) (o : Op P) :
    run P (ops ++ [o]) = exec P (run P ops) o := by
  rw [run, List.foldl_append]
  rfl

/-- Every body fits in a byte. -/
def BodiesFit (P : Program) : Prop := ∀ body ∈ P.ruleBodies, body.length ≤ 255

theorem BodiesFit.ruleNumPredicates_le (h : BodiesFit P) (r : ℕ) :
    P.ruleNumPredicates r ≤ 255 := by
  by_cases hr : r < P.numRules
  · exact h _ (Program.ruleBody_mem hr)
  · rw [Program.ruleNumPredicates, Program.ruleBody_eq_nil (Nat.le_of_not_lt hr)]
    exact Nat.zero_le _

/-- What the matcher promises after every sequence of operations: the invariant, and that the last
operation, if it announced a fact, left no rule asleep that the fact completes. -/
def Faithful (P : Program) : Prop :=
  ∀ ops : List (Op P), Inv P (run P ops) ∧
    ∀ o : Op P, ∀ p, o.newFact = some p → Woken P (run P (ops ++ [o])) p

/-- The matcher is faithful for every program whose bodies fit in the byte counters. -/
theorem faithful_of_bodiesFit (h : BodiesFit P) : Faithful P := by
  intro ops
  have hinv : Inv P (run P ops) := inv_foldl_exec (inv_create P) h.ruleNumPredicates_le ops
  refine ⟨hinv, fun o p hp => ?_⟩
  rw [run_append_singleton]
  exact (inv_exec hinv h.ruleNumPredicates_le o).2 p hp

/-! ## Past the range of the byte

A body of more than 255 entries can still be completed, one new fact for each of its predicates.
The count of its marked entries is then its length, which no byte holds. -/

theorem existence_foldl_availabilityStep (L : List ℕ) (m : RuleMatcher) :
    (L.foldl (availabilityStep P) m).predicateExistence = m.predicateExistence := by
  induction L generalizing m with
  | nil => rfl
  | cons a L ih => exact ih _

theorem existence_foldl_updateStep (L : List ℕ) (m : RuleMatcher) :
    (L.foldl (updateStep P) m).predicateExistence = m.predicateExistence := by
  induction L generalizing m with
  | nil => rfl
  | cons a L ih =>
    rw [List.foldl_cons, ih, updateStep]
    split <;> rfl

/-- A new fact marks its predicate and leaves the other marks alone, whatever the counters do. -/
theorem getBit_newLinearFact {p : ℕ} (hp : p < m.predicateExistence.capacity) (q : ℕ) :
    (newLinearFact P m p).predicateExistence.getBit q =
      (decide (p = q) || m.predicateExistence.getBit q) := by
  unfold newLinearFact
  split
  · rename_i hbit
    rw [registerPredicateUpdate, existence_foldl_updateStep]
    by_cases hpq : p = q
    · subst hpq
      simp [hbit]
    · simp [hpq]
  · rw [registerPredicateAvailability, existence_foldl_availabilityStep]
    exact Bitmap.getBit_setBit hp q

theorem capacity_newLinearFact (P : Program) (m : RuleMatcher) (p : ℕ) :
    (newLinearFact P m p).predicateExistence.capacity = m.predicateExistence.capacity := by
  unfold newLinearFact
  split
  · rw [registerPredicateUpdate, existence_foldl_updateStep]
  · rw [registerPredicateAvailability, existence_foldl_availabilityStep]
    exact Bitmap.capacity_setBit _ _

theorem existence_foldl_unavailabilityStep (L : List ℕ) (m : RuleMatcher) :
    (L.foldl (unavailabilityStep P) m).predicateExistence = m.predicateExistence := by
  induction L generalizing m with
  | nil => rfl
  | cons a L ih => exact ih _

/-- A count marks its predicate as present or absent and leaves the other marks alone. -/
theorem getBit_newPersistentCount {p : ℕ} (hp : p < m.predicateExistence.capacity) (count q : ℕ) :
    (newPersistentCount P m p count).predicateExistence.getBit q =
      if p = q then decide (count ≠ 0) else m.predicateExistence.getBit q := by
  unfold newPersistentCount
  by_cases hcount : count = 0
  · rw [if_pos hcount]
    split
    · rw [registerPredicateUnavailability, existence_foldl_unavailabilityStep,
        Bitmap.getBit_unsetBit hp]
      by_cases hpq : p = q
      · simp [hpq, hcount]
      · simp [hpq]
    · rename_i hbit
      by_cases hpq : p = q
      · subst hpq
        simpa [hcount] using hbit
      · rw [if_neg hpq]
  · rw [if_neg hcount, newPersistentFact, getBit_newLinearFact hp]
    by_cases hpq : p = q
    · simp [hpq, hcount]
    · simp [hpq]

theorem capacity_newPersistentCount (P : Program) (m : RuleMatcher) (p count : ℕ) :
    (newPersistentCount P m p count).predicateExistence.capacity =
      m.predicateExistence.capacity := by
  unfold newPersistentCount
  split
  · split
    · rw [registerPredicateUnavailability, existence_foldl_unavailabilityStep]
      exact Bitmap.capacity_unsetBit _ _
    · rfl
  · exact capacity_newLinearFact P m p

/-- Announcing a list of facts marks every predicate of the list. -/
theorem getBit_foldl_newLinearFact (ids : List (Fin P.numPredicates))
    (hcap : P.numPredicates ≤ m.predicateExistence.capacity) {q : ℕ}
    (hq : (∃ id ∈ ids, id.val = q) ∨ m.predicateExistence.getBit q = true) :
    ((ids.map Op.newLinearFact).foldl (exec P) m).predicateExistence.getBit q = true := by
  induction ids generalizing m with
  | nil => simpa using hq
  | cons id ids ih =>
    rw [List.map_cons, List.foldl_cons]
    have hid : id.val < m.predicateExistence.capacity := Nat.lt_of_lt_of_le id.isLt hcap
    refine ih (m := newLinearFact P m id) ?_ ?_
    · rw [capacity_newLinearFact]
      exact hcap
    · rw [getBit_newLinearFact hid, Bool.or_eq_true, decide_eq_true_eq]
      rcases hq with ⟨i, hi, rfl⟩ | hq
      · rcases List.mem_cons.mp hi with rfl | hi
        · exact Or.inr (Or.inl rfl)
        · exact Or.inl ⟨i, hi, rfl⟩
      · exact Or.inr (Or.inr hq)

/-- A matcher that is faithful on every run has only bodies that fit. -/
theorem bodiesFit_of_faithful (h : Faithful P) : BodiesFit P := by
  intro body hbody
  obtain ⟨r, hr, rfl⟩ := List.getElem_of_mem hbody
  have hrule : P.ruleBody r = P.ruleBodies[r] := List.getD_eq_getElem _ _ hr
  have hlt : ∀ p ∈ P.ruleBodies[r], p < P.numPredicates := P.body_lt _ hbody
  -- one fact for every entry of the body
  have hinv := (h ((P.ruleBodies[r].attach.map fun p =>
    (⟨p.1, hlt p.1 p.2⟩ : Fin P.numPredicates)).map Op.newLinearFact)).1
  have hall := hinv.counter r hr
  rw [hrule, List.countP_eq_length.mpr] at hall
  · rw [← hall]
    exact Nat.le_of_lt_succ (UInt8.toNat_lt _)
  · intro q hq
    refine getBit_foldl_newLinearFact _ (inv_create P).capacity_existence (Or.inl ?_)
    exact ⟨⟨q, hlt q hq⟩, List.mem_map.mpr ⟨⟨q, hq⟩, List.mem_attach _ _, rfl⟩, rfl⟩

/-- **The matcher is faithful exactly for the programs whose bodies fit in the byte counters.** -/
theorem faithful_iff_bodiesFit (P : Program) : Faithful P ↔ BodiesFit P :=
  ⟨bodiesFit_of_faithful, faithful_of_bodiesFit⟩

/-- A program with one predicate and one rule that lists it 256 times. -/
def wideProgram : Program where
  numPredicates := 1
  ruleBodies := [List.replicate 256 0]
  body_lt := by
    intro body hb p hp
    rw [List.mem_singleton.mp hb] at hp
    rw [List.eq_of_mem_replicate hp]
    exact Nat.one_pos

/-- **A body of 256 entries defeats the byte.** -/
theorem not_faithful_wideProgram : ¬ Faithful wideProgram := by
  intro h
  have hle := bodiesFit_of_faithful h (List.replicate 256 0) List.mem_cons_self
  rw [List.length_replicate] at hle
  omega

end RuleMatcher
end Meld
