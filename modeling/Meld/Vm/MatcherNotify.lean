import Meld.Vm.RuleMatcherInvariant

/-!
# Announcing facts to the matcher, in any order

A node that receives facts tells its matcher about them with `new_linear_fact`, one predicate at a
time.  It does so once for a fact or once for a whole list of them, and in the order in which the
facts happen to come in.  Nothing of this is left in the matcher: the marks, the counters and the
queue only depend on which predicates were announced.

The byte of a rule is its number of marked entries modulo 256 (`Tally`), for bodies of any length,
so no bound on the bodies is needed here.  A rule whose body does not fit in the byte is never
queued.

* `Tally`: the counters count, modulo 256.  Every run of the matcher keeps it (`tally_run`).
* `announce`: a sequence of announcements, and `announce_spec`, what it leaves.
* `announce_congr`: sequences that announce the same predicates leave the same matcher.
-/

namespace Meld
namespace RuleMatcher

variable {P : Program} {m : RuleMatcher} {r : ℕ}

/-! ## The counters, modulo 256 -/

/-- The byte of a rule counts the marked entries of its body, modulo 256.  The first three fields
say that the arrays have the sizes the constructor gave them. -/
structure Tally (P : Program) (m : RuleMatcher) : Prop where
  length_rules : m.rules.length = P.numRules
  capacity_existence : P.numPredicates ≤ m.predicateExistence.capacity
  capacity_queue : P.numRules ≤ m.ruleQueue.capacity
  counter : ∀ r < P.numRules,
    (m.counter r).toNat = (P.ruleBody r).countP m.predicateExistence.getBit % 256

theorem tally_create (P : Program) : Tally P (create P) := by
  have h := inv_create P
  refine ⟨h.length_rules, h.capacity_existence, h.capacity_queue, ?_⟩
  intro r hr
  have hbit : (create P).predicateExistence.getBit = fun _ => false := by
    funext p
    exact Bitmap.getBit_create _ _
  rw [h.counter r hr, hbit]
  simp

theorem Tally.lt_length (h : Tally P m) {p : ℕ} : ∀ r ∈ P.linearRules p, r < m.rules.length := by
  intro r hr
  rw [h.length_rules]
  exact Program.lt_numRules_of_mem (Program.mem_linearRules.mp hr)

theorem Tally.lt_capacity (h : Tally P m) {p : ℕ} :
    ∀ r ∈ P.linearRules p, r < m.ruleQueue.capacity :=
  fun _ hr => Nat.lt_of_lt_of_le
    (Program.lt_numRules_of_mem (Program.mem_linearRules.mp hr)) h.capacity_queue

/-- The body of the rule is complete and fits in the byte. -/
def Ready (P : Program) (m : RuleMatcher) (r : RuleId) : Prop :=
  (∀ q ∈ P.ruleBody r, m.predicateExistence.getBit q = true) ∧ P.ruleNumPredicates r ≤ 255

/-- A full counter means a complete body that fits in the byte. -/
theorem Tally.full_iff (h : Tally P m) (hr : r < P.numRules) :
    (m.counter r).toNat = P.ruleNumPredicates r ↔ Ready P m r := by
  have hle : (P.ruleBody r).countP m.predicateExistence.getBit ≤ P.ruleNumPredicates r :=
    List.countP_le_length
  have hall : (P.ruleBody r).countP m.predicateExistence.getBit = P.ruleNumPredicates r ↔
      ∀ q ∈ P.ruleBody r, m.predicateExistence.getBit q = true := List.countP_eq_length
  rw [h.counter r hr, Ready, ← hall]
  omega

/-! ## The loops, without a bound on the bodies -/

/-- What the loop of `register_predicate_availability` does over the rules `L`, whatever the
counters are: a rule is queued in the round in which its byte agrees with the size of its body. -/
structure Availability (P : Program) (L : List ℕ) (m m' : RuleMatcher) : Prop where
  length_rules : m'.rules.length = m.rules.length
  capacity_queue : m'.ruleQueue.capacity = m.ruleQueue.capacity
  counter : ∀ r, (m'.counter r).toNat = ((m.counter r).toNat + L.count r) % 256
  queue : ∀ r, m'.ruleQueue.getBit r = true ↔
    m.ruleQueue.getBit r = true ∨
      ∃ k, 1 ≤ k ∧ k ≤ L.count r ∧ ((m.counter r).toNat + k) % 256 = P.ruleNumPredicates r

theorem toNat_add_one_mod (c : UInt8) : (c + 1).toNat = (c.toNat + 1) % 256 := by
  rw [UInt8.toNat_add]
  rfl

/-- One round of the loop. -/
theorem availabilityStep_queue {a : ℕ} (hcap : a < m.ruleQueue.capacity) (s : ℕ) :
    (availabilityStep P m a).ruleQueue.getBit s = true ↔
      m.ruleQueue.getBit s = true ∨
        (s = a ∧ ((m.counter a).toNat + 1) % 256 = P.ruleNumPredicates a) := by
  simp only [availabilityStep, toNat_add_one_mod]
  split
  · rename_i h
    rw [Bitmap.getBit_setBit hcap]
    simp only [Bool.or_eq_true, decide_eq_true_eq, h, and_true]
    exact ⟨fun e => e.symm.imp id Eq.symm, fun e => e.symm.imp Eq.symm id⟩
  · rename_i h
    simp [h]

theorem availability (L : List ℕ) (hlen : ∀ r ∈ L, r < m.rules.length)
    (hcap : ∀ r ∈ L, r < m.ruleQueue.capacity) :
    Availability P L m (L.foldl (availabilityStep P) m) := by
  induction L generalizing m with
  | nil =>
    refine ⟨rfl, rfl, ?_, ?_⟩
    · intro r
      have := (m.counter r).toNat_lt
      simp only [List.foldl_nil, List.count_nil]
      omega
    · intro r
      simp only [List.foldl_nil, List.count_nil]
      constructor
      · exact Or.inl
      · rintro (h | ⟨k, h1, h0, -⟩)
        · exact h
        · omega
  | cons a L ih =>
    have ha : a < m.rules.length := hlen a List.mem_cons_self
    have hlen' : ∀ r ∈ L, r < (availabilityStep P m a).rules.length := by
      intro r hr
      rw [length_rules_availabilityStep]
      exact hlen r (List.mem_cons_of_mem _ hr)
    have hcap' : ∀ r ∈ L, r < (availabilityStep P m a).ruleQueue.capacity := by
      intro r hr
      rw [capacity_availabilityStep]
      exact hcap r (List.mem_cons_of_mem _ hr)
    have hrec := ih hlen' hcap'
    have hself : ((availabilityStep P m a).counter a).toNat = ((m.counter a).toNat + 1) % 256 := by
      rw [counter_availabilityStep ha, if_pos rfl, toNat_add_one_mod]
    have hother : ∀ s, s ≠ a → (availabilityStep P m a).counter s = m.counter s := by
      intro s hs
      rw [counter_availabilityStep ha, if_neg hs]
    refine ⟨hrec.length_rules.trans (length_rules_availabilityStep ..),
      hrec.capacity_queue.trans (capacity_availabilityStep ..), ?_, ?_⟩
    · intro r
      rw [List.foldl_cons, hrec.counter]
      by_cases hra : r = a
      · subst hra
        rw [hself, List.count_cons_self]
        omega
      · rw [hother r hra, List.count_cons_of_ne (fun e => hra e.symm)]
    · intro r
      rw [List.foldl_cons, hrec.queue, availabilityStep_queue (hcap a List.mem_cons_self)]
      by_cases hra : r = a
      · subst hra
        rw [hself, List.count_cons_self]
        constructor
        · rintro ((h | ⟨-, h⟩) | ⟨k, hk, hle, hfull⟩)
          · exact Or.inl h
          · exact Or.inr ⟨1, le_rfl, by omega, h⟩
          · exact Or.inr ⟨k + 1, by omega, by omega, by omega⟩
        · rintro (h | ⟨k, hk, hle, hfull⟩)
          · exact Or.inl (Or.inl h)
          · rcases Nat.lt_or_ge 1 k with h1 | h1
            · exact Or.inr ⟨k - 1, by omega, by omega, by omega⟩
            · obtain rfl : k = 1 := by omega
              exact Or.inl (Or.inr ⟨rfl, hfull⟩)
      · rw [hother r hra, List.count_cons_of_ne (fun e => hra e.symm)]
        simp [hra]

/-- The loop of `register_predicate_unavailability` lowers the counters. -/
theorem counter_unavailability (L : List ℕ) (hlen : ∀ r ∈ L, r < m.rules.length) :
    (L.foldl (unavailabilityStep P) m).rules.length = m.rules.length ∧
      (L.foldl (unavailabilityStep P) m).ruleQueue.capacity = m.ruleQueue.capacity ∧
      ∀ r, (((L.foldl (unavailabilityStep P) m).counter r).toNat + L.count r) % 256 =
        (m.counter r).toNat := by
  induction L generalizing m with
  | nil =>
    refine ⟨rfl, rfl, fun r => ?_⟩
    have := (m.counter r).toNat_lt
    simp only [List.foldl_nil, List.count_nil]
    omega
  | cons a L ih =>
    have ha : a < m.rules.length := hlen a List.mem_cons_self
    have hqcap := capacity_unavailabilityStep P m a
    have hrlen := length_rules_unavailabilityStep P m a
    obtain ⟨h1, h2, h3⟩ := ih (m := unavailabilityStep P m a) fun r hr =>
      hrlen ▸ hlen r (List.mem_cons_of_mem _ hr)
    refine ⟨h1.trans hrlen, h2.trans hqcap, fun r => ?_⟩
    have hstep := h3 r
    rw [counter_unavailabilityStep ha] at hstep
    rw [List.foldl_cons]
    by_cases hra : r = a
    · subst hra
      rw [if_pos rfl, UInt8.toNat_sub] at hstep
      have hone : (1 : UInt8).toNat = 1 := rfl
      have hlt := (m.counter r).toNat_lt
      rw [List.count_cons_self]
      omega
    · rw [if_neg hra] at hstep
      rw [List.count_cons_of_ne (fun e => hra e.symm)]
      exact hstep

/-! ## One announcement -/

/-- What the announcement of one predicate leaves. -/
structure Announced (P : Program) (p : PredicateId) (m m' : RuleMatcher) : Prop where
  tally : Tally P m'
  existence : ∀ q, m'.predicateExistence.getBit q =
    (decide (p = q) || m.predicateExistence.getBit q)
  queue : ∀ r, m'.ruleQueue.getBit r = true ↔
    m.ruleQueue.getBit r = true ∨ (p ∈ P.ruleBody r ∧ Ready P m' r)

/-- **`new_linear_fact`** marks the predicate, counts it, and queues the rules it completes. -/
theorem Tally.newLinearFact (h : Tally P m) {p : ℕ} (hp : p < P.numPredicates) :
    Announced P p m (newLinearFact P m p) := by
  have hcap : p < m.predicateExistence.capacity := Nat.lt_of_lt_of_le hp h.capacity_existence
  have hmarks := getBit_newLinearFact (P := P) hcap
  have hexcap := capacity_newLinearFact P m p
  cases hbit : m.predicateExistence.getBit p with
  | true =>
    have hloop := updateLoop (P := P) (m := m) (P.linearRules p) h.lt_capacity
    have heq : RuleMatcher.newLinearFact P m p = (P.linearRules p).foldl (updateStep P) m := by
      rw [RuleMatcher.newLinearFact, hbit, if_pos rfl, registerPredicateUpdate]
    rw [heq] at hmarks hexcap ⊢
    have hc : ∀ r, ((P.linearRules p).foldl (updateStep P) m).counter r = m.counter r := by
      intro r
      rw [RuleMatcher.counter, hloop.rules, RuleMatcher.counter]
    have htally : Tally P ((P.linearRules p).foldl (updateStep P) m) := by
      refine ⟨?_, ?_, ?_, ?_⟩
      · rw [hloop.rules]
        exact h.length_rules
      · rw [hloop.existence]
        exact h.capacity_existence
      · rw [hloop.capacity_queue]
        exact h.capacity_queue
      · intro r hr
        rw [hc, hloop.existence]
        exact h.counter r hr
    refine ⟨htally, hmarks, ?_⟩
    intro r
    rw [hloop.queue, Program.mem_linearRules, ← hc r]
    refine or_congr_right (and_congr_right fun hmem => ?_)
    exact htally.full_iff (Program.lt_numRules_of_mem hmem)
  | false =>
    have hloop := availability (P := P)
      (m := { m with predicateExistence := m.predicateExistence.setBit p })
      (P.linearRules p) h.lt_length h.lt_capacity
    have heq : RuleMatcher.newLinearFact P m p = (P.linearRules p).foldl (availabilityStep P)
        { m with predicateExistence := m.predicateExistence.setBit p } := by
      rw [RuleMatcher.newLinearFact, hbit, if_neg Bool.false_ne_true,
        registerPredicateAvailability]
    rw [← heq] at hloop
    have hsum : ∀ r, (P.ruleBody r).countP
        (RuleMatcher.newLinearFact P m p).predicateExistence.getBit =
          (P.ruleBody r).countP m.predicateExistence.getBit + (P.linearRules p).count r := by
      intro r
      rw [Program.count_linearRules]
      exact countP_mark _ hbit hmarks
    have hold : ∀ r < P.numRules, ((RuleMatcher.mk m.rules (m.predicateExistence.setBit p)
        m.ruleQueue m.wrapped).counter r).toNat =
          (P.ruleBody r).countP m.predicateExistence.getBit % 256 := h.counter
    have htally : Tally P (RuleMatcher.newLinearFact P m p) := by
      refine ⟨hloop.length_rules.trans h.length_rules, ?_, ?_, ?_⟩
      · rw [hexcap]
        exact h.capacity_existence
      · rw [hloop.capacity_queue]
        exact h.capacity_queue
      · intro r hr
        rw [hloop.counter, hold r hr, hsum]
        omega
    refine ⟨htally, hmarks, ?_⟩
    intro r
    rw [hloop.queue]
    refine or_congr_right ?_
    constructor
    · rintro ⟨k, hk, hle, hfull⟩
      have hmem : p ∈ P.ruleBody r := by
        rw [← List.count_pos_iff, ← Program.count_linearRules]
        omega
      have hr := Program.lt_numRules_of_mem hmem
      refine ⟨hmem, (htally.full_iff hr).mp ?_⟩
      -- the byte only reaches the size of the body in the last round
      have hlen : (P.ruleBody r).countP
          (RuleMatcher.newLinearFact P m p).predicateExistence.getBit ≤
          P.ruleNumPredicates r := List.countP_le_length
      rw [htally.counter r hr]
      rw [hold r hr] at hfull
      have hs := hsum r
      omega
    · rintro ⟨hmem, hready⟩
      have hr := Program.lt_numRules_of_mem hmem
      have hpos : 0 < (P.linearRules p).count r := by
        rw [Program.count_linearRules]
        exact List.count_pos_iff.mpr hmem
      have hfull := (htally.full_iff hr).mpr hready
      rw [hloop.counter] at hfull
      exact ⟨_, hpos, le_rfl, hfull⟩

theorem Tally.unavailability (h : Tally P m) {p : ℕ} (hp : p < P.numPredicates)
    (hbit : m.predicateExistence.getBit p = true) :
    Tally P (registerPredicateUnavailability P m p) := by
  have hcap : p < m.predicateExistence.capacity := Nat.lt_of_lt_of_le hp h.capacity_existence
  have hex : (registerPredicateUnavailability P m p).predicateExistence =
      m.predicateExistence.unsetBit p := existence_foldl_unavailabilityStep _ _
  have hback : ∀ q, m.predicateExistence.getBit q =
      (decide (p = q) || (m.predicateExistence.unsetBit p).getBit q) := by
    intro q
    rw [Bitmap.getBit_unsetBit hcap]
    by_cases hpq : p = q
    · subst hpq
      simp [hbit]
    · simp [hpq]
  obtain ⟨h1, h2, h3⟩ := counter_unavailability (P := P)
    (m := { m with predicateExistence := m.predicateExistence.unsetBit p })
    (P.linearRules p) h.lt_length
  refine ⟨h1.trans h.length_rules, ?_, ?_, ?_⟩
  · rw [hex, Bitmap.capacity_unsetBit]
    exact h.capacity_existence
  · exact h2 ▸ h.capacity_queue
  · intro r hr
    have hsum : (P.ruleBody r).countP m.predicateExistence.getBit =
        (P.ruleBody r).countP (m.predicateExistence.unsetBit p).getBit +
          (P.linearRules p).count r := by
      rw [Program.count_linearRules]
      exact countP_mark _ (by rw [Bitmap.getBit_unsetBit hcap]; simp) hback
    have hold : (({ m with predicateExistence := m.predicateExistence.unsetBit p } :
        RuleMatcher).counter r).toNat =
        (P.ruleBody r).countP m.predicateExistence.getBit % 256 := h.counter r hr
    have hlt := ((registerPredicateUnavailability P m p).counter r).toNat_lt
    have hloop := h3 r
    rw [hold, hsum] at hloop
    rw [hex]
    change (((registerPredicateUnavailability P m p).counter r).toNat + _) % 256 = _ at hloop
    omega

theorem Tally.exec (h : Tally P m) (o : Op P) : Tally P (exec P m o) := by
  have hempty : ∀ id : Fin P.numPredicates, Tally P (emptyPredicate P m id) := by
    intro id
    unfold emptyPredicate
    cases hbit : m.predicateExistence.getBit id with
    | true => exact h.unavailability id.isLt hbit
    | false => exact h
  cases o with
  | newLinearFact id => exact (h.newLinearFact id.isLt).tally
  | newPersistentFact id => exact (h.newLinearFact id.isLt).tally
  | newPersistentCount id count =>
    by_cases hc : count = 0
    · subst hc
      exact hempty id
    · have hx : RuleMatcher.exec P m (.newPersistentCount id count) =
          RuleMatcher.newLinearFact P m id := by
        simp [RuleMatcher.exec, newPersistentCount, newPersistentFact, hc]
      rw [hx]
      exact (h.newLinearFact id.isLt).tally
  | emptyPredicate id => exact hempty id
  | dequeueRule =>
    show Tally P m.dequeueRule
    unfold dequeueRule
    split
    · exact h
    · exact ⟨h.length_rules, h.capacity_existence, by simpa using h.capacity_queue, h.counter⟩

/-- **Every run of the matcher keeps the tally**, whatever the bodies are. -/
theorem tally_run (P : Program) (ops : List (Op P)) : Tally P (run P ops) := by
  suffices ∀ m, Tally P m → Tally P (ops.foldl (RuleMatcher.exec P) m) from
    this _ (tally_create P)
  induction ops with
  | nil => exact fun m h => h
  | cons o ops ih => exact fun m h => ih _ (h.exec o)

/-! ## Sequences of announcements -/

/-- Announce the predicates of a list in turn. -/
def announce (P : Program) (m : RuleMatcher) (ids : List PredicateId) : RuleMatcher :=
  ids.foldl (newLinearFact P) m

/-- What a sequence of announcements leaves. -/
structure AnnouncedAll (P : Program) (ids : List PredicateId) (m m' : RuleMatcher) : Prop where
  tally : Tally P m'
  existence : ∀ q, m'.predicateExistence.getBit q = true ↔
    q ∈ ids ∨ m.predicateExistence.getBit q = true
  queue : ∀ r, m'.ruleQueue.getBit r = true ↔
    m.ruleQueue.getBit r = true ∨ ((∃ p ∈ ids, p ∈ P.ruleBody r) ∧ Ready P m' r)

/-- A sequence of announcements, by induction on it.  A rule that is complete at the end was
complete after the last announcement that it mentions. -/
theorem announce_spec (h : Tally P m) (ids : List PredicateId)
    (hids : ∀ p ∈ ids, p < P.numPredicates) : AnnouncedAll P ids m (announce P m ids) := by
  induction ids generalizing m with
  | nil => exact ⟨h, by simp [announce], by simp [announce]⟩
  | cons p ids ih =>
    have hone := h.newLinearFact (hids p List.mem_cons_self)
    have hrest := ih hone.tally fun q hq => hids q (List.mem_cons_of_mem _ hq)
    have heq : announce P m (p :: ids) = announce P (newLinearFact P m p) ids := rfl
    rw [heq]
    refine ⟨hrest.tally, ?_, ?_⟩
    · intro q
      rw [hrest.existence, hone.existence]
      simp only [Bool.or_eq_true, decide_eq_true_eq, List.mem_cons]
      constructor
      · rintro (hq | rfl | hq)
        · exact Or.inl (Or.inr hq)
        · exact Or.inl (Or.inl rfl)
        · exact Or.inr hq
      · rintro ((rfl | hq) | hq)
        · exact Or.inr (Or.inl rfl)
        · exact Or.inl hq
        · exact Or.inr (Or.inr hq)
    · intro r
      rw [hrest.queue, hone.queue]
      have hgrow : Ready P (newLinearFact P m p) r →
          Ready P (announce P (newLinearFact P m p) ids) r :=
        fun hr => ⟨fun q hq => (hrest.existence q).mpr (Or.inr (hr.1 q hq)), hr.2⟩
      constructor
      · rintro ((hq | ⟨hmem, hready⟩) | ⟨⟨q, hq, hmem⟩, hready⟩)
        · exact Or.inl hq
        · exact Or.inr ⟨⟨p, List.mem_cons_self, hmem⟩, hgrow hready⟩
        · exact Or.inr ⟨⟨q, List.mem_cons_of_mem _ hq, hmem⟩, hready⟩
      · rintro (hq | ⟨⟨q, hq, hmem⟩, hready⟩)
        · exact Or.inl (Or.inl hq)
        · by_cases hlater : ∃ q ∈ ids, q ∈ P.ruleBody r
          · exact Or.inr ⟨hlater, hready⟩
          · have hqp : q = p := by
              rcases List.mem_cons.mp hq with hq | hq
              · exact hq
              · exact absurd ⟨q, hq, hmem⟩ hlater
            refine Or.inl (Or.inr ⟨hqp ▸ hmem, ?_, hready.2⟩)
            -- the later announcements mark nothing in the body of `r`
            intro s hs
            rcases (hrest.existence s).mp (hready.1 s hs) with hin | hbit
            · exact absurd ⟨s, hin, hs⟩ hlater
            · exact hbit

/-- The two matchers agree: on the counters, on the marks and on the queue. -/
structure Same (m m' : RuleMatcher) : Prop where
  counter : ∀ r, m.counter r = m'.counter r
  existence : ∀ p, m.predicateExistence.getBit p = m'.predicateExistence.getBit p
  queue : ∀ r, m.ruleQueue.getBit r = m'.ruleQueue.getBit r

/-- The marks determine the counters. -/
theorem Tally.counter_eq {m' : RuleMatcher} (h : Tally P m) (h' : Tally P m')
    (hmarks : ∀ p, m.predicateExistence.getBit p = m'.predicateExistence.getBit p) (r : ℕ) :
    m.counter r = m'.counter r := by
  by_cases hr : r < P.numRules
  · have hfun : m.predicateExistence.getBit = m'.predicateExistence.getBit := funext hmarks
    refine UInt8.toNat_inj.mp ?_
    rw [h.counter r hr, h'.counter r hr, hfun]
  · have hnone : m.rules.length ≤ r := h.length_rules ▸ Nat.le_of_not_lt hr
    have hnone' : m'.rules.length ≤ r := h'.length_rules ▸ Nat.le_of_not_lt hr
    rw [RuleMatcher.counter, RuleMatcher.counter, List.getD_eq_default _ _ hnone,
      List.getD_eq_default _ _ hnone']

/-- **Announcements of the same predicates leave the same matcher**, in whatever order and however
often each of them is announced. -/
theorem AnnouncedAll.same {ids ids' : List PredicateId} {m₁ m₂ : RuleMatcher}
    (h₁ : AnnouncedAll P ids m m₁) (h₂ : AnnouncedAll P ids' m m₂)
    (hids : ∀ p, p ∈ ids ↔ p ∈ ids') : Same m₁ m₂ := by
  have hmarks : ∀ p, m₁.predicateExistence.getBit p = m₂.predicateExistence.getBit p := by
    intro p
    rw [Bool.eq_iff_iff, h₁.existence, h₂.existence, hids]
  refine ⟨h₁.tally.counter_eq h₂.tally hmarks, hmarks, ?_⟩
  intro r
  have hready : Ready P m₁ r ↔ Ready P m₂ r := by
    simp only [Ready, hmarks]
  rw [Bool.eq_iff_iff, h₁.queue, h₂.queue, hready]
  simp only [hids]

end RuleMatcher
end Meld
