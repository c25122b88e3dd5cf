import Meld.Utils.TreeBarrier
import Mathlib.Data.Nat.Bits

/-!
# No thread leaves the barrier early

Beside the calls that a thread has entered and returned, the proof counts how often it has told its
parent that it arrived (`signals`; the root flips the shared bit instead) and how often it has reset
its counter (`resets`).  A thread resets before it signals, so that `signals ≤ resets`; its children
have signalled at least as often as it has reset, and at most once more.  Hence along the tree every
thread has signalled at least as often as the root has flipped the bit, and a thread returns only
after a flip of its own round.

* `At`: where a thread can be, given its counters.
* `Inv`: the invariant; `childrenCount` is the number of children that have not signalled since the
  last reset.
* `step_inv`: every access keeps it.
* `barrier_correct`: **the tree is well formed, and no thread returns from its `k`-th call before
  every thread has entered its `k`-th call.**
-/

namespace Meld

namespace BarrierState

open TreeBuilder

/-- Where a thread can be in round `entered`, after `flips` flips of the shared bit. -/
def At (flips : ℕ) (sense : Bool) (id signals resets entered returned : ℕ) : BarrierPc → Prop
  | .outside => entered = returned ∧ signals = entered ∧ resets = entered
  | .spinChildren b | .reset b =>
    entered = returned + 1 ∧ signals = returned ∧ resets = returned ∧ b = entered.bodd
  | .signal b => entered = returned + 1 ∧ signals = returned ∧ resets = entered ∧ b = entered.bodd
  | .flip b read =>
    entered = returned + 1 ∧ signals = returned ∧ resets = entered ∧ b = entered.bodd ∧
      id = 0 ∧ read = sense
  | .check b =>
    entered = returned + 1 ∧ signals = entered ∧ resets = entered ∧ b = entered.bodd ∧ id = 0
  | .spinSense b => entered = returned + 1 ∧ signals = entered ∧ resets = entered ∧ b = entered.bodd
  | .leave b =>
    entered = returned + 1 ∧ signals = entered ∧ resets = entered ∧ b = entered.bodd ∧
      entered ≤ flips
  | .aborted => False

/-- The children of `id` that have not signalled since its last reset. -/
def missing (node : ℕ → Option InnerNode) (size : ℕ) (signals resets : ℕ → ℕ) (id : ℕ) : ℕ :=
  ((Finset.range size).filter fun c => parentOf node c = some id ∧ signals c = resets id).card

/-- **The invariant of the barrier.** -/
structure Inv (node : ℕ → Option InnerNode) (size : ℕ) (s : BarrierState) (signals resets : ℕ → ℕ) :
    Prop where
  sense : s.sense = (signals 0).bodd
  returned : ∀ i, s.returned i ≤ signals 0
  threadSense : ∀ i, s.threadSense i = (s.returned i + 1).bodd
  place : ∀ i, At (signals 0) s.sense i (signals i) (resets i) (s.entered i) (s.returned i) (s.pc i)
  child : ∀ c p, c < size → parentOf node c = some p →
    resets p ≤ signals c ∧ signals c ≤ resets p + 1
  childrenCount : ∀ i, i < size → s.childrenCount i = missing node size signals resets i
  reset : ∀ i b, s.pc i = .reset b → s.childrenCount i = 0

variable {node : ℕ → Option InnerNode} {size : ℕ} {s s' : BarrierState} {signals resets : ℕ → ℕ}

/-- A thread resets before it signals, and signals after it has entered. -/
theorem At.le {flips id sig res ent ret : ℕ} {sense : Bool} {pc : BarrierPc}
    (h : At flips sense id sig res ent ret pc) : sig ≤ res ∧ sig ≤ ent := by
  cases pc <;> simp only [At] at h <;> omega

/-- More flips, as long as the bit is the same or the thread is not about to write it. -/
theorem At.mono {flips flips' id sig res ent ret : ℕ} {sense sense' : Bool} {pc : BarrierPc}
    (h : At flips sense id sig res ent ret pc) (hle : flips ≤ flips')
    (hsense : sense' = sense ∨ id ≠ 0) : At flips' sense' id sig res ent ret pc := by
  cases pc with
  | flip b read =>
    obtain ⟨h1, h2, h3, h4, h5, h6⟩ := h
    exact ⟨h1, h2, h3, h4, h5, h6.trans (hsense.resolve_right fun hne => hne h5).symm⟩
  | leave b =>
    obtain ⟨h1, h2, h3, h4, h5⟩ := h
    exact ⟨h1, h2, h3, h4, h5.trans hle⟩
  | _ => exact h

/-- **Along the tree**, by induction on the number of the thread: no thread has signalled less often
than the root. -/
theorem Inv.root_le (h : Inv node size s signals resets) (hwf : WellFormed node size) {i : ℕ}
    (hi : i < size) : signals 0 ≤ signals i := by
  induction i using Nat.strong_induction_on with
  | _ i ih =>
    rcases Nat.eq_zero_or_pos i with rfl | hpos
    · exact le_refl _
    · obtain ⟨n, p, hn, hp, hlt⟩ := hwf.inner i hpos hi
      have hparent : parentOf node i = some p := by
        rw [parentOf, hn]
        exact hp
      calc signals 0 ≤ signals p := ih p hlt (hlt.trans hi)
        _ ≤ resets p := (h.place p).le.1
        _ ≤ signals i := (h.child i p hi hparent).1

/-- A step of thread `i` that changes no counter of the proof. -/
theorem Inv.local (h : Inv node size s signals resets) {i : ℕ} (hsense : s'.sense = s.sense)
    (hcount : s'.childrenCount = s.childrenCount)
    (hother : ∀ j, j ≠ i → s'.pc j = s.pc j ∧ s'.entered j = s.entered j ∧
      s'.returned j = s.returned j ∧ s'.threadSense j = s.threadSense j)
    (hret : s'.returned i ≤ signals 0) (hthread : s'.threadSense i = (s'.returned i + 1).bodd)
    (hplace : At (signals 0) s.sense i (signals i) (resets i) (s'.entered i) (s'.returned i)
      (s'.pc i))
    (hreset : ∀ b, s'.pc i = .reset b → s.childrenCount i = 0) :
    Inv node size s' signals resets := by
  refine ⟨hsense.trans h.sense, fun j => ?_, fun j => ?_, fun j => ?_, h.child, fun j hj => ?_,
    fun j b hj => ?_⟩
  · by_cases hji : j = i
    · subst hji
      exact hret
    · rw [(hother j hji).2.2.1]
      exact h.returned j
  · by_cases hji : j = i
    · subst hji
      exact hthread
    · rw [(hother j hji).2.2.2, (hother j hji).2.2.1]
      exact h.threadSense j
  · rw [hsense]
    by_cases hji : j = i
    · subst hji
      exact hplace
    · rw [(hother j hji).1, (hother j hji).2.1, (hother j hji).2.2.1]
      exact h.place j
  · rw [hcount]
    exact h.childrenCount j hj
  · rw [hcount]
    by_cases hji : j = i
    · subst hji
      exact hreset b hj
    · rw [(hother j hji).1] at hj
      exact h.reset j b hj

/-- A reset: all children have signalled, and count again from now on. -/
theorem Inv.step_reset (h : Inv node size s signals resets) (hwf : WellFormed node size) {i : ℕ}
    {n : InnerNode} {b : Bool} (hi : i < size) (hn : node i = some n) (hpc : s.pc i = .reset b) :
    Inv node size { s.goto i (.signal b) with
      childrenCount := Function.update s.childrenCount i n.count } signals
      (Function.update resets i (resets i + 1)) := by
  have hplace := h.place i
  rw [hpc] at hplace
  obtain ⟨h1, h2, h3, h4⟩ := hplace
  -- no child is missing any more
  have hdone : ∀ c, c < size → parentOf node c = some i → signals c = resets i + 1 := by
    intro c hc hp
    have hzero := (h.childrenCount i hi).symm.trans (h.reset i b hpc)
    rw [missing, Finset.card_eq_zero, Finset.filter_eq_empty_iff] at hzero
    have hne := hzero (Finset.mem_range.mpr hc)
    obtain ⟨hle, hle'⟩ := h.child c i hc hp
    have hsig : signals c ≠ resets i := fun heq => hne ⟨hp, heq⟩
    omega
  refine ⟨h.sense, h.returned, h.threadSense, fun j => ?_, fun c p hc hp => ?_, fun j hj => ?_,
    fun j b' hj => ?_⟩
  · show At (signals 0) s.sense j (signals j) (Function.update resets i (resets i + 1) j)
      (s.entered j) (s.returned j) (Function.update s.pc i (.signal b) j)
    by_cases hji : j = i
    · subst hji
      rw [Function.update_self, Function.update_self]
      exact ⟨h1, h2, by omega, h4⟩
    · rw [Function.update_of_ne hji, Function.update_of_ne hji]
      exact h.place j
  · by_cases hpi : p = i
    · subst hpi
      rw [Function.update_self, hdone c hc hp]
      omega
    · rw [Function.update_of_ne hpi]
      exact h.child c p hc hp
  · show Function.update s.childrenCount i n.count j = _
    by_cases hji : j = i
    · subst hji
      rw [Function.update_self, hwf.count j n hi hn, missing, Function.update_self]
      refine congrArg Finset.card (Finset.filter_congr fun c hc => ?_)
      exact ⟨fun hp => ⟨hp, hdone c (Finset.mem_range.mp hc) hp⟩, fun hp => hp.1⟩
    · rw [Function.update_of_ne hji, missing, Function.update_of_ne hji]
      exact h.childrenCount j hj
  · change Function.update s.pc i (.signal b) j = .reset b' at hj
    show Function.update s.childrenCount i n.count j = 0
    by_cases hji : j = i
    · subst hji
      rw [Function.update_self] at hj
      exact absurd hj (by simp)
    · rw [Function.update_of_ne hji] at hj
      rw [Function.update_of_ne hji]
      exact h.reset j b' hj

/-- A thread without a parent does not count at any other. -/
theorem missing_update_root {i x : ℕ} (hi : parentOf node i = none) (j : ℕ) :
    missing node size (Function.update signals i x) resets j = missing node size signals resets j := by
  rw [missing, missing]
  refine congrArg Finset.card (Finset.filter_congr fun c _ => ?_)
  by_cases hc : c = i
  · subst hc
    rw [hi]
    simp
  · rw [Function.update_of_ne hc]

/-- A signal: the parent misses one child less, and nobody else does. -/
theorem missing_update {i p : ℕ} (hi : i < size) (hp : parentOf node i = some p)
    (heq : signals i = resets p) :
    missing node size signals resets p =
        missing node size (Function.update signals i (signals i + 1)) resets p + 1 ∧
      ∀ j, j ≠ p → missing node size (Function.update signals i (signals i + 1)) resets j =
        missing node size signals resets j := by
  constructor
  · rw [missing, missing, ← Finset.card_insert_of_notMem (a := i)]
    · refine congrArg Finset.card ?_
      ext c
      rw [Finset.mem_insert, Finset.mem_filter, Finset.mem_filter, Finset.mem_range]
      by_cases hc : c = i
      · subst hc
        exact ⟨fun _ => Or.inl rfl, fun _ => ⟨hi, hp, heq⟩⟩
      · rw [Function.update_of_ne hc]
        exact ⟨fun hmem => Or.inr hmem, fun hmem => hmem.resolve_left hc⟩
    · rw [Finset.mem_filter, Function.update_self]
      omega
  · intro j hj
    rw [missing, missing]
    refine congrArg Finset.card (Finset.filter_congr fun c _ => ?_)
    by_cases hc : c = i
    · subst hc
      rw [hp, Option.some_inj]
      exact ⟨fun h => absurd h.1.symm hj, fun h => absurd h.1.symm hj⟩
    · rw [Function.update_of_ne hc]

/-- A thread counts itself at its parent. -/
theorem Inv.step_signal (h : Inv node size s signals resets) (hwf : WellFormed node size) {i p : ℕ}
    {b : Bool} (hi : i < size) (hp : parentOf node i = some p) (hpc : s.pc i = .signal b) :
    Inv node size { s.goto i (.spinSense b) with
      childrenCount := Function.update s.childrenCount p (decrement (s.childrenCount p)) }
      (Function.update signals i (signals i + 1)) resets := by
  have hplace := h.place i
  rw [hpc] at hplace
  obtain ⟨h1, h2, h3, h4⟩ := hplace
  have hi0 : i ≠ 0 := by
    rintro rfl
    obtain ⟨n, hn, hnone⟩ := hwf.root
    rw [parentOf, hn, Option.bind_some, hnone] at hp
    exact absurd hp (by simp)
  have hpi : p < i := by
    obtain ⟨n, q, hn, hq, hlt⟩ := hwf.inner i (Nat.pos_of_ne_zero hi0) hi
    rw [parentOf, hn, Option.bind_some, hq, Option.some_inj] at hp
    omega
  obtain ⟨hlow, hhigh⟩ := h.child i p hi hp
  -- the parent has reset as often as this thread has signalled
  have heq : signals i = resets p := by
    have hreturned := h.returned i
    have hroot := h.root_le hwf (hpi.trans hi)
    have hparent := (h.place p).le.1
    omega
  obtain ⟨hmissing, hother⟩ := missing_update hi hp heq
  have hcount := h.childrenCount p (hpi.trans hi)
  have hzero : Function.update signals i (signals i + 1) 0 = signals 0 :=
    Function.update_of_ne hi0.symm _ _
  refine ⟨?_, fun j => ?_, h.threadSense, fun j => ?_, fun c q hc hq => ?_, fun j hj => ?_,
    fun j b' hj => ?_⟩
  · rw [hzero]
    exact h.sense
  · rw [hzero]
    exact h.returned j
  · rw [hzero]
    show At (signals 0) s.sense j (Function.update signals i (signals i + 1) j) (resets j)
      (s.entered j) (s.returned j) (Function.update s.pc i (.spinSense b) j)
    by_cases hji : j = i
    · subst hji
      rw [Function.update_self, Function.update_self]
      exact ⟨h1, by omega, h3, h4⟩
    · rw [Function.update_of_ne hji, Function.update_of_ne hji]
      exact h.place j
  · by_cases hci : c = i
    · subst hci
      rw [hp, Option.some_inj] at hq
      subst hq
      rw [Function.update_self]
      omega
    · rw [Function.update_of_ne hci]
      exact h.child c q hc hq
  · show Function.update s.childrenCount p (decrement (s.childrenCount p)) j = _
    by_cases hjp : j = p
    · subst hjp
      rw [Function.update_self, hcount, hmissing, decrement, if_neg (Nat.succ_ne_zero _)]
      rfl
    · rw [Function.update_of_ne hjp, hother j hjp]
      exact h.childrenCount j hj
  · change Function.update s.pc i (.spinSense b) j = .reset b' at hj
    show Function.update s.childrenCount p (decrement (s.childrenCount p)) j = 0
    by_cases hji : j = i
    · subst hji
      rw [Function.update_self] at hj
      exact absurd hj (by simp)
    · rw [Function.update_of_ne hji] at hj
      have hold := h.reset j b' hj
      by_cases hjp : j = p
      · subst hjp
        omega
      · rw [Function.update_of_ne hjp]
        exact hold

/-- The root flips the shared bit. -/
theorem Inv.step_flip (h : Inv node size s signals resets) (hwf : WellFormed node size)
    {b read : Bool} (hpc : s.pc 0 = .flip b read) :
    Inv node size { s.goto 0 (.check b) with sense := !read }
      (Function.update signals 0 (signals 0 + 1)) resets := by
  have hplace := h.place 0
  rw [hpc] at hplace
  obtain ⟨h1, h2, h3, h4, -, h6⟩ := hplace
  have hroot : parentOf node 0 = none := by
    obtain ⟨n, hn, hnone⟩ := hwf.root
    rw [parentOf, hn, Option.bind_some, hnone]
  refine ⟨?_, fun j => ?_, h.threadSense, fun j => ?_, fun c q hc hq => ?_, fun j hj => ?_,
    fun j b' hj => ?_⟩
  · rw [Function.update_self, Nat.bodd_succ, ← h.sense, ← h6]
  · rw [Function.update_self]
    exact Nat.le_succ_of_le (h.returned j)
  · rw [Function.update_self]
    show At (signals 0 + 1) (!read) j (Function.update signals 0 (signals 0 + 1) j) (resets j)
      (s.entered j) (s.returned j) (Function.update s.pc 0 (.check b) j)
    by_cases hj : j = 0
    · subst hj
      rw [Function.update_self, Function.update_self]
      exact ⟨h1, by omega, h3, h4, rfl⟩
    · rw [Function.update_of_ne hj, Function.update_of_ne hj]
      exact (h.place j).mono (Nat.le_succ _) (Or.inr hj)
  · have hc0 : c ≠ 0 := by
      rintro rfl
      rw [hroot] at hq
      exact absurd hq (by simp)
    rw [Function.update_of_ne hc0]
    exact h.child c q hc hq
  · rw [missing_update_root hroot]
    exact h.childrenCount j hj
  · change Function.update s.pc 0 (.check b) j = .reset b' at hj
    by_cases hj0 : j = 0
    · subst hj0
      rw [Function.update_self] at hj
      exact absurd hj (by simp)
    · rw [Function.update_of_ne hj0] at hj
      exact h.reset j b' hj

/-- What the threads other than `i` keep when `i` goes on. -/
theorem goto_other {i j : ℕ} {pc : BarrierPc} (h : j ≠ i) : (s.goto i pc).pc j = s.pc j :=
  Function.update_of_ne h _ _

/-- The place of a thread that has just gone on. -/
theorem goto_self {i : ℕ} {pc : BarrierPc} : (s.goto i pc).pc i = pc := Function.update_self _ _ _

/-- A step of thread `i` that changes nothing but where it is. -/
theorem Inv.goto (h : Inv node size s signals resets) {i : ℕ} {pc : BarrierPc}
    (hplace : At (signals 0) s.sense i (signals i) (resets i) (s.entered i) (s.returned i) pc)
    (hreset : ∀ b, pc = .reset b → s.childrenCount i = 0) :
    Inv node size (s.goto i pc) signals resets := by
  refine h.local rfl rfl (fun j hj => ⟨goto_other hj, rfl, rfl, rfl⟩) (h.returned i)
    (h.threadSense i) ?_ fun b hb => ?_
  · rw [goto_self]
    exact hplace
  · rw [goto_self] at hb
    exact hreset b hb

/-- **Every access keeps the invariant.** -/
theorem step_inv (h : Inv node size s signals resets) (hwf : WellFormed node size) {i : ℕ}
    {n : InnerNode} (hi : i < size) (hn : node i = some n) :
    ∃ signals' resets', Inv node size (s.step i n) signals' resets' := by
  have hplace := h.place i
  rw [step]
  cases hpc : s.pc i with
  | outside =>
    rw [hpc] at hplace
    obtain ⟨h1, h2, h3⟩ := hplace
    refine ⟨signals, resets, h.local (i := i) rfl rfl ?_ (h.returned i) (h.threadSense i) ?_ ?_⟩
    · exact fun j hj => ⟨goto_other hj, Function.update_of_ne hj _ _, rfl, rfl⟩
    · show At _ _ _ _ _ (Function.update s.entered i (s.entered i + 1) i) (s.returned i)
        (Function.update s.pc i _ i)
      rw [Function.update_self, Function.update_self, h.threadSense i, h1]
      exact ⟨rfl, by omega, by omega, rfl⟩
    · intro b hb
      change Function.update s.pc i _ i = _ at hb
      rw [Function.update_self] at hb
      exact absurd hb (by simp)
  | spinChildren b =>
    rw [hpc] at hplace
    dsimp only
    split
    · exact ⟨signals, resets, h⟩
    · next hzero => exact ⟨signals, resets, h.goto hplace fun _ _ => by omega⟩
  | reset b => exact ⟨_, _, h.step_reset hwf hi hn hpc⟩
  | signal b =>
    rw [hpc] at hplace
    dsimp only
    split
    · next p hp =>
      refine ⟨_, _, h.step_signal hwf hi ?_ hpc⟩
      rw [parentOf, hn]
      exact hp
    · next hp =>
      obtain ⟨h1, h2, h3, h4⟩ := hplace
      refine ⟨signals, resets, h.goto ⟨h1, h2, h3, h4, ?_, rfl⟩ (by simp)⟩
      -- only the root has no parent
      by_contra hi0
      obtain ⟨m, q, hm, hq, -⟩ := hwf.inner i (Nat.pos_of_ne_zero hi0) hi
      rw [hn, Option.some_inj] at hm
      rw [← hm, hp] at hq
      exact absurd hq (by simp)
  | flip b read =>
    rw [hpc] at hplace
    obtain ⟨-, -, -, -, rfl, -⟩ := hplace
    exact ⟨_, _, h.step_flip hwf hpc⟩
  | check b =>
    rw [hpc] at hplace
    obtain ⟨h1, h2, h3, h4, rfl⟩ := hplace
    dsimp only
    have hsense : s.sense = b := by rw [h.sense, h2, h4]
    rw [if_pos hsense]
    exact ⟨signals, resets, h.goto ⟨h1, h2, h3, h4, by omega⟩ (by simp)⟩
  | spinSense b =>
    rw [hpc] at hplace
    obtain ⟨h1, h2, h3, h4⟩ := hplace
    dsimp only
    split
    · exact ⟨signals, resets, h⟩
    · next hsense =>
      refine ⟨signals, resets, h.goto ⟨h1, h2, h3, h4, ?_⟩ (by simp)⟩
      -- the bit tells the two possible numbers of flips apart
      have hle := h.root_le hwf hi
      have hret := h.returned i
      have hbit : (signals 0).bodd = (s.entered i).bodd := by
        rw [← h.sense, ← h4]
        exact Decidable.not_not.mp hsense
      by_contra hlt
      have heq : s.entered i = signals 0 + 1 := by omega
      rw [heq, Nat.bodd_succ] at hbit
      exact absurd hbit (by simp)
  | leave b =>
    rw [hpc] at hplace
    obtain ⟨h1, h2, h3, h4, h5⟩ := hplace
    refine ⟨signals, resets, h.local (i := i) rfl rfl ?_ ?_ ?_ ?_ ?_⟩
    · exact fun j hj => ⟨goto_other hj, rfl, Function.update_of_ne hj _ _,
        Function.update_of_ne hj _ _⟩
    · show Function.update s.returned i (s.returned i + 1) i ≤ signals 0
      rw [Function.update_self]
      omega
    · show Function.update s.threadSense i (!b) i =
        (Function.update s.returned i (s.returned i + 1) i + 1).bodd
      rw [Function.update_self, Function.update_self, h4, h1, Nat.bodd_succ (s.returned i + 1)]
    · show At _ _ _ _ _ (s.entered i) (Function.update s.returned i (s.returned i + 1) i)
        (Function.update s.pc i .outside i)
      rw [Function.update_self, Function.update_self]
      exact ⟨h1, h2, h3⟩
    · intro b' hb
      change Function.update s.pc i .outside i = _ at hb
      rw [Function.update_self] at hb
      exact absurd hb (by simp)
  | aborted =>
    rw [hpc] at hplace
    exact hplace.elim

/-- The state after the constructor. -/
theorem inv_init (hwf : WellFormed node size) :
    Inv node size (init node) (fun _ => 0) (fun _ => 0) := by
  refine ⟨rfl, fun _ => le_refl _, fun _ => by simp [init], fun _ => ⟨rfl, rfl, rfl⟩,
    fun _ _ _ _ => ⟨le_refl _, Nat.zero_le _⟩, fun i hi => ?_, fun i b h => absurd h (by simp [init])⟩
  have hsome : ∃ n, node i = some n := by
    rcases Nat.eq_zero_or_pos i with rfl | hpos
    · obtain ⟨n, hn, -⟩ := hwf.root
      exact ⟨n, hn⟩
    · obtain ⟨n, -, hn, -⟩ := hwf.inner i hpos hi
      exact ⟨n, hn⟩
  obtain ⟨n, hn⟩ := hsome
  show ((node i).map InnerNode.count).getD 0 = _
  rw [hn, Option.map_some, Option.getD_some, hwf.count i n hi hn, missing]
  refine congrArg Finset.card (Finset.filter_congr fun c _ => ?_)
  exact ⟨fun hp => ⟨hp, rfl⟩, fun hp => hp.1⟩

theorem Reach.inv (hsize : 1 ≤ size) (h : Reach size s) :
    ∃ signals resets, Inv (treeBarrier size 2) size s signals resets := by
  induction h with
  | init => exact ⟨_, _, inv_init (treeBarrier_wellFormed hsize)⟩
  | step id n _ hid hn ih =>
    obtain ⟨signals, resets, hinv⟩ := ih
    exact step_inv hinv (treeBarrier_wellFormed hsize) hid hn

/-- **The tree barrier is correct**: every thread has its node in the tree, no assertion fails, and
no thread returns from its `k`-th call before every thread has entered its `k`-th call. -/
theorem barrier_correct {size : ℕ} (hsize : 1 ≤ size) :
    WellFormed (treeBarrier size 2) size ∧
      ∀ s, Reach size s → (∀ i, i < size → s.pc i ≠ .aborted) ∧
        ∀ i j k, i < size → j < size → k ≤ s.returned i → k ≤ s.entered j := by
  refine ⟨treeBarrier_wellFormed hsize, fun s h => ?_⟩
  obtain ⟨signals, resets, hinv⟩ := h.inv hsize
  refine ⟨fun i _ hi => ?_, fun i j k _ hj hk => ?_⟩
  · have hplace := hinv.place i
    rw [hi] at hplace
    exact hplace
  · calc k ≤ s.returned i := hk
      _ ≤ signals 0 := hinv.returned i
      _ ≤ signals j := hinv.root_le (treeBarrier_wellFormed hsize) hj
      _ ≤ s.entered j := (hinv.place j).le.2

/-- The state after the given threads have gone on, one access each. -/
def run (size : ℕ) (s : BarrierState) : List ℕ → Option BarrierState
  | [] => some s
  | id :: l =>
    if id < size then (treeBarrier size 2 id).bind fun n => (s.step id n).run size l else none

theorem Reach.run {l : List ℕ} (h : Reach size s) (hrun : s.run size l = some s') :
    Reach size s' := by
  induction l generalizing s with
  | nil => exact Option.some.inj hrun ▸ h
  | cons id l ih =>
    rw [BarrierState.run] at hrun
    split at hrun
    · next hid =>
      obtain ⟨n, hn, hrest⟩ := Option.bind_eq_some_iff.mp hrun
      exact ih (h.step id n hid hn) hrest
    · exact absurd hrun (by simp)

/-- Three threads: thread `1` has returned once, so thread `2` has entered. -/
theorem barrier_correct_three : ∃ s,
    (init (treeBarrier 3 2)).run 3 [1, 1, 1, 1, 2, 2, 2, 2, 0, 0, 0, 0, 0, 1, 1] = some s ∧
      s.returned 1 = 1 ∧ 1 ≤ s.entered 2 := by
  have hrun : ((init (treeBarrier 3 2)).run 3 [1, 1, 1, 1, 2, 2, 2, 2, 0, 0, 0, 0, 0, 1, 1]).map
      (fun s => s.returned 1) = some 1 := by decide +kernel
  obtain ⟨s, hs, hreturned⟩ := Option.map_eq_some_iff.mp hrun
  exact ⟨s, hs, hreturned, ((barrier_correct (by decide)).2 s (Reach.init.run hs)).2 1 2 1
    (by decide) (by decide) (le_of_eq hreturned.symm)⟩

end BarrierState

end Meld
