import Mathlib.Algebra.BigOperators.Fin
import Mathlib.Algebra.Order.BigOperators.Group.Finset
import Meld.Lib.Drift
import Meld.Thread.Termination

/-!
# When the termination barrier is right

In a run of careful steps `done` is set only when no thread is active and none has work.  The
counter is the number of active threads, but for the updates that are outstanding (`outstanding`),
and work that lies with a thread is never forgotten (`Covered`): an active thread has the owner on
its list of threads to wake, or the owner has been told, or the owner is active and will still look
at that queue.

* `turn_spec`: what a step does to these, for every point of the loop.
* `Inv.step`: a careful step keeps the invariant.
* `doneSafely_of_careful`: in every careful run `done` is set only when no thread is active or has
  work, and no thread leaves the loop while there is work.
-/

namespace Meld
namespace Sched

variable {n : ℕ}

/-! ## What a thread is responsible for -/

/-- A place where work for a thread can lie. -/
inductive Item where
  | queue (k : Fin 4)
  | facts

/-- There is work in that place. -/
@[simp] def Shared.HasWork (s : Shared) : Item → Prop
  | .queue k => s.queue k ≠ 0
  | .facts => s.facts = true

/-- Points at which the thread is active. -/
@[simp] def activePc : Pc n → Bool
  | .current | .pop _ | .facts | .scan _ | .wake _ _ | .waking _ _ | .run | .prio _ => true
  | .steal f | .stealScan f _ => f.activated
  | .stealing _ | .grab _ | .place _ | .stealEnd _ | .activating => true
  | _ => false

/-- Points at which all of `comm_threads` has been dealt with. -/
@[simp] def commFree : Pc n → Bool
  | .steal _ | .stealScan _ _ | .stealActivate _ | .stealing _ | .grab _ => true
  | .stealEnd _ | .stealDec _ | .idle _ | .deactivate | .decrement | .finished => true
  | .activate | .activating | .exited => true
  | _ => false

/-- The threads that the thread is going to wake. -/
@[simp] def Local.pending (l : Local n) (b : Fin n) : Prop :=
  match l.pc with
  | .wake ts back | .waking ts back => b ∈ ts ∨ back = .run ∧ l.comm b = true
  | _ => l.comm b = true

/-- The place is one of the queues from the `k`th on. -/
@[simp] def Item.from (k : Fin 4) : Item → Prop
  | .queue j => k ≤ j
  | .facts => False

/-- Points from which the thread looks at the place again before it goes inactive. -/
@[simp] def looksAt (item : Item) : Pc n → Prop
  | .current | .pop _ | .facts | .run | .prio _ | .place _ | .activate | .activating => True
  | .wake _ back | .waking _ back => back = .run
  | .scan k => item.from k
  | .steal f | .stealScan f _ | .stealing f | .grab f => f.activated = true ∧ f.hasWork = true
  | _ => False

/-- What a thread's own data says about its state. -/
structure LocalOk (s : Shared) (l : Local n) : Prop where
  active : activePc l.pc = true → s.tstate ≠ .inactive
  comm : commFree l.pc = true → ∀ b, l.comm b = false

/-- What the state of a thread adds to the counter. -/
def TState.unit (t : TState) : ℤ := if t = .inactive then 0 else 1

/-- What the updates that are outstanding add to the counter. -/
@[simp] def outstanding (pc : Pc n) : ℤ :=
  (if pendingDecrement pc then 1 else 0) - (if pendingIncrement pc then 1 else 0)

/-- The work will be seen. -/
def Covered (σ : State n) (b : Fin n) (item : Item) : Prop :=
  (∃ a, (σ.shared a).tstate ≠ .inactive ∧ (σ.loc a).pending b) ∨
    (σ.shared b).tstate = .activeNew ∨
    ((σ.shared b).tstate ≠ .inactive ∧ looksAt item (σ.loc b).pc)

/-- The invariant of careful runs. -/
structure Inv (σ : State n) : Prop where
  localOk : ∀ i, LocalOk (σ.shared i) (σ.loc i)
  count : σ.activeThreads = (∑ i, (σ.shared i).tstate.unit) + ∑ i, outstanding (σ.loc i).pc
  covered : ∀ b item, (σ.shared b).HasWork item → Covered σ b item

theorem inv_initial {σ : State n} (h : Initial σ) : Inv σ where
  localOk := fun i => by
    refine ⟨fun _ => by rw [h.tstate]; simp, fun hfree => ?_⟩
    rw [h.pc] at hfree
    cases hfree
  count := by
    simp [h.activeThreads, h.tstate, h.pc, TState.unit, outstanding, pendingDecrement,
      pendingIncrement]
  covered := fun b item _ => by
    refine Or.inr (Or.inr ⟨by rw [h.tstate]; simp, ?_⟩)
    rw [h.pc]
    trivial

/-! ## What a step does -/

/-- The state of a thread after an access. -/
@[simp] def Op.tstate (op : Op n) (σ : State n) (b : Fin n) : TState :=
  match op with
  | .cas b' new => if b = b' then new else (σ.shared b).tstate
  | _ => (σ.shared b).tstate

/-- What an access adds to the counter. -/
@[simp] def Op.delta : Op n → ℤ
  | .isActive => 1
  | .isInactive => -1
  | _ => 0

/-- What an access changes in the number of active threads. -/
@[simp] def Op.unitDelta (op : Op n) (σ : State n) : ℤ :=
  match op with
  | .cas b new => new.unit - (σ.shared b).tstate.unit
  | _ => 0

/-- The compare-and-swaps on the state of a thread, and what goes with them. -/
@[simp] def CasOk (σ : State n) (i : Fin n) (l l' : Local n) : Op n → Prop
  | .cas _ .activeNew => True
  | .cas b .active => b = i ∧ ((σ.shared i).tstate = .activeNew → ∀ item, looksAt item l'.pc)
  | .cas b .inactive => b = i ∧ (∀ c, ¬ l.pending c) ∧ (∀ item, ¬ looksAt item l.pc) ∧
      (σ.shared i).tstate = .active
  | _ => True

/-- New work is put where the thread, which is active, is responsible for it. -/
@[simp] def PushOk (σ : State n) (i : Fin n) (l' : Local n) : Op n → Prop
  | .push b k => (σ.shared i).tstate ≠ .inactive ∧
      (l'.pending b ∨ b = i ∧ looksAt (.queue k) l'.pc)
  | .addFacts b => (σ.shared i).tstate ≠ .inactive ∧ l'.pending b
  | _ => True

/-- What a step of thread `i` does to its duties, `l` and `l'` being what it keeps before and
after. -/
structure TurnOk (σ : State n) (i : Fin n) (l : Local n) (op : Op n) (l' : Local n) : Prop where
  active : activePc l'.pc = true → op.tstate σ i ≠ .inactive
  comm : commFree l'.pc = true → ∀ b, l'.comm b = false
  pending : ∀ b, l.pending b → l'.pending b ∨ op.tstate σ b = .activeNew
  looks : ∀ item, looksAt item l.pc → (σ.shared i).HasWork item → looksAt item l'.pc
  cas : CasOk σ i l l' op
  push : PushOk σ i l' op
  count : op.delta = outstanding l'.pc - outstanding l.pc + op.unitDelta σ
  exited : l'.pc = .exited → σ.done = true
  isInactive : op = .isInactive → pendingDecrement l.pc = true

section Turn

variable {σ : State n} {i : Fin n} {l l' : Local n} {op : Op n} {c : Choice n}

theorem turnOk_runNode (hpc : l.pc = .run) (hact : (σ.shared i).tstate ≠ .inactive)
    (h : runNode σ i l c = some (op, l')) : TurnOk σ i l op l' := by
  unfold runNode at h
  split at h <;> (try split at h) <;> simp at h <;> obtain ⟨rfl, rfl⟩ := h <;> constructor <;>
    simp +contextual [hpc, hact, Function.update_apply]

theorem turnOk_putBack {owner : Fin n} (hpc : l.pc = .prio owner)
    (hact : (σ.shared i).tstate ≠ .inactive) (h : putBack i l owner c = some (op, l')) :
    TurnOk σ i l op l' := by
  unfold putBack at h
  split at h <;> simp at h <;> obtain ⟨rfl, rfl⟩ := h <;> by_cases hown : owner = i <;>
    constructor <;> simp +contextual [hpc, hact, hown, Function.update_apply]

theorem turnOk_checkIfCurrentUseless (hpc : l.pc = .current)
    (hact : (σ.shared i).tstate ≠ .inactive) (h : checkIfCurrentUseless l c = some (op, l')) :
    TurnOk σ i l op l' := by
  unfold checkIfCurrentUseless at h
  split at h <;> simp at h <;> obtain ⟨rfl, rfl⟩ := h <;> constructor <;>
    simp +contextual [hpc, hact, Function.update_apply]

theorem turnOk_popNode {stage : PopStage} (hpc : l.pc = .pop stage)
    (hact : (σ.shared i).tstate ≠ .inactive)
    (h : popNode i (σ.shared i) l stage c = some (op, l')) : TurnOk σ i l op l' := by
  unfold popNode at h
  split at h <;> (try split at h) <;> simp at h <;> obtain ⟨rfl, rfl⟩ := h <;> constructor <;>
    simp +contextual [hpc, hact]

/-- The thread node is found without facts, or taken. -/
theorem turnOk_testFacts (hpc : l.pc = .facts) (hact : (σ.shared i).tstate ≠ .inactive) :
    TurnOk σ i l (testFacts i (σ.shared i) l).1 (testFacts i (σ.shared i) l).2 := by
  cases hfacts : (σ.shared i).facts <;> simp only [testFacts, hfacts, if_true] <;>
    constructor <;> simp +contextual [hpc, hact]
  rintro (j | _) hwork
  · trivial
  · exact Bool.false_ne_true (hfacts.symm.trans hwork)

/-- A queue is found empty, and looked at no more, or the thread goes back to take a node. -/
theorem turnOk_scanQueue {k : Fin 4} (hpc : l.pc = .scan k)
    (hact : (σ.shared i).tstate ≠ .inactive) :
    TurnOk σ i l .nop (scanQueue (σ.shared i) l k) := by
  unfold scanQueue
  split
  · constructor <;> simp +contextual [hpc, hact]
  · rename_i hempty
    have hne : ∀ j, k ≤ j → (σ.shared i).queue j ≠ 0 → k ≠ j := by
      rintro j - hj rfl
      exact hempty hj
    split
    · rename_i hlast
      constructor <;> simp +contextual [hpc, hact]
      rintro (j | _) hle hwork
      · exact hne j hle hwork (le_antisymm hle (by omega))
      · exact hle
    · rename_i hlast
      constructor <;> simp +contextual [hpc, hact]
      rintro (j | _) hle hwork
      · have := hne j hle hwork
        omega
      · exact hle

/-- The target is told, whatever its state was. -/
theorem turnOk_activateThread {b : Fin n} {ts : List (Fin n)} {back : Back}
    (hpc : l.pc = .wake (b :: ts) back) (hact : (σ.shared i).tstate ≠ .inactive) :
    TurnOk σ i l (activateThread l (σ.shared b).tstate b ts back).1
      (activateThread l (σ.shared b).tstate b ts back).2 := by
  cases hb : (σ.shared b).tstate <;> simp only [activateThread] <;> constructor <;>
    simp +contextual [hpc, hact, hb, TState.unit] <;> grind

theorem turnOk_woken {back : Back} (hpc : l.pc = .wake [] back)
    (hact : (σ.shared i).tstate ≠ .inactive) (h : woken i l back c = some l') :
    TurnOk σ i l .nop l' := by
  unfold woken at h
  split at h <;> simp at h <;> obtain rfl := h <;> constructor <;>
    simp +contextual [hpc, hact, startSteal]

theorem turnOk_stealLoop {f : StealFrame n} (hpc : l.pc = .steal f)
    (hact : f.activated = true → (σ.shared i).tstate ≠ .inactive)
    (hcomm : ∀ b, l.comm b = false) : TurnOk σ i l .nop { l with pc := stealLoop σ f } := by
  unfold stealLoop stealFailed
  split <;> (try split) <;> (try split) <;> constructor <;> simp_all

theorem turnOk_stealScanQueue {f : StealFrame n} {k : Fin 4} (hpc : l.pc = .stealScan f k)
    (hact : f.activated = true → (σ.shared i).tstate ≠ .inactive)
    (hcomm : ∀ b, l.comm b = false) :
    TurnOk σ i l .nop { l with pc := stealScanQueue σ f k } := by
  unfold stealScanQueue
  split <;> (try split) <;> (try split) <;> constructor <;> simp_all

theorem turnOk_grabNodes {f : StealFrame n} (hpc : l.pc = .grab f)
    (hact : (σ.shared i).tstate ≠ .inactive) (hcomm : ∀ b, l.comm b = false)
    (h : grabNodes σ l f c = some (op, l')) : TurnOk σ i l op l' := by
  unfold grabNodes at h
  split at h <;> (try split at h) <;> (try split at h) <;> (try split at h) <;> simp at h <;>
    obtain ⟨rfl, rfl⟩ := h <;> constructor <;> simp +contextual [hpc, hact, hcomm]

theorem turnOk_placeNode {m : ℕ} (hpc : l.pc = .place m) (hact : (σ.shared i).tstate ≠ .inactive)
    (h : placeNode i l m c = some (op, l')) : TurnOk σ i l op l' := by
  unfold placeNode at h
  split at h <;> simp at h <;> obtain ⟨rfl, rfl⟩ := h <;> constructor <;>
    simp +contextual [hpc, hact, Function.update_apply]

theorem turnOk_idleQueue {k : Fin 4} (hpc : l.pc = .idle k) (hcomm : ∀ b, l.comm b = false)
    (h : idleQueue i (σ.shared i) l k c = some l') : TurnOk σ i l .nop l' := by
  unfold idleQueue at h
  split at h <;> (try split at h) <;> simp at h <;> obtain rfl := h <;> (try split) <;>
    constructor <;> simp +contextual [hpc, hcomm, startSteal]

/-- `set_active_if_inactive` in `go_steal_nodes`. -/
theorem turnOk_stealActivate {f : StealFrame n} (hpc : l.pc = .stealActivate f)
    (hcomm : ∀ b, l.comm b = false) :
    TurnOk σ i l (setActiveIfInactive i (σ.shared i).tstate)
      { l with pc := match (σ.shared i).tstate with
        | .inactive => .stealing { f with activated := true }
        | .active => .grab { f with activated := true }
        | .activeNew => .grab { f with activated := true, hasWork := true } } := by
  cases hs : (σ.shared i).tstate <;> simp only [setActiveIfInactive] <;> constructor <;>
    simp +contextual [hpc, hcomm, hs, TState.unit]

/-- `set_active_if_inactive` at the end of `busy_wait`. -/
theorem turnOk_activate (hpc : l.pc = .activate) (hcomm : ∀ b, l.comm b = false) :
    TurnOk σ i l (setActiveIfInactive i (σ.shared i).tstate)
      { l with pc := match (σ.shared i).tstate with
        | .inactive => .activating
        | _ => .pop .prios } := by
  cases hs : (σ.shared i).tstate <;> simp only [setActiveIfInactive] <;> constructor <;>
    simp +contextual [hpc, hcomm, hs, TState.unit]

/-- `set_inactive_if_no_work` in the loop of `busy_wait`. -/
theorem turnOk_deactivate (hpc : l.pc = .deactivate) (hcomm : ∀ b, l.comm b = false) :
    TurnOk σ i l (setInactiveIfNoWork i (σ.shared i).tstate)
      { l with pc := match (σ.shared i).tstate with
        | .inactive => .finished
        | .active => .decrement
        | .activeNew => .pop .prios } := by
  cases hs : (σ.shared i).tstate <;> simp only [setInactiveIfNoWork] <;> constructor <;>
    simp +contextual [hpc, hcomm, hs, TState.unit]

/-- `set_inactive_if_no_work` at the end of `go_steal_nodes`, when it does not find new work. -/
theorem turnOk_stealEnd {inLoop : Bool} (hpc : l.pc = .stealEnd inLoop)
    (hcomm : ∀ b, l.comm b = false) (hcareful : (σ.shared i).tstate ≠ .activeNew) :
    TurnOk σ i l (setInactiveIfNoWork i (σ.shared i).tstate)
      { l with pc := match (σ.shared i).tstate with
        | .active => .stealDec inLoop
        | _ => stealFailed inLoop } := by
  cases hs : (σ.shared i).tstate with
  | activeNew => exact absurd hs hcareful
  | active =>
    simp only [setInactiveIfNoWork]
    constructor <;> simp +contextual [hpc, hcomm, hs, TState.unit]
  | inactive =>
    cases inLoop <;> simp only [setInactiveIfNoWork] <;> constructor <;>
      simp +contextual [hpc, hcomm, hs]

/-- An update of the counter that is still outstanding. -/
theorem turnOk_counter {pc : Pc n} (hcomm : commFree pc = true → ∀ b, l.comm b = false)
    (hact : activePc pc = true → (σ.shared i).tstate ≠ .inactive)
    (hpend : ∀ b, l.pending b → ({ l with pc := pc } : Local n).pending b)
    (hlooks : ∀ item, looksAt item l.pc → looksAt item pc)
    (hop : op = .isActive ∨ op = .isInactive)
    (hcount : op.delta = outstanding pc - outstanding l.pc) (hexit : pc ≠ .exited)
    (hdec : op = .isInactive → pendingDecrement l.pc = true) :
    TurnOk σ i l op { l with pc := pc } := by
  rcases hop with rfl | rfl <;> exact ⟨hact, hcomm, fun b hb => Or.inl (hpend b hb),
    fun item h _ => hlooks item h, trivial, trivial, by simpa using hcount,
    fun h => absurd h hexit, hdec⟩

theorem always_eq {r : Op n × Local n} (h : always r c = some (op, l')) : (op, l') = r := by
  cases c <;> simp only [always, Option.some.injEq, reduceCtorEq] at h
  exact h.symm

/-- **Every careful step does its duty**, wherever the thread stands. -/
theorem turn_spec (hok : LocalOk (σ.shared i) (σ.loc i)) (hcareful : Careful σ i)
    (h : turn σ i c = some (op, l')) : TurnOk σ i (σ.loc i) op l' := by
  obtain ⟨hact, hcomm⟩ := hok
  cases hpc : (σ.loc i).pc <;> rw [hpc] at hact hcomm <;> simp only [turn, hpc] at h
  case current => exact turnOk_checkIfCurrentUseless hpc (hact rfl) h
  case pop stage => exact turnOk_popNode hpc (hact rfl) h
  case facts =>
    obtain ⟨rfl, rfl⟩ := Prod.mk.inj (always_eq h)
    exact turnOk_testFacts hpc (hact rfl)
  case scan k =>
    obtain ⟨rfl, rfl⟩ := Prod.mk.inj (always_eq h)
    exact turnOk_scanQueue hpc (hact rfl)
  case wake ts back =>
    cases ts with
    | nil =>
      obtain ⟨l'', hw, heq⟩ := Option.map_eq_some_iff.1 h
      obtain ⟨rfl, rfl⟩ := Prod.mk.inj heq
      exact turnOk_woken hpc (hact rfl) hw
    | cons b ts =>
      obtain ⟨rfl, rfl⟩ := Prod.mk.inj (always_eq h)
      exact turnOk_activateThread hpc (hact rfl)
  case waking ts back =>
    obtain ⟨rfl, rfl⟩ := Prod.mk.inj (always_eq h)
    refine turnOk_counter ?_ ?_ ?_ ?_ (Or.inl rfl) ?_ ?_ ?_ <;> simp [hpc, hact rfl]
  case run => exact turnOk_runNode hpc (hact rfl) h
  case prio owner => exact turnOk_putBack hpc (hact rfl) h
  case steal f =>
    obtain ⟨rfl, rfl⟩ := Prod.mk.inj (always_eq h)
    exact turnOk_stealLoop hpc hact (hcomm rfl)
  case stealScan f k =>
    obtain ⟨rfl, rfl⟩ := Prod.mk.inj (always_eq h)
    exact turnOk_stealScanQueue hpc hact (hcomm rfl)
  case stealActivate f =>
    obtain ⟨rfl, rfl⟩ := Prod.mk.inj (always_eq h)
    exact turnOk_stealActivate hpc (hcomm rfl)
  case stealing f =>
    obtain ⟨rfl, rfl⟩ := Prod.mk.inj (always_eq h)
    refine turnOk_counter ?_ ?_ ?_ ?_ (Or.inl rfl) ?_ ?_ ?_ <;> simp [hpc, hact rfl, hcomm rfl]
  case grab f => exact turnOk_grabNodes hpc (hact rfl) (hcomm rfl) h
  case place m => exact turnOk_placeNode hpc (hact rfl) h
  case stealEnd inLoop =>
    obtain ⟨rfl, rfl⟩ := Prod.mk.inj (always_eq h)
    exact turnOk_stealEnd hpc (hcomm rfl) (hcareful.2 (by rw [hpc]; rfl))
  case stealDec inLoop =>
    obtain ⟨rfl, rfl⟩ := Prod.mk.inj (always_eq h)
    cases inLoop <;> refine turnOk_counter ?_ ?_ ?_ ?_ (Or.inr rfl) ?_ ?_ ?_ <;>
      simp [hpc, hcomm rfl]
  case idle k =>
    obtain ⟨l'', hw, heq⟩ := Option.map_eq_some_iff.1 h
    obtain ⟨rfl, rfl⟩ := Prod.mk.inj heq
    exact turnOk_idleQueue hpc (hcomm rfl) hw
  case deactivate =>
    obtain ⟨rfl, rfl⟩ := Prod.mk.inj (always_eq h)
    exact turnOk_deactivate hpc (hcomm rfl)
  case decrement =>
    obtain ⟨rfl, rfl⟩ := Prod.mk.inj (always_eq h)
    refine turnOk_counter ?_ ?_ ?_ ?_ (Or.inr rfl) ?_ ?_ ?_ <;> simp [hpc, hcomm rfl]
  case finished =>
    obtain ⟨rfl, rfl⟩ := Prod.mk.inj (always_eq h)
    cases hdone : σ.done <;> constructor <;> simp +contextual [hpc, hcomm rfl, hdone]
  case activate =>
    obtain ⟨rfl, rfl⟩ := Prod.mk.inj (always_eq h)
    exact turnOk_activate hpc (hcomm rfl)
  case activating =>
    obtain ⟨rfl, rfl⟩ := Prod.mk.inj (always_eq h)
    refine turnOk_counter ?_ ?_ ?_ ?_ (Or.inl rfl) ?_ ?_ ?_ <;> simp [hpc, hact rfl, hcomm rfl]
  case exited => cases h

end Turn

/-! ## The step lemma -/

section Step

variable {σ σ' : State n} {i : Fin n} {c : Choice n} {op : Op n}

theorem step_eq_some (h : step σ i c = some σ') :
    ∃ op l', turn σ i c = some (op, l') ∧
      σ' = { σ.apply op with loc := Function.update σ.loc i l' } := by
  obtain ⟨⟨op, l'⟩, hturn, heq⟩ := Option.map_eq_some_iff.1 h
  exact ⟨op, l', hturn, heq.symm⟩

theorem tstate_apply (b : Fin n) : ((σ.apply op).shared b).tstate = op.tstate σ b := by
  cases op <;> simp only [State.apply, State.modifyShared, Op.tstate, Function.update_apply] <;>
    split <;> simp_all [Shared.modifyQueue]

theorem activeThreads_apply : (σ.apply op).activeThreads = σ.activeThreads + op.delta := by
  cases op <;> simp [State.apply, State.modifyShared, Int.sub_eq_add_neg]

/-- Work is there after an access if it was there before, or if the access put it there. -/
theorem hasWork_apply {b : Fin n} {item : Item} (h : ((σ.apply op).shared b).HasWork item) :
    (σ.shared b).HasWork item ∨ (∃ k, op = .push b k ∧ item = .queue k) ∨
      op = .addFacts b ∧ item = .facts := by
  cases op with
  | nop => exact Or.inl h
  | isActive => exact Or.inl h
  | isInactive => exact Or.inl h
  | _ =>
    cases item <;>
      simp only [State.apply, State.modifyShared, Shared.modifyQueue, Function.update_apply] at h <;>
      split at h <;> simp_all [Function.update_apply] <;> grind

theorem sum_unit_apply : ∑ j, ((σ.apply op).shared j).tstate.unit =
    ∑ j, (σ.shared j).tstate.unit + op.unitDelta σ := by
  simp only [tstate_apply]
  cases op with
  | cas b new =>
    rw [Op.unitDelta, ← sum_update TState.unit (fun j => (σ.shared j).tstate)
      (Finset.mem_univ b) new]
    refine Finset.sum_congr rfl fun j _ => ?_
    by_cases hj : j = b <;> simp [hj]
  | _ => simp

variable {l' : Local n}

/-- An active thread stays active, unless it makes itself inactive, which it does without duties. -/
theorem TurnOk.tstate_ne (hturn : TurnOk σ i (σ.loc i) op l') {a : Fin n}
    (ha : (σ.shared a).tstate ≠ .inactive) :
    op.tstate σ a ≠ .inactive ∨
      a = i ∧ (∀ b, ¬ (σ.loc i).pending b) ∧ ∀ item, ¬ looksAt item (σ.loc i).pc := by
  have hcas := hturn.cas
  cases op with
  | cas b new =>
    by_cases hb : a = b
    · subst hb
      cases new with
      | inactive => exact Or.inr ⟨hcas.1, hcas.2.1, hcas.2.2.1⟩
      | active => exact Or.inl (by simp)
      | activeNew => exact Or.inl (by simp)
    · exact Or.inl (by simpa [hb] using ha)
  | _ => exact Or.inl ha

/-- A thread that has been told stays so, or sees it and looks at everything again. -/
theorem TurnOk.activeNew (hturn : TurnOk σ i (σ.loc i) op l') {b : Fin n}
    (hb : (σ.shared b).tstate = .activeNew) :
    op.tstate σ b = .activeNew ∨
      b = i ∧ op.tstate σ b ≠ .inactive ∧ ∀ item, looksAt item l'.pc := by
  have hcas := hturn.cas
  cases op with
  | cas b' new =>
    by_cases hbb : b = b'
    · subst hbb
      cases new with
      | inactive =>
        obtain ⟨rfl, -, -, hact⟩ := hcas
        rw [hb] at hact
        cases hact
      | active =>
        obtain ⟨rfl, hlooks⟩ := hcas
        exact Or.inr ⟨rfl, by simp, hlooks hb⟩
      | activeNew => exact Or.inl (by simp)
    · exact Or.inl (by simpa [hbb] using hb)
  | _ => exact Or.inl hb

/-- Work that will be seen will still be seen after the step, and so will new work. -/
theorem TurnOk.covered (hturn : TurnOk σ i (σ.loc i) op l') {b : Fin n} {item : Item}
    (hcov : (σ.shared b).HasWork item → Covered σ b item)
    (hwork : ((σ.apply op).shared b).HasWork item) :
    Covered { σ.apply op with loc := Function.update σ.loc i l' } b item := by
  have hself : Function.update σ.loc i l' i = l' := Function.update_self ..
  have hother : ∀ j, j ≠ i → Function.update σ.loc i l' j = σ.loc j := fun j hj =>
    Function.update_of_ne hj ..
  simp only [Covered, tstate_apply]
  rcases hasWork_apply hwork with hold | ⟨k, rfl, rfl⟩ | ⟨rfl, rfl⟩
  · rcases hcov hold with ⟨a, hact, hpend⟩ | hnew | ⟨hact, hlooks⟩
    · -- an active thread is going to wake it
      rcases hturn.tstate_ne hact with hact' | ⟨rfl, hnone, -⟩
      · by_cases ha : a = i
        · subst ha
          rcases hturn.pending b hpend with hpend' | htold
          · exact Or.inl ⟨a, hact', by rw [hself]; exact hpend'⟩
          · exact Or.inr (Or.inl htold)
        · exact Or.inl ⟨a, hact', by rw [hother a ha]; exact hpend⟩
      · exact absurd hpend (hnone b)
    · -- it has been told
      rcases hturn.activeNew hnew with hnew' | ⟨rfl, hact', hlooks⟩
      · exact Or.inr (Or.inl hnew')
      · exact Or.inr (Or.inr ⟨hact', by rw [hself]; exact hlooks item⟩)
    · -- it looks there itself
      rcases hturn.tstate_ne hact with hact' | ⟨rfl, -, hnone⟩
      · by_cases hb : b = i
        · subst hb
          exact Or.inr (Or.inr ⟨hact', by rw [hself]; exact hturn.looks item hlooks hold⟩)
        · exact Or.inr (Or.inr ⟨hact', by rw [hother b hb]; exact hlooks⟩)
      · exact absurd hlooks (hnone item)
  · obtain ⟨hact, hpend | ⟨rfl, hlooks⟩⟩ := hturn.push
    · exact Or.inl ⟨i, hact, by rw [hself]; exact hpend⟩
    · exact Or.inr (Or.inr ⟨hact, by rw [hself]; exact hlooks⟩)
  · obtain ⟨hact, hpend⟩ := hturn.push
    exact Or.inl ⟨i, hact, by rw [hself]; exact hpend⟩

/-- **A careful step keeps the invariant.** -/
theorem Inv.step (h : Inv σ) (hcareful : Careful σ i) (hstep : Sched.step σ i c = some σ') :
    Inv σ' := by
  obtain ⟨op, l', hturn, rfl⟩ := step_eq_some hstep
  have hok := turn_spec (h.localOk i) hcareful hturn
  refine ⟨fun j => ?_, ?_, fun b item => hok.covered (h.covered b item)⟩
  · by_cases hj : j = i
    · subst hj
      refine ⟨fun hact => ?_, fun hfree => ?_⟩
      · simp only [Function.update_self] at hact
        simp only [tstate_apply]
        exact hok.active hact
      · simp only [Function.update_self] at hfree ⊢
        exact hok.comm hfree
    · refine ⟨fun hact => ?_, fun hfree => ?_⟩
      · simp only [Function.update_of_ne hj] at hact
        simp only [tstate_apply]
        rcases hok.tstate_ne ((h.localOk j).active hact) with hne | ⟨rfl, -⟩
        · exact hne
        · exact absurd rfl hj
      · simp only [Function.update_of_ne hj] at hfree ⊢
        exact (h.localOk j).comm hfree
  · have hloc : ∑ j, outstanding (Function.update σ.loc i l' j).pc =
        ∑ j, outstanding (σ.loc j).pc + (outstanding l'.pc - outstanding (σ.loc i).pc) :=
      sum_update (fun l : Local n => outstanding l.pc) σ.loc (Finset.mem_univ i) l'
    have hcount := h.count
    have hdelta := hok.count
    simp only [hloc, sum_unit_apply, activeThreads_apply]
    omega

end Step

/-! ## The end -/

section Done

variable {σ σ' σ₀ : State n} {i : Fin n} {c : Choice n}

/-- Points at which the thread has no node and no thread to wake. -/
@[simp] def quietPc : Pc n → Bool
  | .current | .run | .prio _ | .place (_ + 1) | .waking _ _ => false
  | .wake ts back => decide (ts = [] ∧ back = .idle)
  | _ => true

/-- Nothing is left to do: there is no work, no thread can make any, and none is going to wake
another. -/
structure Quiet (σ : State n) : Prop where
  noWork : ∀ b item, ¬ (σ.shared b).HasWork item
  pc : ∀ i, quietPc (σ.loc i).pc = true
  comm : ∀ i b, (σ.loc i).comm b = false

theorem quietPc_of_not_activePc {pc : Pc n} (h : activePc pc = false) : quietPc pc = true := by
  cases pc <;> simp_all

theorem not_aboutToPush_of_quietPc {pc : Pc n} (h : quietPc pc = true) :
    aboutToPush pc = false := by
  cases pc with
  | place m => cases m <;> simp_all [aboutToPush]
  | _ => simp_all [aboutToPush]

theorem commFree_of_not_activePc {pc : Pc n} (h : activePc pc = false) : commFree pc = true := by
  cases pc <;> simp_all

/-- When no thread is active, nothing is left to do. -/
theorem Inv.quiet (h : Inv σ) (hnone : NoneActive σ) : Quiet σ := by
  have hact : ∀ i, activePc (σ.loc i).pc = false := fun i =>
    Bool.eq_false_iff.2 fun hact => (h.localOk i).active hact (hnone i)
  refine ⟨fun b item hwork => ?_, fun i => quietPc_of_not_activePc (hact i), fun i =>
    (h.localOk i).comm (commFree_of_not_activePc (hact i))⟩
  rcases h.covered b item hwork with ⟨a, ha, -⟩ | hnew | ⟨hb, -⟩
  · exact ha (hnone a)
  · rw [hnone b] at hnew
    cases hnew
  · exact hb (hnone b)

theorem Quiet.toNoWork (h : Quiet σ) : NoWork σ := by
  intro i
  refine ⟨fun k => not_not.1 (h.noWork i (.queue k)), ?_, ?_⟩
  · exact Bool.eq_false_iff.2 (h.noWork i .facts)
  · exact not_aboutToPush_of_quietPc (h.pc i)

theorem quietPc_stealLoop (f : StealFrame n) : quietPc (stealLoop σ f) = true := by
  unfold stealLoop stealFailed
  split <;> (try split) <;> (try split) <;> rfl

theorem quietPc_stealScanQueue (f : StealFrame n) (k : Fin 4) :
    quietPc (stealScanQueue σ f k) = true := by
  unfold stealScanQueue
  split <;> (try split) <;> (try split) <;> rfl

/-- A step when nothing is left to do. -/
theorem Quiet.turn (h : Quiet σ) {op : Op n} {l' : Local n} (hturn : turn σ i c = some (op, l')) :
    (∀ b k, op ≠ .push b k) ∧ (∀ b, op ≠ .addFacts b) ∧ quietPc l'.pc = true ∧
      ∀ b, l'.comm b = false := by
  have hqueue : ∀ b k, (σ.shared b).queue k = 0 := fun b k => not_not.1 (h.noWork b (.queue k))
  have hfacts : (σ.shared i).facts = false := Bool.eq_false_iff.2 (h.noWork i .facts)
  have hquiet := h.pc i
  have hcomm := h.comm i
  cases hpc : (σ.loc i).pc <;> rw [hpc] at hquiet <;> simp only [Sched.turn, hpc] at hturn
  case current => cases hquiet
  case run => cases hquiet
  case prio owner => cases hquiet
  case waking ts back => cases hquiet
  case exited => cases hturn
  case pop stage =>
    unfold popNode at hturn
    split at hturn <;> simp [hqueue] at hturn <;> obtain ⟨rfl, rfl⟩ := hturn <;> simp [hcomm]
  case wake ts back =>
    obtain ⟨rfl, rfl⟩ : ts = [] ∧ back = .idle := of_decide_eq_true hquiet
    obtain ⟨l'', hw, heq⟩ := Option.map_eq_some_iff.1 hturn
    obtain ⟨rfl, rfl⟩ := Prod.mk.inj heq
    unfold woken at hw
    split at hw <;> simp at hw <;> obtain rfl := hw <;> simp_all [startSteal]
  case grab f =>
    unfold grabNodes at hturn
    split at hturn <;> (try split at hturn) <;> (try split at hturn) <;> (try split at hturn) <;>
      simp at hturn <;> obtain ⟨rfl, rfl⟩ := hturn <;> simp_all
  case place m =>
    unfold placeNode at hturn
    split at hturn <;> simp at hturn <;> obtain ⟨rfl, rfl⟩ := hturn <;> simp_all
  case idle k =>
    obtain ⟨l'', hw, heq⟩ := Option.map_eq_some_iff.1 hturn
    obtain ⟨rfl, rfl⟩ := Prod.mk.inj heq
    unfold idleQueue at hw
    split at hw <;> (try split at hw) <;> simp at hw <;> obtain rfl := hw <;> (try split) <;>
      simp [hcomm, startSteal]
  case facts =>
    have heq := always_eq hturn
    rw [testFacts, if_neg (by simp [hfacts])] at heq
    obtain ⟨rfl, rfl⟩ := Prod.mk.inj heq
    simp [hcomm]
  all_goals obtain ⟨rfl, rfl⟩ := Prod.mk.inj (always_eq hturn)
  case scan k =>
    unfold scanQueue
    split
    · simp [hcomm]
    · split <;> simp [hcomm]
  case steal f => exact ⟨by simp, by simp, quietPc_stealLoop f, hcomm⟩
  case stealScan f k => exact ⟨by simp, by simp, quietPc_stealScanQueue f k, hcomm⟩
  case stealDec inLoop => cases inLoop <;> simp [hcomm]
  case finished => cases σ.done <;> simp [hcomm]
  case stealActivate f =>
    cases (σ.shared i).tstate <;> simp [setActiveIfInactive, hcomm]
  case stealEnd inLoop =>
    cases (σ.shared i).tstate <;> cases inLoop <;> simp [setInactiveIfNoWork, hcomm]
  case deactivate => cases (σ.shared i).tstate <;> simp [setInactiveIfNoWork, hcomm]
  case activate => cases (σ.shared i).tstate <;> simp [setActiveIfInactive, hcomm]
  all_goals simp [hcomm]

/-- When nothing is left to do, nothing will ever be. -/
theorem Quiet.step (h : Quiet σ) (hstep : Sched.step σ i c = some σ') : Quiet σ' := by
  obtain ⟨op, l', hturn, rfl⟩ := step_eq_some hstep
  obtain ⟨hpush, hadd, hpc, hcomm⟩ := h.turn hturn
  refine ⟨fun b item hwork => ?_, fun j => ?_, fun j => ?_⟩
  · rcases hasWork_apply hwork with hold | ⟨k, rfl, -⟩ | ⟨rfl, -⟩
    · exact h.noWork b item hold
    · exact hpush b k rfl
    · exact hadd b rfl
  · by_cases hj : j = i
    · subst hj
      simpa only [Function.update_self] using hpc
    · simpa only [Function.update_of_ne hj] using h.pc j
  · by_cases hj : j = i
    · subst hj
      simpa only [Function.update_self] using hcomm
    · simpa only [Function.update_of_ne hj] using h.comm j

/-- `done` stays set. -/
theorem done_apply_of_done (op : Op n) (h : σ.done = true) : (σ.apply op).done = true := by
  cases op <;> simp [State.apply, State.modifyShared, h]

theorem done_apply {op : Op n} (h : (σ.apply op).done = true) (hdone : σ.done = false) :
    op = .isInactive ∧ σ.activeThreads = 1 := by
  cases op <;> simp [State.apply, State.modifyShared, hdone] at h
  exact ⟨rfl, by omega⟩

/-- When `is_inactive()` takes the counter to zero, no thread is active. -/
theorem Inv.noneActive (h : Inv σ) (hcareful : Careful σ i) (hstep : Sched.step σ i c = some σ')
    (hdone : σ.done = false) (hdone' : σ'.done = true) : NoneActive σ' := by
  have h' := h.step hcareful hstep
  obtain ⟨op, l', hturn, rfl⟩ := step_eq_some hstep
  have hok := turn_spec (h.localOk i) hcareful hturn
  obtain ⟨rfl, hone⟩ := done_apply hdone' hdone
  have hdec := hok.isInactive rfl
  have hinc := hcareful.1 hdec hone
  have hcount : (σ.apply .isInactive).activeThreads = _ := h'.count
  rw [activeThreads_apply, hone] at hcount
  -- both sums are of numbers that are not negative
  have hunit : ∀ j, 0 ≤ ((σ.apply .isInactive).shared j).tstate.unit := fun j => by
    rw [TState.unit]
    split <;> decide
  have hout : ∀ j, 0 ≤ outstanding (Function.update σ.loc i l' j).pc := by
    intro j
    by_cases hj : j = i
    · subst hj
      have hl : outstanding (σ.loc j).pc = 1 := by
        rw [outstanding, hdec, hinc j]
        rfl
      have hself : (-1 : ℤ) = outstanding l'.pc - outstanding (σ.loc j).pc + 0 := hok.count
      rw [Function.update_self]
      omega
    · rw [Function.update_of_ne hj, outstanding, hinc j]
      split <;> decide
  have hsum := Finset.sum_nonneg fun j (_ : j ∈ Finset.univ) => hunit j
  have hsum' := Finset.sum_nonneg fun j (_ : j ∈ Finset.univ) => hout j
  have hzero : ∑ j, ((σ.apply .isInactive).shared j).tstate.unit = 0 := by
    simp only [Op.delta] at hcount
    omega
  intro j
  have hj := (Finset.sum_eq_zero_iff_of_nonneg fun j _ => hunit j).1 hzero j (Finset.mem_univ j)
  rw [TState.unit] at hj
  by_contra hne
  rw [if_neg hne] at hj
  cases hj

/-- The invariant of careful runs, with what follows once `done` is set. -/
structure RunInv (σ : State n) : Prop where
  inv : Inv σ
  quiet : σ.done = true → Quiet σ
  exited : ∀ i, (σ.loc i).pc = .exited → σ.done = true

theorem runInv_initial (h : Initial σ) : RunInv σ := by
  refine ⟨inv_initial h, fun hdone => ?_, fun i hpc => ?_⟩
  · rw [h.done] at hdone
    cases hdone
  · rw [h.pc] at hpc
    cases hpc

theorem RunInv.step (h : RunInv σ) (hcareful : Careful σ i)
    (hstep : Sched.step σ i c = some σ') : RunInv σ' := by
  have hinv' := h.inv.step hcareful hstep
  refine ⟨hinv', fun hdone' => ?_, fun j hpc => ?_⟩
  · cases hdone : σ.done with
    | true => exact (h.quiet hdone).step hstep
    | false => exact hinv'.quiet (h.inv.noneActive hcareful hstep hdone hdone')
  · obtain ⟨op, l', hturn, rfl⟩ := step_eq_some hstep
    refine done_apply_of_done op ?_
    by_cases hj : j = i
    · subst hj
      simp only [Function.update_self] at hpc
      exact (turn_spec (h.inv.localOk j) hcareful hturn).exited hpc
    · simp only [Function.update_of_ne hj] at hpc
      exact h.exited j hpc

theorem RunInv.runCareful (sched : List (Fin n × Choice n)) (h : RunInv σ)
    (hrun : Sched.runCareful σ sched = some σ') : RunInv σ' := by
  induction sched generalizing σ with
  | nil =>
    obtain rfl := Option.some.inj hrun
    exact h
  | cons ic sched ih =>
    obtain ⟨i, c⟩ := ic
    rw [Sched.runCareful] at hrun
    by_cases hcareful : Careful σ i
    · rw [if_pos hcareful] at hrun
      obtain ⟨σ'', hstep, hrun⟩ := Option.bind_eq_some_iff.1 hrun
      exact ih (h.step hcareful hstep) hrun
    · rw [if_neg hcareful] at hrun
      cases hrun

/-- **The termination barrier is right in every careful run.**  `done` becomes true only in a state
in which no thread is active, has work or is about to push a node; once it is true there is never
work again; and no thread has left the loop before. -/
theorem doneSafely_of_careful (h₀ : Initial σ₀) (sched : List (Fin n × Choice n))
    (hrun : runCareful σ₀ sched = some σ) :
    (∀ i c σ', Careful σ i → Sched.step σ i c = some σ' → σ.done = false → σ'.done = true →
      NoneActive σ' ∧ NoWork σ') ∧
    (σ.done = true → NoWork σ) ∧ ∀ i, (σ.loc i).pc = .exited → NoWork σ := by
  have h := (runInv_initial h₀).runCareful sched hrun
  refine ⟨fun i c σ' hcareful hstep hdone hdone' => ?_, fun hdone => (h.quiet hdone).toNoWork,
    fun i hpc => (h.quiet (h.exited i hpc)).toNoWork⟩
  have hnone := h.inv.noneActive hcareful hstep hdone hdone'
  exact ⟨hnone, ((h.inv.step hcareful hstep).quiet hnone).toNoWork⟩

end Done

/-! ## A race, and a run without one -/

/-- A thread has four queues. -/
local instance neZeroQueues : NeZero 4 := ⟨by decide⟩

/-- Two threads, of which the first has one node. -/
def twoThreads : State 2 where
  shared := fun i => ⟨.active, fun k => if i = 0 ∧ k = 0 then 1 else 0, false⟩
  loc := fun _ => ⟨.pop .prios, fun _ => false, 0⟩
  activeThreads := 2
  done := false

theorem initial_twoThreads : Initial twoThreads :=
  ⟨fun _ => rfl, fun _ => rfl, fun _ _ => rfl, rfl, rfl⟩

/-- A thread without work goes from its first look at the queues to the compare-and-swap that makes
it inactive. -/
def goIdle (i : Fin 2) : List (Fin 2 × Choice 2) := List.replicate 14 (i, .go)

/-- The second thread goes inactive.  The first runs its node, which sends one to the second, and
makes the second active. -/
def sendOne : List (Fin 2 × Choice 2) :=
  goIdle 1 ++ [(1, .go), (1, .go), (0, .go), (0, .go), (0, .go), (0, .send 1 0), (0, .finish),
    (0, .finish)] ++ List.replicate 9 (0, .go)

/-- Before the first thread has counted it, the second runs the node and goes inactive again. -/
def race : List (Fin 2 × Choice 2) :=
  sendOne ++ [(1, .go), (1, .go), (1, .go), (1, .go), (1, .go), (1, .finish), (1, .finish)] ++
    goIdle 1

/-- **The second thread takes the counter to zero while the first is active**: its increment is
outstanding. -/
theorem race_not_doneSafely : ¬ DoneSafely twoThreads := by
  intro hsafe
  have hend : ((run twoThreads race).bind fun σ => (step σ 1 .go).map fun σ' =>
      (σ.done, σ'.done, (σ'.shared 0).tstate)) = some (false, true, .active) := by decide +kernel
  obtain ⟨σ, hrun, hmap⟩ := Option.bind_eq_some_iff.1 hend
  obtain ⟨σ', hstep, heq⟩ := Option.map_eq_some_iff.1 hmap
  simp only [Prod.mk.injEq] at heq
  obtain ⟨hdone, hdone', hactive⟩ := heq
  have hnone := (hsafe race σ 1 .go σ' hrun hstep hdone hdone').1 0
  rw [hactive] at hnone
  cases hnone

/-- The same with the first thread counting the second before that goes on, up to the end. -/
def noRace : List (Fin 2 × Choice 2) :=
  sendOne ++ [(0, .go), (1, .go), (1, .go), (1, .go), (1, .go), (1, .go), (1, .finish),
    (1, .finish)] ++ goIdle 1 ++ List.replicate 6 (0, .go) ++ [(0, .go), (1, .go), (1, .go)]

/-- In the run without a race nothing is left when the second thread sets `done`. -/
theorem noRace_noWork : ∃ σ, runCareful twoThreads noRace = some σ ∧ σ.done = true ∧ NoWork σ := by
  have hend : (runCareful twoThreads noRace).map State.done = some true := by decide +kernel
  obtain ⟨σ, hrun, hdone⟩ := Option.map_eq_some_iff.1 hend
  exact ⟨σ, hrun, hdone, (doneSafely_of_careful initial_twoThreads noRace hrun).2.1 hdone⟩


end Sched
end Meld
