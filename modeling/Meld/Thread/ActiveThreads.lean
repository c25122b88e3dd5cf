import Mathlib.Algebra.BigOperators.Ring.Finset
import Mathlib.Data.BitVec
import Mathlib.Tactic.Abel
import Meld.Lib.Drift
import Meld.Thread.Termination

/-!
# The count of active threads

The state of a thread is one byte, which any thread may change with a compare-and-swap.  The
termination barrier counts the threads whose state has the bit `THREAD_ACTIVE`: a function that has
changed this bit updates the counter next.  `set_force_inactive`, which is only called when the
program was stopped, takes a thread with new work to `THREAD_INACTIVE` and returns without an
update, although the thread was active.

Every access to the byte or to the counter is a step of its own.  Which function a thread calls, and
for which thread, is left open.

* `Call.attempt`: the four functions.
* `machine`: the steps.
* `Skips`: the step that forgets the counter.
* `lead_step`: what a step does to the counter and to what it counts.
* `active_threads_iff`: when the counter is right.
-/

namespace Meld
namespace TermBarrier

open Sched (TState)

/-! ## The functions -/

/-- The byte `tstate`. -/
def byte : TState → BitVec 8
  | .active => 1
  | .inactive => 2
  | .activeNew => 1 ||| 4

/-- `is_active`. -/
def isActive (s : TState) : Bool := byte s &&& 1 ≠ 0

/-- What is done to the counter after a successful compare-and-swap. -/
inductive Update where
  | none
  | isActive
  | isInactive
  deriving DecidableEq

/-- What a function does with the byte that it has read: it returns, or it tries to write another
one, updates the counter and returns.  The Boolean is the value that is returned. -/
inductive Attempt where
  | ret (newWork : Bool)
  | cas (new : TState) (update : Update) (newWork : Bool)
  deriving DecidableEq

/-- The functions on `tstate`. -/
inductive Call where
  | activateThread
  | setActiveIfInactive
  | setInactiveIfNoWork
  | setForceInactive
  deriving DecidableEq

/-- `activate_thread`, which returns nothing. -/
def activateThread : TState → Attempt
  | .inactive => .cas .activeNew .isActive false
  | .active => .cas .activeNew .none false
  | .activeNew => .ret false

/-- `set_active_if_inactive`. -/
def setActiveIfInactive : TState → Attempt
  | .inactive => .cas .active .isActive false
  | .active => .ret false
  | .activeNew => .cas .active .none true

/-- `set_inactive_if_no_work`. -/
def setInactiveIfNoWork : TState → Attempt
  | .inactive => .ret false
  | .active => .cas .inactive .isInactive false
  | .activeNew => .cas .active .none true

/-- `set_force_inactive`, which returns nothing. -/
def setForceInactive : TState → Attempt
  | .inactive => .ret false
  | .active => .cas .inactive .isInactive false
  | .activeNew => .cas .inactive .none false

def Call.attempt : Call → TState → Attempt
  | .activateThread => TermBarrier.activateThread
  | .setActiveIfInactive => TermBarrier.setActiveIfInactive
  | .setInactiveIfNoWork => TermBarrier.setInactiveIfNoWork
  | .setForceInactive => TermBarrier.setForceInactive

/-! ## The steps -/

/-- Where a thread is: outside of these functions, about to read the state of `target`, about to
compare it with what it has read, or about to update the counter. -/
inductive Pc (n : ℕ) where
  | out
  | read (f : Call) (target : Fin n)
  | cas (f : Call) (target : Fin n) (oldVal : TState)
  | isActive (newWork : Bool)
  | isInactive (newWork : Bool)
  deriving DecidableEq

/-- All threads, and the `termination_barrier`. -/
structure State (n : ℕ) where
  tstate : Fin n → TState
  pc : Fin n → Pc n
  activeThreads : BitVec 64
  done : Bool

/-- A thread calls a function, or it makes its next step. -/
inductive Event (n : ℕ) where
  | call (i : Fin n) (f : Call) (target : Fin n)
  | go (i : Fin n)

variable {n : ℕ}

namespace State

/-- The constructors of the barrier and of the threads. -/
def init (n : ℕ) : State n := ⟨fun _ => .active, fun _ => .out, BitVec.ofNat 64 n, false⟩

/-- Thread `i` goes on elsewhere. -/
def goto (s : State n) (i : Fin n) (pc : Pc n) : State n :=
  { s with pc := Function.update s.pc i pc }

/-- The end of a call, with the value that it returns. -/
def ret (s : State n) (i : Fin n) (newWork : Bool) : Option Bool × State n :=
  (some newWork, s.goto i .out)

/-- After a successful compare-and-swap. -/
def swapped (s : State n) (i target : Fin n) (new : TState) (update : Update) (newWork : Bool) :
    Option Bool × State n :=
  let s := { s with tstate := Function.update s.tstate target new }
  match update with
  | .none => s.ret i newWork
  | .isActive => (none, s.goto i (.isActive newWork))
  | .isInactive => (none, s.goto i (.isInactive newWork))

/-- `is_active` of the barrier. -/
def countActive (s : State n) : State n := { s with activeThreads := s.activeThreads + 1 }

/-- `is_inactive` of the barrier.  The assertion before the update does not end the run here. -/
def countInactive (s : State n) : State n :=
  { s with
    activeThreads := s.activeThreads - 1
    done := s.done || s.activeThreads - 1 = 0 }

end State

/-- One step, and the value that is returned if it ends a call. -/
def step (s : State n) : Event n → Option (Option Bool × State n)
  | .call i f target => if s.pc i = .out then some (none, s.goto i (.read f target)) else none
  | .go i =>
    match s.pc i with
    | .out => none
    | .read f target =>
      match f.attempt (s.tstate target) with
      | .ret newWork => some (s.ret i newWork)
      | .cas _ _ _ => some (none, s.goto i (.cas f target (s.tstate target)))
    | .cas f target oldVal =>
      match f.attempt oldVal with
      | .ret _ => none
      | .cas new update newWork =>
        if s.tstate target = oldVal then some (s.swapped i target new update newWork)
        else some (none, s.goto i (.read f target))
    | .isActive newWork => some (s.countActive.ret i newWork)
    | .isInactive newWork => some (s.countInactive.ret i newWork)

/-- The steps of `n` threads. -/
def machine (n : ℕ) : Machine (Event n) (Option Bool) (State n) := ⟨step⟩

/-- The number of threads whose state has the bit `THREAD_ACTIVE`. -/
def State.active (s : State n) : ℕ := (Finset.univ.filter fun i => isActive (s.tstate i)).card

/-- No thread is between its compare-and-swap and its update of the counter. -/
def Settled (s : State n) : Prop := ∀ i w, s.pc i ≠ .isActive w ∧ s.pc i ≠ .isInactive w

/-- **The step that forgets the counter**: `set_force_inactive` swaps
`THREAD_ACTIVE | THREAD_NEW_WORK` for `THREAD_INACTIVE`. -/
def Skips (s : State n) : Event n → Prop
  | .call _ _ _ => False
  | .go i => ∃ target, s.pc i = .cas .setForceInactive target .activeNew ∧
      s.tstate target = .activeNew

instance (s : State n) : DecidablePred (Skips s)
  | .call _ _ _ => inferInstanceAs (Decidable False)
  | .go _ => inferInstanceAs (Decidable (∃ _, _))

instance (s : State n) : Decidable (Settled s) :=
  inferInstanceAs (Decidable (∀ _ _, _ ∧ _))

/-- Such steps, as a summand. -/
def skips (s : State n) (e : Event n) : BitVec 64 := if Skips s e then 1 else 0

/-! ## What a step does to the counter -/

/-- What is still to be added to the counter at this point. -/
def Pc.outstanding : Pc n → BitVec 64
  | .isActive _ => 1
  | .isInactive _ => -1
  | _ => 0

/-- What a thread in this state counts for. -/
def unit (s : TState) : BitVec 64 := if isActive s then 1 else 0

/-- The counter and what will be added to it, over what it should be. -/
def State.lead (s : State n) : BitVec 64 :=
  s.activeThreads + ∑ i, (s.pc i).outstanding - ∑ i, unit (s.tstate i)

/-- What an update adds. -/
def Update.amount : Update → BitVec 64
  | .none => 0
  | .isActive => 1
  | .isInactive => -1

/-- **The functions**: all swaps but one come with the update for the bit that they change. -/
theorem unit_of_attempt {f : Call} {oldVal new : TState} {update : Update} {newWork : Bool}
    (h : f.attempt oldVal = .cas new update newWork) :
    update.amount - (unit new - unit oldVal) =
      if f = .setForceInactive ∧ oldVal = .activeNew then 1 else 0 := by
  cases f <;> cases oldVal <;> cases h <;> decide

section Steps

variable {s : State n} {i target : Fin n} {e : Event n} {r : Option Bool × State n}

theorem lead_goto (pc : Pc n) :
    (s.goto i pc).lead = s.lead + (pc.outstanding - (s.pc i).outstanding) := by
  simp only [State.lead, State.goto, sum_update Pc.outstanding s.pc (Finset.mem_univ i) pc]
  abel

theorem lead_swapped (new : TState) (update : Update) (newWork : Bool) :
    (s.swapped i target new update newWork).2.lead =
      s.lead + (update.amount - (s.pc i).outstanding - (unit new - unit (s.tstate target))) := by
  have hswap : State.lead { s with tstate := Function.update s.tstate target new } =
      s.lead - (unit new - unit (s.tstate target)) := by
    simp only [State.lead, sum_update unit s.tstate (Finset.mem_univ target) new]
    abel
  cases update <;>
    · simp only [State.swapped, State.ret, lead_goto, hswap, Pc.outstanding, Update.amount]
      abel

theorem State.pc_countActive : s.countActive.pc = s.pc := rfl

theorem State.pc_countInactive : s.countInactive.pc = s.pc := rfl

theorem lead_countActive : s.countActive.lead = s.lead + 1 := by
  simp only [State.lead, State.countActive]
  abel

theorem lead_countInactive : s.countInactive.lead = s.lead - 1 := by
  simp only [State.lead, State.countInactive]
  abel

/-- **One step** leaves the lead of the counter as it is, but for the step that forgets it. -/
theorem lead_step (h : step s e = some r) : r.2.lead = s.lead + skips s e := by
  cases e with
  | call i f target =>
    rw [step] at h
    split at h
    · next hout =>
      obtain rfl := Option.some.inj h
      rw [lead_goto, hout, skips, if_neg (show ¬ Skips s (.call i f target) from id)]
      simp only [Pc.outstanding, sub_zero]
    · exact absurd h nofun
  | go i =>
    have hskips : ∀ pc, s.pc i = pc → (∀ target, pc ≠ .cas .setForceInactive target .activeNew) →
        skips s (.go i) = 0 := by
      rintro pc rfl hne
      exact if_neg fun ⟨target, hpc, _⟩ => hne target hpc
    cases hpc : s.pc i with
    | out =>
      simp only [step, hpc] at h
      exact absurd h nofun
    | read f target =>
      rw [hskips _ hpc nofun]
      simp only [step, hpc] at h
      split at h
      all_goals
        obtain rfl := Option.some.inj h
        simp only [State.ret, lead_goto, hpc, Pc.outstanding, sub_zero]
    | cas f target oldVal =>
      simp only [step, hpc] at h
      split at h
      · exact absurd h nofun
      next new update newWork hattempt =>
      split at h
      · next hold =>
        obtain rfl := Option.some.inj h
        rw [lead_swapped, hpc, hold]
        simp only [Pc.outstanding, sub_zero, unit_of_attempt hattempt]
        congr 1
        refine if_congr ?_ rfl rfl
        constructor
        · rintro ⟨rfl, rfl⟩
          exact ⟨target, hpc, hold⟩
        · rintro ⟨target', hpc', -⟩
          obtain ⟨rfl, -, rfl⟩ := Pc.cas.inj (hpc.symm.trans hpc')
          exact ⟨rfl, rfl⟩
      · next hold =>
        obtain rfl := Option.some.inj h
        have hzero : skips s (.go i) = 0 := by
          refine if_neg fun ⟨target', hpc', hnew⟩ => hold ?_
          obtain ⟨-, rfl, rfl⟩ := Pc.cas.inj (hpc.symm.trans hpc')
          exact hnew
        rw [lead_goto, hpc, hzero]
        simp only [Pc.outstanding, sub_zero]
    | isActive newWork =>
      rw [hskips _ hpc nofun]
      simp only [step, hpc] at h
      obtain rfl := Option.some.inj h
      simp only [State.ret, lead_goto, lead_countActive, State.pc_countActive, hpc, Pc.outstanding]
      abel
    | isInactive newWork =>
      rw [hskips _ hpc nofun]
      simp only [step, hpc] at h
      obtain rfl := Option.some.inj h
      simp only [State.ret, lead_goto, lead_countInactive, State.pc_countInactive, hpc,
        Pc.outstanding]
      abel

end Steps

/-! ## Runs -/

theorem sum_unit (s : State n) : ∑ i, unit (s.tstate i) = BitVec.ofNat 64 s.active := by
  simp only [unit, State.active, Finset.sum_boole]
  exact BitVec.natCast_eq_ofNat _ _

theorem State.active_le (s : State n) : s.active ≤ n :=
  (Finset.card_filter_le _ _).trans (Finset.card_fin n).le

theorem State.active_init (n : ℕ) : (State.init n).active = n := by
  simp [State.active, State.init, isActive, byte]

theorem State.lead_init (n : ℕ) : (State.init n).lead = 0 := by
  rw [State.lead, sum_unit, active_init]
  simp [State.init, Pc.outstanding]

theorem skips_eq_zero (s : State n) (e : Event n) : skips s e = 0 ↔ ¬ Skips s e := by
  rw [skips]
  split
  · next h => exact iff_of_false (by decide) (not_not_intro h)
  · next h => exact iff_of_true rfl h

/-- Nothing is still to be added in a settled state. -/
theorem Settled.lead_eq_zero {s : State n} (h : Settled s) (hn : n < 2 ^ 64) :
    s.lead = 0 ↔ s.activeThreads.toNat = s.active := by
  have hout : ∀ i, (s.pc i).outstanding = 0 := by
    intro i
    cases hpc : s.pc i with
    | isActive w => exact absurd hpc (h i w).1
    | isInactive w => exact absurd hpc (h i w).2
    | _ => rfl
  have hactive : (BitVec.ofNat 64 s.active).toNat = s.active := by
    rw [BitVec.toNat_ofNat, Nat.mod_eq_of_lt (s.active_le.trans_lt hn)]
  rw [State.lead, Finset.sum_eq_zero fun i _ => hout i, add_zero, sub_eq_zero, sum_unit,
    ← BitVec.toNat_inj, hactive]

/-- **The counter of active threads** is the number of active threads in a settled state exactly if
the steps that forget it add up to nothing, which they do if there are none. -/
theorem active_threads_iff (hn : n < 2 ^ 64) (events : List (Event n))
    {r : List (Option Bool) × State n} (hrun : (machine n).run (State.init n) events = some r)
    (hsettled : Settled r.2) :
    (r.2.activeThreads.toNat = r.2.active ↔
      (machine n).drifted skips (State.init n) events = 0) ∧
    ((machine n).Along (fun s e => ¬ Skips s e) (State.init n) events →
      r.2.activeThreads.toNat = r.2.active) := by
  have hall : r.2.lead = (State.init n).lead + (machine n).drifted skips (State.init n) events :=
    Machine.quantity_run (fun _ _ _ (_ : True) _ => trivial) (fun _ _ _ _ h => lead_step h)
      trivial hrun
  have hlead : r.2.lead = (machine n).drifted skips (State.init n) events := by
    rw [hall, State.lead_init, zero_add]
  have hiff := hsettled.lead_eq_zero hn
  rw [hlead] at hiff
  refine ⟨hiff.symm, fun hall => hiff.1 (Machine.Along.drifted_eq_zero ?_)⟩
  exact (Machine.along_congr fun s e => (skips_eq_zero s e).symm).1 hall

/-- Thread `i` gives new work to thread `j`. -/
def newWork (i j : Fin n) : List (Event n) := [.call i .activateThread j, .go i, .go i]

/-- Thread 0 has a look for new work, and has none the next time. -/
theorem active_threads_newWork :
    ∃ r, (machine 2).run (State.init 2)
        (newWork 1 0 ++ [.call 0 .setInactiveIfNoWork 0, .go 0, .go 0,
          .call 0 .setForceInactive 0, .go 0, .go 0, .go 0]) = some r ∧
      r.2.activeThreads.toNat = r.2.active := by
  obtain ⟨r, hr, hsettled⟩ := Option.map_eq_some_iff.1 (show
    ((machine 2).run (State.init 2)
      (newWork 1 0 ++ [.call 0 .setInactiveIfNoWork 0, .go 0, .go 0,
        .call 0 .setForceInactive 0, .go 0, .go 0, .go 0])).map
      (fun r => decide (Settled r.2)) = some true by decide)
  exact ⟨r, hr, (active_threads_iff (by decide) _ hr (of_decide_eq_true hsettled)).1.2 (by decide)⟩

/-- If the program is stopped before it does, nobody tells the barrier. -/
theorem not_forall_active_threads :
    ¬ ∀ (n : ℕ) (events : List (Event n)) (r : List (Option Bool) × State n), n < 2 ^ 64 →
      (machine n).run (State.init n) events = some r → Settled r.2 →
      r.2.activeThreads.toNat = r.2.active := by
  intro hall
  obtain ⟨r, hr, heq⟩ := Option.map_eq_some_iff.1 (show
    ((machine 2).run (State.init 2)
      (newWork 1 0 ++ [.call 0 .setForceInactive 0, .go 0, .go 0])).map
      (fun r => (decide (Settled r.2), r.2.activeThreads.toNat, r.2.active)) =
        some (true, 2, 1) by decide)
  have hsettled : Settled r.2 := of_decide_eq_true (congrArg Prod.fst heq)
  have hcount : r.2.activeThreads.toNat = 2 := congrArg (fun p => p.2.1) heq
  have hactive : r.2.active = 1 := congrArg (fun p => p.2.2) heq
  have := hall 2 _ r (by decide) hr hsettled
  omega

end TermBarrier
end Meld
