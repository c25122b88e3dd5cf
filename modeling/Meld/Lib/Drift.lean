import Mathlib.Algebra.BigOperators.Group.Finset.Piecewise
import Meld.Lib.Agree

/-!
# What changes along a run

A counter that is kept step by step is right as long as every step that changes what it counts
changes the counter too.  The difference of the two is a quantity that should stay as it is, and a
step that forgets one of them makes it drift.

* `Machine.Always`: a property of every state of a run.
* `Machine.always_of_step`: it holds if every call keeps it.
* `Machine.always_iff`: it holds exactly if every call that is made keeps it.
* `Machine.drifted`: what the calls of a sequence add to a quantity.
* `Machine.quantity_run`: the quantity at the end of a run.
* `sum_update`: a sum of which one term changes.
-/

namespace Meld

namespace Machine

variable {Op Out σ A : Type*}

/-- The property holds at the start and after every part of the sequence. -/
def Always (M : Machine Op Out σ) (good : σ → Prop) (s : σ) (ops : List Op) : Prop :=
  ∀ k r, M.run s (ops.take k) = some r → good r.2

/-- What the calls of a sequence add to a quantity. -/
def drifted [AddMonoid A] (M : Machine Op Out σ) (drift : σ → Op → A) : σ → List Op → A
  | _, [] => 0
  | s, op :: ops =>
    drift s op + ((M.step s op).map fun r => M.drifted drift r.2 ops).getD 0

/-- A condition on every call of a sequence can be tested. -/
instance decidableAlong (M : Machine Op Out σ) (P : σ → Op → Prop) [∀ s op, Decidable (P s op)] :
    ∀ s ops, Decidable (M.Along P s ops)
  | _, [] => inferInstanceAs (Decidable True)
  | s, op :: ops =>
    match h : M.step s op with
    | none =>
      decidable_of_iff (P s op)
        ⟨fun hP => ⟨hP, fun _ hr => absurd (h.symm.trans hr) nofun⟩, And.left⟩
    | some r =>
      haveI := decidableAlong M P r.2 ops
      decidable_of_iff (P s op ∧ M.Along P r.2 ops) (along_cons h).symm

variable {M : Machine Op Out σ} {ok good : σ → Prop} {P : σ → Op → Prop} {s : σ} {op : Op}
  {ops : List Op}

theorem Always.start (h : M.Always good s ops) : good s :=
  h 0 ([], s) rfl

theorem always_cons {r : Out × σ} (h : M.step s op = some r) :
    M.Always good s (op :: ops) ↔ good s ∧ M.Always good r.2 ops := by
  constructor
  · refine fun hall => ⟨hall.start, fun k q hq => ?_⟩
    refine hall (k + 1) (r.1 :: q.1, q.2) ?_
    rw [List.take_succ_cons, run_cons h, hq, Option.map_some]
  · rintro ⟨hs, hall⟩ k q hq
    cases k with
    | zero => exact Option.some.inj hq ▸ hs
    | succ k =>
      rw [List.take_succ_cons, run_cons h] at hq
      obtain ⟨q', hq', rfl⟩ := Option.map_eq_some_iff.1 hq
      exact hall k q' hq'

theorem always_cons_none (h : M.step s op = none) :
    M.Always good s (op :: ops) ↔ good s := by
  refine ⟨Always.start, fun hs k q hq => ?_⟩
  cases k with
  | zero => exact Option.some.inj hq ▸ hs
  | succ k =>
    rw [List.take_succ_cons, run_cons_none h] at hq
    exact absurd hq nofun

/-- **A property of every state**: if a call leads from a good state to a good one exactly under the
condition `P`, all states of a run are good exactly if every call that is made meets `P`. -/
theorem always_iff (hok : ∀ s op r, ok s → M.step s op = some r → ok r.2)
    (hstep : ∀ s op r, ok s → good s → M.step s op = some r → (good r.2 ↔ P s op))
    (hs : ok s) (hgood : good s) :
    M.Always good s ops ↔ M.Along (fun s op => M.step s op ≠ none → P s op) s ops := by
  induction ops generalizing s with
  | nil =>
    refine iff_of_true (fun k q hq => ?_) trivial
    rw [List.take_nil] at hq
    exact Option.some.inj hq ▸ hgood
  | cons op ops ih =>
    cases hr : M.step s op with
    | none =>
      rw [always_cons_none hr]
      exact iff_of_true hgood
        ⟨fun hne => absurd hr hne, fun r hr' => absurd (hr.symm.trans hr') nofun⟩
    | some r =>
      have hiff := hstep s op r hs hgood hr
      have hmade : (M.step s op ≠ none → P s op) ↔ P s op := by
        rw [hr]
        exact ⟨fun h => h nofun, fun h _ => h⟩
      rw [always_cons hr, along_cons hr, hmade, and_iff_right hgood, ← hiff]
      constructor
      · exact fun hall => ⟨hall.start, (ih (hok s op r hs hr) hall.start).1 hall⟩
      · exact fun h => (ih (hok s op r hs hr) h.1).2 h.2

/-- What every call keeps holds in every state. -/
theorem always_of_step (hstep : ∀ s op r, good s → M.step s op = some r → good r.2)
    (hs : good s) : M.Always good s ops := by
  induction ops generalizing s with
  | nil =>
    intro k q hq
    rw [List.take_nil] at hq
    exact Option.some.inj hq ▸ hs
  | cons op ops ih =>
    cases hr : M.step s op with
    | none => exact (always_cons_none hr).2 hs
    | some r => exact (always_cons hr).2 ⟨hs, ih (hstep s op r hs hr)⟩

section Drift

variable [AddCommGroup A] {quantity : σ → A} {drift : σ → Op → A}

/-- **The quantity at the end of a run.** -/
theorem quantity_run (hok : ∀ s op r, ok s → M.step s op = some r → ok r.2)
    (hstep : ∀ s op r, ok s → M.step s op = some r → quantity r.2 = quantity s + drift s op)
    (hs : ok s) {q : List Out × σ} (h : M.run s ops = some q) :
    quantity q.2 = quantity s + M.drifted drift s ops := by
  induction ops generalizing s q with
  | nil =>
    obtain rfl := Option.some.inj h
    rw [drifted, add_zero]
  | cons op ops ih =>
    obtain ⟨r, hr, hrest⟩ := Option.bind_eq_some_iff.1 h
    obtain ⟨q', hq', rfl⟩ := Option.map_eq_some_iff.1 hrest
    rw [drifted, hr, Option.map_some, Option.getD_some, ← add_assoc, ← hstep s op r hs hr]
    show quantity q'.2 = _
    exact ih (hok s op r hs hr) hq'

/-- Calls that do not make the quantity drift. -/
theorem Along.drifted_eq_zero (h : M.Along (fun s op => drift s op = 0) s ops) :
    M.drifted drift s ops = 0 := by
  induction ops generalizing s with
  | nil => rfl
  | cons op ops ih =>
    rw [drifted, h.1, zero_add]
    cases hr : M.step s op with
    | none => rfl
    | some r => exact ih (h.2 r hr)

end Drift

end Machine

/-- A sum of which one term changes. -/
theorem sum_update {ι β A : Type*} [DecidableEq ι] [AddCommGroup A] {t : Finset ι} (w : β → A)
    (g : ι → β) {i : ι} (hi : i ∈ t) (v : β) :
    ∑ j ∈ t, w (Function.update g i v j) = ∑ j ∈ t, w (g j) + (w v - w (g i)) := by
  have h : ∀ j, w (Function.update g i v j) = w (g j) + if j = i then w v - w (g i) else 0 := by
    intro j
    by_cases hj : j = i
    · subst hj
      simp
    · simp [hj]
  simp only [h, Finset.sum_add_distrib, Finset.sum_ite_eq', hi, if_true]

end Meld
