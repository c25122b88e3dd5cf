import Mathlib.Data.Option.Basic
import Mathlib.Data.List.Basic

/-!
# Two machines that agree

A machine takes calls, and a call gives a result and the next state or fails.  Two machines, one of
them with states that are an abstraction of those of the other, agree on a sequence of calls if
after every part of it both have given the same results and the states correspond.

* `Machine.run`: a sequence of calls.
* `Machine.Along`: a condition that every call meets in the state it is made in.
* `Machine.Agrees`: two machines agree on a sequence.
* `Machine.agrees_iff`: they do exactly if every call meets the condition for one call.
* `Machine.Along.invariant`: what such calls keep.
* `Machine.Follows`, `Machine.follows_iff`: the same for states that correspond by a relation.
-/

namespace Meld

/-- A machine with the calls `Op`, the results `Out` and the states `σ`. -/
structure Machine (Op Out σ : Type*) where
  step : σ → Op → Option (Out × σ)

namespace Machine

variable {Op Out σ τ : Type*}

/-- The results of a sequence of calls, and the state behind it. -/
def run (M : Machine Op Out σ) : σ → List Op → Option (List Out × σ)
  | s, [] => some ([], s)
  | s, op :: ops => (M.step s op).bind fun r => (M.run r.2 ops).map fun rs => (r.1 :: rs.1, rs.2)

/-- Each call of the sequence meets `P` in the state it is made in. -/
def Along (M : Machine Op Out σ) (P : σ → Op → Prop) : σ → List Op → Prop
  | _, [] => True
  | s, op :: ops => P s op ∧ ∀ r, M.step s op = some r → M.Along P r.2 ops

/-- After every part of the sequence, the results and the state are those of the abstract
machine. -/
def Agrees (M : Machine Op Out σ) (N : Machine Op Out τ) (abs : σ → τ) (s : σ) (ops : List Op) :
    Prop :=
  ∀ k, (M.run s (ops.take k)).map (Prod.map id abs) = N.run (abs s) (ops.take k)

variable {M : Machine Op Out σ} {N : Machine Op Out τ} {abs : σ → τ} {P : σ → Op → Prop}
  {ok : σ → Prop} {s : σ} {op : Op} {ops : List Op}

theorem run_singleton (M : Machine Op Out σ) (s : σ) (op : Op) :
    M.run s [op] = (M.step s op).map fun r => ([r.1], r.2) := by
  rw [Option.map_eq_bind]
  rfl

theorem run_cons {r : Out × σ} (h : M.step s op = some r) (ops : List Op) :
    M.run s (op :: ops) = (M.run r.2 ops).map fun rs => (r.1 :: rs.1, rs.2) := by
  rw [run, h, Option.bind_some]

theorem run_cons_none (h : M.step s op = none) (ops : List Op) : M.run s (op :: ops) = none := by
  rw [run, h, Option.bind_none]

/-- A machine none of whose calls fails. -/
theorem run_isSome (hstep : ∀ s op, (M.step s op).isSome) (s : σ) (ops : List Op) :
    (M.run s ops).isSome := by
  induction ops generalizing s with
  | nil => rfl
  | cons op ops ih =>
    obtain ⟨r, hr⟩ := Option.isSome_iff_exists.mp (hstep s op)
    rw [run_cons hr, Option.isSome_map]
    exact ih r.2

theorem along_cons {r : Out × σ} (h : M.step s op = some r) :
    M.Along P s (op :: ops) ↔ P s op ∧ M.Along P r.2 ops := by
  rw [Along, h]
  exact and_congr_right' ⟨fun hall => hall r rfl, fun hall _ hr => Option.some.inj hr ▸ hall⟩

theorem along_congr {Q : σ → Op → Prop} (h : ∀ s op, P s op ↔ Q s op) :
    M.Along P s ops ↔ M.Along Q s ops := by
  induction ops generalizing s with
  | nil => exact Iff.rfl
  | cons op ops ih => exact and_congr (h s op) (forall₂_congr fun r _ => ih)

/-- Agreement on the first call. -/
theorem Agrees.step (h : Agrees M N abs s (op :: ops)) :
    (M.step s op).map (Prod.map id abs) = N.step (abs s) op := by
  have hone := h 1
  rw [List.take_succ_cons, List.take_zero, run_singleton, run_singleton, Option.map_map] at hone
  have hinj : Function.Injective fun r : Out × τ => ([r.1], r.2) := fun p q hpq =>
    Prod.ext (List.singleton_injective (Prod.mk.inj hpq).1) (Prod.mk.inj hpq).2
  refine Option.map_injective hinj ?_
  rw [Option.map_map]
  exact hone

/-- Agreement on the calls behind the first one. -/
theorem agrees_cons {r : Out × σ} (h : M.step s op = some r)
    (hspec : N.step (abs s) op = some (r.1, abs r.2)) :
    Agrees M N abs s (op :: ops) ↔ Agrees M N abs r.2 ops := by
  have hinj : Function.Injective fun rs : List Out × τ => (r.1 :: rs.1, rs.2) := fun p q hpq =>
    Prod.ext (List.tail_eq_of_cons_eq (Prod.mk.inj hpq).1) (Prod.mk.inj hpq).2
  have hiff : ∀ k, (M.run s ((op :: ops).take (k + 1))).map (Prod.map id abs) =
      N.run (abs s) ((op :: ops).take (k + 1)) ↔
      (M.run r.2 (ops.take k)).map (Prod.map id abs) = N.run (abs r.2) (ops.take k) := by
    intro k
    have heq := (Option.map_injective hinj).eq_iff
      (a := (M.run r.2 (ops.take k)).map (Prod.map id abs)) (b := N.run (abs r.2) (ops.take k))
    rw [← heq, List.take_succ_cons, run_cons h, run_cons hspec, Option.map_map, Option.map_map]
    exact Iff.rfl
  constructor
  · exact fun hall k => (hiff k).1 (hall (k + 1))
  · intro hall k
    cases k with
    | zero => rfl
    | succ k => exact (hiff k).2 (hall k)

/-- **Agreement**: if one call agrees exactly under the condition `P`, and such calls keep the
invariant `ok`, a sequence agrees exactly if each of its calls meets `P`. -/
theorem agrees_iff
    (hstep : ∀ s op, ok s →
      ((M.step s op).map (Prod.map id abs) = N.step (abs s) op ↔ P s op))
    (hok : ∀ s op r, ok s → P s op → M.step s op = some r → ok r.2)
    (s : σ) (hs : ok s) (ops : List Op) : Agrees M N abs s ops ↔ M.Along P s ops := by
  induction ops generalizing s with
  | nil => exact iff_of_true (fun k => by rw [List.take_nil]; rfl) trivial
  | cons op ops ih =>
    by_cases hP : P s op
    · have hagree := (hstep s op hs).2 hP
      cases hr : M.step s op with
      | none =>
        rw [hr] at hagree
        refine iff_of_true (fun k => ?_) ⟨hP, fun r hr' => absurd (hr.symm.trans hr') nofun⟩
        cases k with
        | zero => rfl
        | succ k => rw [List.take_succ_cons, run_cons_none hr, run_cons_none hagree.symm]; rfl
      | some r =>
        rw [hr] at hagree
        rw [agrees_cons hr hagree.symm, along_cons hr, ih r.2 (hok s op r hs hP hr)]
        exact (and_iff_right hP).symm
    · exact iff_of_false (fun h => hP ((hstep s op hs).1 h.step)) fun h => hP h.1

/-- **The invariant** after every part of a sequence whose calls meet `P`. -/
theorem Along.invariant (hok : ∀ s op r, ok s → P s op → M.step s op = some r → ok r.2) {s : σ}
    (hs : ok s) {ops : List Op} (h : M.Along P s ops) {k : ℕ} {rs : List Out × σ}
    (hrun : M.run s (ops.take k) = some rs) : ok rs.2 := by
  induction ops generalizing s k rs with
  | nil =>
    rw [List.take_nil] at hrun
    exact Option.some.inj hrun ▸ hs
  | cons op ops ih =>
    cases k with
    | zero => exact Option.some.inj hrun ▸ hs
    | succ k =>
      obtain ⟨r, hr, hrest⟩ := Option.bind_eq_some_iff.1 hrun
      obtain ⟨rs', hrs', rfl⟩ := Option.map_eq_some_iff.1 hrest
      show ok rs'.2
      exact ih (hok s op r hs h.1 hr) (h.2 r hr) hrs'

/-! ## States that are related -/

/-- The results and the states of two calls, or two sequences of calls, correspond. -/
def Matches {Res : Type*} (R : σ → τ → Prop) (o : Option (Res × σ)) (o' : Option (Res × τ)) :
    Prop :=
  Option.Rel (fun r r' => r.1 = r'.1 ∧ R r.2 r'.2) o o'

/-- After every part of the sequence, both machines have given the same results and their states
correspond. -/
def Follows (M : Machine Op Out σ) (N : Machine Op Out τ) (R : σ → τ → Prop) (s : σ) (t : τ)
    (ops : List Op) : Prop :=
  ∀ k, Matches R (M.run s (ops.take k)) (N.run t (ops.take k))

section Related

variable {R : σ → τ → Prop} {t : τ} {Legal Q : τ → Op → Prop}

theorem Follows.step (h : Follows M N R s t (op :: ops)) :
    Matches R (M.step s op) (N.step t op) := by
  have hone := h 1
  rw [List.take_succ_cons, List.take_zero, run_singleton, run_singleton] at hone
  cases hM : M.step s op <;> cases hN : N.step t op <;> rw [hM, hN] at hone
  · exact Option.Rel.none
  · exact absurd hone nofun
  · exact absurd hone nofun
  · obtain ⟨heq, hR⟩ : _ ∧ _ := by
      cases hone with
      | some h => exact h
    exact Option.Rel.some ⟨List.singleton_injective heq, hR⟩

theorem follows_cons {r : Out × σ} {r' : Out × τ} (h : M.step s op = some r)
    (h' : N.step t op = some r') (hout : r.1 = r'.1) (hR : R s t) :
    Follows M N R s t (op :: ops) ↔ Follows M N R r.2 r'.2 ops := by
  have hiff : ∀ k, Matches R (M.run s ((op :: ops).take (k + 1)))
      (N.run t ((op :: ops).take (k + 1))) ↔
      Matches R (M.run r.2 (ops.take k)) (N.run r'.2 (ops.take k)) := by
    intro k
    rw [List.take_succ_cons, run_cons h, run_cons h', hout]
    cases M.run r.2 (ops.take k) <;> cases N.run r'.2 (ops.take k)
    · exact iff_of_true Option.Rel.none Option.Rel.none
    · exact iff_of_false nofun nofun
    · exact iff_of_false nofun nofun
    · constructor
      · rintro (hr | _)
        exact Option.Rel.some ⟨List.tail_eq_of_cons_eq hr.1, hr.2⟩
      · rintro (hr | _)
        exact Option.Rel.some ⟨congrArg _ hr.1, hr.2⟩
  constructor
  · exact fun hall k => (hiff k).1 (hall (k + 1))
  · intro hall k
    cases k with
    | zero => exact Option.Rel.some ⟨rfl, hR⟩
    | succ k => exact (hiff k).2 (hall k)

/-- **A machine that follows another one**: if it does so in one legal call exactly under the
condition `Q`, it does in a sequence of legal calls exactly if each of them meets `Q`. -/
theorem follows_iff
    (hstep : ∀ s t op, R s t → Legal t op →
      (Matches R (M.step s op) (N.step t op) ↔ Q t op))
    (hR : R s t) (hlegal : N.Along Legal t ops) :
    Follows M N R s t ops ↔ N.Along Q t ops := by
  induction ops generalizing s t with
  | nil =>
    refine iff_of_true (fun k => ?_) trivial
    rw [List.take_nil]
    exact Option.Rel.some ⟨rfl, hR⟩
  | cons op ops ih =>
    have hone := hstep s t op hR hlegal.1
    by_cases hQ : Q t op
    · have hmatch := hone.2 hQ
      cases hM : M.step s op <;> cases hN : N.step t op <;> rw [hM, hN] at hmatch
      · refine iff_of_true (fun k => ?_) ⟨hQ, fun r hr => absurd (hN.symm.trans hr) nofun⟩
        cases k with
        | zero => exact Option.Rel.some ⟨rfl, hR⟩
        | succ k =>
          rw [List.take_succ_cons, run_cons_none hM, run_cons_none hN]
          exact Option.Rel.none
      · exact absurd hmatch nofun
      · exact absurd hmatch nofun
      · obtain ⟨hout, hR'⟩ : _ ∧ _ := by
          cases hmatch with
          | some h => exact h
        rw [follows_cons hM hN hout hR, along_cons hN, ih hR' (hlegal.2 _ hN)]
        exact (and_iff_right hQ).symm
    · exact iff_of_false (fun h => hQ (hone.1 h.step)) fun h => hQ h.1

end Related

end Machine
end Meld
