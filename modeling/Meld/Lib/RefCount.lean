import Mathlib.Algebra.BigOperators.Group.Finset.Basic
import Mathlib.Algebra.Order.BigOperators.Group.Finset
import Mathlib.Data.Finset.Card
import Mathlib.Data.Finset.Max
import Mathlib.Logic.Function.Basic

/-!
# Reference counts

Objects that do not change refer to each other; every object has a count of the references to it.
Giving the last reference to an object back frees it, and then the references it holds are given
back too.  Some objects are kept when their count becomes zero.

What is not an object holds references as well; how many on each object is a function `ext`.  The
counts are right if each is the number of these references and of those from objects.

* `take`, `giveBack`: one reference more, one less.
* `Accounted`: the counts are right, and nothing that is referred to was freed.
* `Accounted.take`, `Accounted.giveBack`: both operations are defined on right counts and keep them
  right.
* `Anchored`: the object is not freed, whatever else is given back.
* `Accounted.eq_of_pos`: once only the references of the beginning are left, nothing has changed.
-/

namespace Meld
namespace RefCount

variable {ι : Type*} [DecidableEq ι]

/-- The objects that are not freed, and their counts. -/
structure Counts (ι : Type*) where
  live : Finset ι
  refs : ι → ℕ

variable (refersTo : ι → List ι) (kept : ι → Bool)

/-- One reference more. -/
def take (p : ι) (s : Counts ι) : Option (Counts ι) :=
  if p ∈ s.live then some { s with refs := Function.update s.refs p (s.refs p + 1) } else none

/-- One reference less.  The object is freed before the references it holds are given back: nothing
finds it there in the meantime, since its count is zero. -/
def giveBackFuel : ℕ → ι → Counts ι → Option (Counts ι)
  | 0, _, _ => none
  | fuel + 1, p, s =>
    if p ∉ s.live ∨ s.refs p = 0 then none
    else if s.refs p = 1 ∧ kept p = false then
      (refersTo p).foldlM (fun s q => giveBackFuel fuel q s)
        { live := s.live.erase p, refs := Function.update s.refs p 0 }
    else some { s with refs := Function.update s.refs p (s.refs p - 1) }

/-- One reference less, where each object can be freed once. -/
def giveBack (p : ι) (s : Counts ι) : Option (Counts ι) :=
  giveBackFuel refersTo kept (s.live.card + 1) p s

/-- The references from objects. -/
def inner (s : Counts ι) (p : ι) : ℕ := ∑ q ∈ s.live, (refersTo q).count p

/-- The counts are right, and what is referred to is live. -/
structure Accounted (ext : ι → ℕ) (s : Counts ι) : Prop where
  refs : ∀ p ∈ s.live, s.refs p = ext p + inner refersTo s p
  live : ∀ p, 0 < ext p + inner refersTo s p → p ∈ s.live

/-- The object stays while the references `ext` do: one of these leads to it, or a new object that
nothing has referred to yet. -/
inductive Anchored (ext : ι → ℕ) (s : Counts ι) : ι → Prop where
  | ext {p : ι} (hp : 0 < ext p) : Anchored ext s p
  | fresh {p : ι} (hp : p ∈ s.live) (h0 : s.refs p = 0) : Anchored ext s p
  | refersTo {p q : ι} (hq : Anchored ext s q) (hp : p ∈ refersTo q) : Anchored ext s p

variable {refersTo} {ext : ι → ℕ} {s s' : Counts ι} {p : ι}

/-- The references of a list beside others. -/
def withRefs (ext : ι → ℕ) (ps : List ι) (p : ι) : ℕ := ext p + ps.count p

@[simp] theorem withRefs_nil : withRefs ext [] = ext := by
  ext p
  rw [withRefs, List.count_nil, Nat.add_zero]

theorem withRefs_cons (q : ι) (ps : List ι) :
    withRefs ext (q :: ps) = withRefs (withRefs ext ps) [q] := by
  ext p
  rw [withRefs, withRefs, withRefs, List.count_cons, List.count_singleton, Nat.add_assoc]

theorem withRefs_append (ps qs : List ι) :
    withRefs ext (ps ++ qs) = withRefs (withRefs ext qs) ps := by
  ext p
  rw [withRefs, withRefs, withRefs, List.count_append]
  omega

theorem withRefs_perm {ps qs : List ι} (h : ps.Perm qs) : withRefs ext ps = withRefs ext qs := by
  ext p
  rw [withRefs, withRefs, h.count_eq]

theorem withRefs_self (p : ι) : withRefs ext [p] p = ext p + 1 := by
  rw [withRefs, List.count_singleton_self]

theorem withRefs_of_ne {q : ι} (h : p ≠ q) : withRefs ext [q] p = ext p := by
  rw [withRefs, List.count_singleton, if_neg, Nat.add_zero]
  simpa using fun hqp => h hqp.symm

/-- What is referred to from outside is live. -/
theorem Accounted.mem_live (h : Accounted refersTo ext s) (hp : 0 < ext p) : p ∈ s.live :=
  h.live p (Nat.lt_of_lt_of_le hp (Nat.le_add_right _ _))

theorem Accounted.mem_live_of_mem {ps : List ι} (h : Accounted refersTo (withRefs ext ps) s)
    (hp : p ∈ ps) : p ∈ s.live := by
  have hpos : 0 < ps.count p := List.count_pos_iff.2 hp
  refine h.mem_live ?_
  rw [withRefs]
  omega

/-- References that nothing holds make the counts wrong. -/
theorem Accounted.eq_nil {ps : List ι} (h : Accounted refersTo ext s)
    (h' : Accounted refersTo (withRefs ext ps) s) : ps = [] := by
  refine List.eq_nil_iff_forall_not_mem.2 fun p hp => ?_
  have hlive : p ∈ s.live := h'.mem_live_of_mem hp
  have hcount : 0 < ps.count p := List.count_pos_iff.2 hp
  have hrefs := (h.refs p hlive).symm.trans (h'.refs p hlive)
  rw [withRefs] at hrefs
  omega

/-- **One reference more.** -/
theorem Accounted.take (h : Accounted refersTo ext s) (hp : p ∈ s.live) :
    ∃ s', take p s = some s' ∧ Accounted refersTo (withRefs ext [p]) s' ∧ s'.live = s.live := by
  refine ⟨_, if_pos hp, ⟨fun q hq => ?_, fun q hq => ?_⟩, rfl⟩
  · show Function.update s.refs p (s.refs p + 1) q = _
    by_cases hqp : q = p
    · subst hqp
      rw [Function.update_self, h.refs q hq, withRefs_self]
      exact Nat.add_right_comm _ _ _
    · rw [Function.update_of_ne hqp, h.refs q hq, withRefs_of_ne hqp]
      rfl
  · by_cases hqp : q = p
    · exact hqp ▸ hp
    · rw [withRefs_of_ne hqp] at hq
      exact h.live q hq

/-- What a live object refers to is live. -/
theorem Accounted.mem_live_of_refersTo (h : Accounted refersTo ext s) {q : ι} (hq : q ∈ s.live)
    (hp : p ∈ refersTo q) : p ∈ s.live := by
  have hle := Finset.single_le_sum (f := fun r => (refersTo r).count p)
    (fun _ _ => Nat.zero_le _) hq
  have hpos : 0 < (refersTo q).count p := List.count_pos_iff.2 hp
  exact h.live p (Nat.lt_of_lt_of_le (Nat.lt_of_lt_of_le hpos hle) (Nat.le_add_left _ _))

/-- An anchored object is live when new objects are still there. -/
theorem Accounted.mem_live_of_anchored (h : Accounted refersTo ext s')
    (hfresh : ∀ x ∈ s.live, s.refs x = 0 → x ∈ s'.live) (hp : Anchored refersTo ext s p) :
    p ∈ s'.live := by
  induction hp with
  | ext hp => exact h.mem_live hp
  | fresh hp h0 => exact hfresh _ hp h0
  | refersTo _ hp ih => exact h.mem_live_of_refersTo ih hp

/-- The references from objects, with those from one of them apart. -/
theorem inner_erase (refs : ι → ℕ) (hp : p ∈ s.live) (q : ι) :
    inner refersTo s q = (refersTo p).count q + inner refersTo ⟨s.live.erase p, refs⟩ q :=
  (Finset.add_sum_erase s.live (fun r => (refersTo r).count q) hp).symm

/-- An object without references is freed: those it held are then references from outside. -/
theorem Accounted.free (h : Accounted refersTo (withRefs ext [p]) s) (hp : s.refs p = 1) :
    Accounted refersTo (withRefs ext (refersTo p))
      ⟨s.live.erase p, Function.update s.refs p 0⟩ := by
  have hlive : p ∈ s.live := h.mem_live_of_mem List.mem_cons_self
  have hzero : ext p = 0 ∧ inner refersTo s p = 0 := by
    have hrefs := h.refs p hlive
    rw [hp, withRefs_self] at hrefs
    omega
  refine ⟨fun q hq => ?_, fun q hq => ?_⟩
  · obtain ⟨hqp, hq⟩ := Finset.mem_erase.1 hq
    have hrefs := h.refs q hq
    rw [withRefs_of_ne hqp, inner_erase (Function.update s.refs p 0) hlive] at hrefs
    show Function.update s.refs p 0 q = _
    rw [Function.update_of_ne hqp, hrefs, withRefs, Nat.add_assoc]
  · rw [withRefs, Nat.add_assoc, ← inner_erase _ hlive] at hq
    have hqp : q ≠ p := by
      rintro rfl
      omega
    refine Finset.mem_erase.2 ⟨hqp, h.live q ?_⟩
    rwa [withRefs_of_ne hqp]

/-- One reference less, if the object stays. -/
theorem Accounted.decrement (h : Accounted refersTo (withRefs ext [p]) s) :
    Accounted refersTo ext { s with refs := Function.update s.refs p (s.refs p - 1) } := by
  refine ⟨fun q hq => ?_, fun q hq => h.live q ?_⟩
  · show Function.update s.refs p (s.refs p - 1) q = ext q + inner refersTo s q
    have hrefs := h.refs q hq
    by_cases hqp : q = p
    · subst hqp
      rw [withRefs_self] at hrefs
      rw [Function.update_self]
      omega
    · rw [withRefs_of_ne hqp] at hrefs
      rw [Function.update_of_ne hqp, hrefs]
  · have hle : ext q ≤ withRefs ext [p] q := Nat.le_add_right _ _
    exact Nat.lt_of_lt_of_le hq (Nat.add_le_add_right hle _)

/-- What giving references back can do: objects are freed, and new objects are not touched. -/
structure Fewer (s s' : Counts ι) : Prop where
  live : s'.live ⊆ s.live
  fresh : ∀ x ∈ s.live, s.refs x = 0 → x ∈ s'.live ∧ s'.refs x = 0

omit [DecidableEq ι] in
theorem Fewer.refl (s : Counts ι) : Fewer s s := ⟨Finset.Subset.refl _, fun _ hx h0 => ⟨hx, h0⟩⟩

omit [DecidableEq ι] in
theorem Fewer.trans {s₁ s₂ s₃ : Counts ι} (h : Fewer s₁ s₂) (h' : Fewer s₂ s₃) : Fewer s₁ s₃ where
  live := h'.live.trans h.live
  fresh x hx h0 := by
    obtain ⟨hx', h0'⟩ := h.fresh x hx h0
    exact h'.fresh x hx' h0'

theorem fewer_update {live : Finset ι} {n : ℕ} (hp : s.refs p ≠ 0)
    (hlive : live = s.live ∨ live = s.live.erase p) :
    Fewer s ⟨live, Function.update s.refs p n⟩ := by
  refine ⟨?_, fun x hx h0 => ?_⟩
  · rcases hlive with rfl | rfl
    · exact Finset.Subset.refl _
    · exact Finset.erase_subset _ _
  · have hxp : x ≠ p := by
      rintro rfl
      exact hp h0
    refine ⟨?_, (Function.update_of_ne hxp _ _).trans h0⟩
    rcases hlive with rfl | rfl
    · exact hx
    · exact Finset.mem_erase.2 ⟨hxp, hx⟩

/-- A reference is given back, with fuel for every live object. -/
theorem Accounted.giveBackFuel {fuel : ℕ} (h : Accounted refersTo (withRefs ext [p]) s)
    (hfuel : s.live.card < fuel) :
    ∃ s', giveBackFuel refersTo kept fuel p s = some s' ∧ Accounted refersTo ext s' ∧
      Fewer s s' := by
  induction fuel generalizing p s ext with
  | zero => exact absurd hfuel (Nat.not_lt_zero _)
  | succ fuel ih =>
    have hlive : p ∈ s.live := h.mem_live_of_mem List.mem_cons_self
    have hpos : s.refs p ≠ 0 := by
      rw [h.refs p hlive, withRefs_self]
      omega
    rw [RefCount.giveBackFuel, if_neg (by simp [hlive, hpos])]
    by_cases hfree : s.refs p = 1 ∧ kept p = false
    · rw [if_pos hfree]
      have hcard := Finset.card_erase_lt_of_mem hlive
      -- the references of the freed object, one after the other
      have hall : ∀ (ps : List ι) (s₁ : Counts ι), Accounted refersTo (withRefs ext ps) s₁ →
          s₁.live.card < fuel →
            ∃ s', ps.foldlM (fun s q => RefCount.giveBackFuel refersTo kept fuel q s) s₁ = some s' ∧
              Accounted refersTo ext s' ∧ Fewer s₁ s' := by
        intro ps
        induction ps with
        | nil =>
          intro s₁ h₁ _
          rw [withRefs_nil] at h₁
          exact ⟨s₁, rfl, h₁, .refl s₁⟩
        | cons q ps ihps =>
          intro s₁ h₁ hcard₁
          rw [withRefs_cons] at h₁
          obtain ⟨s₂, hrun, h₂, hfewer⟩ := ih h₁ hcard₁
          obtain ⟨s', hrun', h', hfewer'⟩ :=
            ihps s₂ h₂ (Nat.lt_of_le_of_lt (Finset.card_le_card hfewer.live) hcard₁)
          refine ⟨s', ?_, h', hfewer.trans hfewer'⟩
          rw [List.foldlM_cons, hrun]
          exact hrun'
      obtain ⟨s', hrun, h', hfewer⟩ := hall (refersTo p) _ (h.free hfree.1) (by
        show (s.live.erase p).card < fuel
        omega)
      exact ⟨s', hrun, h', (fewer_update hpos (Or.inr rfl)).trans hfewer⟩
    · rw [if_neg hfree]
      exact ⟨_, rfl, h.decrement, fewer_update hpos (Or.inl rfl)⟩

/-- **One reference less.** -/
theorem Accounted.giveBack (h : Accounted refersTo (withRefs ext [p]) s) :
    ∃ s', giveBack refersTo kept p s = some s' ∧ Accounted refersTo ext s' ∧ Fewer s s' :=
  h.giveBackFuel kept (Nat.lt_succ_self _)

/-- **Nothing is lost**: when every object had a reference at the beginning, and the references from
outside are those of the beginning, the objects and their counts are the same. -/
theorem Accounted.eq_of_pos {s₀ : Counts ι} (h₀ : Accounted refersTo ext s₀)
    (h : Accounted refersTo ext s) (hsub : s.live ⊆ s₀.live) (hpos : ∀ p ∈ s₀.live, 0 < s₀.refs p)
    (rank : ι → ℕ) (hrank : ∀ p, ∀ q ∈ refersTo p, rank q < rank p) :
    s.live = s₀.live ∧ ∀ p ∈ s₀.live, s.refs p = s₀.refs p := by
  -- a freed object of greatest rank would have a reference, from outside or from a live object
  have hlive : s.live = s₀.live := by
    refine hsub.antisymm fun p hp => ?_
    by_contra hdead
    obtain ⟨q, hq, hmax⟩ := (s₀.live \ s.live).exists_max_image rank
      ⟨p, Finset.mem_sdiff.2 ⟨hp, hdead⟩⟩
    obtain ⟨hq₀, hqdead⟩ := Finset.mem_sdiff.1 hq
    have hrefs := hpos q hq₀
    rw [h₀.refs q hq₀] at hrefs
    have hnone : ¬0 < ext q + inner refersTo s q := fun hlt => hqdead (h.live q hlt)
    have hinner : inner refersTo s₀ q ≠ 0 := by omega
    obtain ⟨r, hr, hcount⟩ := Finset.exists_ne_zero_of_sum_ne_zero hinner
    have hmem : q ∈ refersTo r := List.count_pos_iff.1 (Nat.pos_of_ne_zero hcount)
    have hrdead : r ∉ s.live := by
      intro hrlive
      exact hqdead (h.mem_live_of_refersTo hrlive hmem)
    exact Nat.not_lt.2 (hmax r (Finset.mem_sdiff.2 ⟨hr, hrdead⟩)) (hrank r q hmem)
  refine ⟨hlive, fun p hp => ?_⟩
  rw [h.refs p (hlive ▸ hp), h₀.refs p hp, inner, inner, hlive]

end RefCount
end Meld
