import Mathlib.Logic.Equiv.Basic
import Mathlib.Data.Nat.Init
import Mathlib.Tactic.Common

/-!
# The order of a binary heap

The keys of a binary heap are a function on positions.  A key is compared by a relation `le` that is
transitive and total; equal keys need not be the same.

* `Ordered`: no key is before that of its parent.
* `Up`, `Down`: the order with a gap at one position, towards its parent or towards its children.
  Each has a lemma for one swap (`Up.swap`, `Down.swap`) and one for the end (`Up.close`,
  `Down.close`).
* `Ordered.up_of_replace`, `Ordered.down_of_replace`: how a gap opens when one key is replaced.
* `Ordered.root_le`: the root has a first key.
-/

namespace Meld
namespace HeapOrder

variable {β : Type*}

/-- A relation that compares any two keys. -/
structure Compares (le : β → β → Prop) : Prop where
  trans : ∀ {a b c : β}, le a b → le b c → le a c
  total : ∀ a b : β, le a b ∨ le b a

/-- The parent of a position. -/
def parent (i : ℕ) : ℕ := (i - 1) / 2

theorem parent_lt {i : ℕ} (hi : 0 < i) : parent i < i := by
  unfold parent
  omega

theorem parent_eq_iff {i k : ℕ} (hi : 0 < i) : parent i = k ↔ i = 2 * k + 1 ∨ i = 2 * k + 2 := by
  unfold parent
  omega

variable (le : β → β → Prop)

/-- The first `n` keys are in heap order. -/
def Ordered (key : ℕ → β) (n : ℕ) : Prop := ∀ i, 0 < i → i < n → le (key (parent i)) (key i)

/-- Heap order, except that the key at `k` may be before that of its parent. -/
structure Up (key : ℕ → β) (n k : ℕ) : Prop where
  pairs : ∀ i, 0 < i → i < n → i ≠ k → le (key (parent i)) (key i)
  grand : 0 < k → ∀ i, 0 < i → i < n → parent i = k → le (key (parent k)) (key i)

/-- Heap order, except that the key at `k` may be behind those of its children. -/
structure Down (key : ℕ → β) (n k : ℕ) : Prop where
  pairs : ∀ i, 0 < i → i < n → parent i ≠ k → le (key (parent i)) (key i)
  grand : 0 < k → ∀ i, 0 < i → i < n → parent i = k → le (key (parent k)) (key i)

/-- The keys with two of them swapped. -/
def swapped (key : ℕ → β) (i j : ℕ) : ℕ → β := fun k => key (Equiv.swap i j k)

variable {le}

section Swapped

variable {key : ℕ → β} {i j k : ℕ}

@[simp] theorem swapped_left : swapped key i j i = key j := by simp [swapped]

@[simp] theorem swapped_right : swapped key i j j = key i := by simp [swapped]

theorem swapped_of_ne (hi : k ≠ i) (hj : k ≠ j) : swapped key i j k = key k := by
  simp [swapped, Equiv.swap_apply_of_ne_of_ne hi hj]

theorem swapped_comm : swapped key i j = swapped key j i := by
  unfold swapped
  rw [Equiv.swap_comm]

end Swapped

theorem Compares.refl (C : Compares le) (a : β) : le a a := (C.total a a).elim id id

variable {key : ℕ → β} {n k : ℕ}

theorem Ordered.mono {m : ℕ} (ok : Ordered le key n) (hm : m ≤ n) : Ordered le key m :=
  fun i hi him => ok i hi (Nat.lt_of_lt_of_le him hm)

/-- The key at the root is first. -/
theorem Ordered.root_le (C : Compares le) (ok : Ordered le key n) {i : ℕ} (hi : i < n) :
    le (key 0) (key i) := by
  induction i using Nat.strong_induction_on with
  | _ i ih =>
    rcases Nat.eq_zero_or_pos i with rfl | hpos
    · exact C.refl _
    · have hlt := parent_lt hpos
      exact C.trans (ih _ hlt (Nat.lt_trans hlt hi)) (ok i hpos hi)

/-- A gap towards the parent closes when the key is not before that of its parent. -/
theorem Up.close (ok : Up le key n k) (hstop : 0 < k → le (key (parent k)) (key k)) :
    Ordered le key n := by
  intro i hi hin
  by_cases hik : i = k
  · subst hik
    exact hstop hi
  · exact ok.pairs i hi hin hik

/-- A gap towards the children closes when no child is before the key. -/
theorem Down.close (ok : Down le key n k)
    (hstop : ∀ i, 0 < i → i < n → parent i = k → le (key k) (key i)) : Ordered le key n := by
  intro i hi hin
  by_cases hik : parent i = k
  · rw [hik]
    exact hstop i hi hin hik
  · exact ok.pairs i hi hin hik

/-- One step up: the gap moves to the parent. -/
theorem Up.swap (C : Compares le) (ok : Up le key n k) (hk : 0 < k) (hkn : k < n)
    (hlt : ¬ le (key (parent k)) (key k)) :
    Up le (swapped key k (parent k)) n (parent k) := by
  have hpk := parent_lt hk
  have hle : le (key k) (key (parent k)) := (C.total _ _).resolve_right hlt
  constructor
  · intro i hi hin hne
    have hpi := parent_lt hi
    by_cases hik : i = k
    · subst hik
      rw [swapped_left, swapped_right]
      exact hle
    · rw [swapped_of_ne (k := i) hik hne]
      have hpair := ok.pairs i hi hin hik
      by_cases hp : parent i = parent k
      · rw [hp] at hpair ⊢
        rw [swapped_right]
        exact C.trans hle hpair
      · by_cases hpik : parent i = k
        · rw [hpik, swapped_left]
          exact ok.grand hk i hi hin hpik
        · rw [swapped_of_ne hpik hp]
          exact hpair
  · intro hpos i hi hin hp
    have hppk := parent_lt hpos
    have hpi := parent_lt hi
    have habove := ok.pairs (parent k) hpos (Nat.lt_trans hpk hkn) (by omega)
    rw [swapped_of_ne (k := parent (parent k)) (by omega) (by omega)]
    by_cases hik : i = k
    · subst hik
      rw [swapped_left]
      exact habove
    · rw [swapped_of_ne (k := i) hik (by omega)]
      have hpair := ok.pairs i hi hin hik
      rw [hp] at hpair
      exact C.trans habove hpair

/-- One step down: the gap moves to a child that no other child is before. -/
theorem Down.swap (ok : Down le key n k) {c : ℕ} (hc : 0 < c) (hcn : c < n)
    (hp : parent c = k) (hle : le (key c) (key k))
    (hfirst : ∀ i, 0 < i → i < n → parent i = k → le (key c) (key i)) :
    Down le (swapped key k c) n c := by
  have hpc := parent_lt hc
  constructor
  · intro i hi hin hne
    have hpi := parent_lt hi
    by_cases hic : i = c
    · subst hic
      rw [hp, swapped_left, swapped_right]
      exact hle
    · by_cases hik : i = k
      · subst hik
        rw [swapped_left, swapped_of_ne (by omega) hne]
        exact ok.grand hi c hc hcn hp
      · rw [swapped_of_ne (k := i) hik hic]
        by_cases hpik : parent i = k
        · rw [hpik, swapped_left]
          exact hfirst i hi hin hpik
        · rw [swapped_of_ne hpik hne]
          exact ok.pairs i hi hin hpik
  · intro _ i hi hin hpi
    have hlt := parent_lt hi
    rw [hp, swapped_left, swapped_of_ne (k := i) (by omega) (by omega), ← hpi]
    exact ok.pairs i hi hin (by omega)

section Replace

variable {key' : ℕ → β}

/-- Whatever is put in at `k`, its parent is not behind its children. -/
theorem Ordered.grand_of_replace (C : Compares le) (ok : Ordered le key n)
    (hsame : ∀ i, i < n → i ≠ k → key' i = key i) (hkn : k < n) (hk : 0 < k) {i : ℕ} (hi : 0 < i)
    (hin : i < n) (hp : parent i = k) : le (key' (parent k)) (key' i) := by
  have hpk := parent_lt hk
  have hpi := parent_lt hi
  rw [hsame i hin (by omega), hsame _ (by omega) (by omega)]
  have hpair := ok i hi hin
  rw [hp] at hpair
  exact C.trans (ok k hk hkn) hpair

/-- A key that is not behind those of its children is put in. -/
theorem Ordered.up_of_replace (C : Compares le) (ok : Ordered le key n)
    (hsame : ∀ i, i < n → i ≠ k → key' i = key i) (hkn : k < n)
    (hchild : ∀ i, 0 < i → i < n → parent i = k → le (key' k) (key' i)) : Up le key' n k := by
  constructor
  · intro i hi hin hik
    have hpi := parent_lt hi
    by_cases hp : parent i = k
    · rw [hp]
      exact hchild i hi hin hp
    · rw [hsame i hin hik, hsame _ (by omega) hp]
      exact ok i hi hin
  · exact fun hk i hi hin hp => ok.grand_of_replace C hsame hkn hk hi hin hp

/-- A key that is not before that of its parent is put in. -/
theorem Ordered.down_of_replace (C : Compares le) (ok : Ordered le key n)
    (hsame : ∀ i, i < n → i ≠ k → key' i = key i) (hkn : k < n)
    (hparent : 0 < k → le (key' (parent k)) (key' k)) : Down le key' n k := by
  constructor
  · intro i hi hin hp
    have hpi := parent_lt hi
    by_cases hik : i = k
    · subst hik
      exact hparent hi
    · rw [hsame i hin hik, hsame _ (by omega) hp]
      exact ok i hi hin
  · exact fun hk i hi hin hp => ok.grand_of_replace C hsame hkn hk hi hin hp

end Replace

end HeapOrder
end Meld
