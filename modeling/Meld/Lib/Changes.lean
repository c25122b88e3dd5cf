import Mathlib.Data.Multiset.AddSub
import Mathlib.Data.List.TakeDrop

/-!
# Sequences of additions and removals

A sequence of changes to a multiset, each adding or removing one element.  A removal of an element
that is not there does nothing, so sequences that never do this are singled out: no prefix of them
removes an element more often than it is present.  On these the order of the changes does not
matter for the result, and an addition may be cancelled against a later removal.

* `added`, `removed`, `total`: what a sequence adds and removes, and where it leads.
* `Admissible`: no prefix removes an element more often than it is present.
* `count_total`: additions and removals are all counted.
* `Admissible.cancel`, `total_cancel`: an addition and the first later removal of the same element
  can be left out together.
* `admissible_append`: reading a sequence in two parts.
-/

namespace Meld

/-- A change to a multiset: one element more or one less. -/
inductive Change (α : Type*) where
  | add (a : α)
  | remove (a : α)
  deriving DecidableEq

namespace Change

variable {α : Type*} [DecidableEq α]

/-- The multiset after one change. -/
def apply (M : Multiset α) : Change α → Multiset α
  | .add a => a ::ₘ M
  | .remove a => M.erase a

/-- How often a sequence adds an element. -/
def added (a : α) (q : List (Change α)) : ℕ := q.count (.add a)

/-- How often a sequence removes an element. -/
def removed (a : α) (q : List (Change α)) : ℕ := q.count (.remove a)

/-- The multiset after a sequence of changes. -/
def total (M : Multiset α) (q : List (Change α)) : Multiset α := q.foldl apply M

/-- No prefix of the sequence removes an element more often than it is present. -/
def Admissible (M : Multiset α) (q : List (Change α)) : Prop :=
  ∀ n a, removed a (q.take n) ≤ M.count a + added a (q.take n)

variable {M : Multiset α} {q r : List (Change α)} {a : α}

@[simp] theorem added_nil (a : α) : added a [] = 0 := rfl

@[simp] theorem removed_nil (a : α) : removed a [] = 0 := rfl

@[simp] theorem added_append (a : α) (q r : List (Change α)) :
    added a (q ++ r) = added a q + added a r := List.count_append ..

@[simp] theorem removed_append (a : α) (q r : List (Change α)) :
    removed a (q ++ r) = removed a q + removed a r := List.count_append ..

@[simp] theorem added_cons_add (a b : α) (q : List (Change α)) :
    added a (.add b :: q) = added a q + if b = a then 1 else 0 := by
  rw [added, added, List.count_cons]
  simp

@[simp] theorem added_cons_remove (a b : α) (q : List (Change α)) :
    added a (.remove b :: q) = added a q := List.count_cons_of_ne (by simp)

@[simp] theorem removed_cons_remove (a b : α) (q : List (Change α)) :
    removed a (.remove b :: q) = removed a q + if b = a then 1 else 0 := by
  rw [removed, removed, List.count_cons]
  simp

@[simp] theorem removed_cons_add (a b : α) (q : List (Change α)) :
    removed a (.add b :: q) = removed a q := List.count_cons_of_ne (by simp)

@[simp] theorem total_nil (M : Multiset α) : total M [] = M := rfl

@[simp] theorem total_cons (M : Multiset α) (c : Change α) (q : List (Change α)) :
    total M (c :: q) = total (apply M c) q := rfl

theorem total_append (M : Multiset α) (q r : List (Change α)) :
    total M (q ++ r) = total (total M q) r := List.foldl_append ..

/-- Nothing is there in the end that was not there and was not added. -/
theorem mem_total (h : a ∈ total M q) : a ∈ M ∨ Change.add a ∈ q := by
  induction q generalizing M with
  | nil => exact Or.inl h
  | cons c q ih =>
    rcases ih h with hM | hq
    · cases c with
      | add b =>
        rcases Multiset.mem_cons.1 hM with rfl | hM
        · exact Or.inr List.mem_cons_self
        · exact Or.inl hM
      | remove b => exact Or.inl (Multiset.mem_of_mem_erase hM)
    · exact Or.inr (List.mem_cons_of_mem _ hq)

/-! ## Admissible sequences -/

theorem admissible_nil (M : Multiset α) : Admissible M [] := by
  intro n b
  simp

/-- An addition in front is always possible. -/
theorem admissible_cons_add : Admissible M (.add a :: q) ↔ Admissible (a ::ₘ M) q := by
  constructor
  · intro h n b
    have hn := h (n + 1) b
    rw [List.take_succ_cons, removed_cons_add, added_cons_add] at hn
    rw [Multiset.count_cons]
    by_cases hb : b = a
    · rw [if_pos hb]
      rw [if_pos hb.symm] at hn
      omega
    · rw [if_neg hb]
      rw [if_neg (Ne.symm hb)] at hn
      omega
  · intro h n b
    cases n with
    | zero => simp
    | succ n =>
      have hn := h n b
      rw [Multiset.count_cons] at hn
      rw [List.take_succ_cons, removed_cons_add, added_cons_add]
      by_cases hb : b = a
      · rw [if_pos hb] at hn
        rw [if_pos hb.symm]
        omega
      · rw [if_neg hb] at hn
        rw [if_neg (Ne.symm hb)]
        omega

/-- A removal in front needs the element. -/
theorem admissible_cons_remove :
    Admissible M (.remove a :: q) ↔ a ∈ M ∧ Admissible (M.erase a) q := by
  constructor
  · intro h
    have hmem : a ∈ M := by
      have h1 := h 1 a
      simp only [List.take_succ_cons, List.take_zero, removed_cons_remove, added_cons_remove,
        removed_nil, added_nil, if_pos] at h1
      exact Multiset.count_pos.1 (by omega)
    refine ⟨hmem, fun n b => ?_⟩
    have hn := h (n + 1) b
    rw [List.take_succ_cons, removed_cons_remove, added_cons_remove] at hn
    by_cases hb : b = a
    · subst hb
      rw [if_pos rfl] at hn
      rw [Multiset.count_erase_self]
      omega
    · rw [if_neg (Ne.symm hb)] at hn
      rw [Multiset.count_erase_of_ne hb]
      omega
  · rintro ⟨hmem, h⟩ n b
    have hpos := Multiset.count_pos.2 hmem
    cases n with
    | zero => simp
    | succ n =>
      have hn := h n b
      rw [List.take_succ_cons, removed_cons_remove, added_cons_remove]
      by_cases hb : b = a
      · subst hb
        rw [Multiset.count_erase_self] at hn
        rw [if_pos rfl]
        omega
      · rw [Multiset.count_erase_of_ne hb] at hn
        rw [if_neg (Ne.symm hb)]
        omega

/-- Every addition and every removal of an admissible sequence counts. -/
theorem count_total (h : Admissible M q) (b : α) :
    (total M q).count b + removed b q = M.count b + added b q := by
  induction q generalizing M with
  | nil => simp
  | cons c q ih =>
    cases c with
    | add a =>
      have hq := ih (admissible_cons_add.1 h)
      rw [Multiset.count_cons] at hq
      rw [total_cons, removed_cons_add, added_cons_add]
      simp only [apply, eq_comm (a := a) (b := b)]
      omega
    | remove a =>
      obtain ⟨hmem, hrest⟩ := admissible_cons_remove.1 h
      have hpos := Multiset.count_pos.2 hmem
      have hq := ih hrest
      rw [total_cons, removed_cons_remove, added_cons_remove]
      by_cases hb : b = a
      · subst hb
        rw [Multiset.count_erase_self] at hq
        rw [if_pos rfl]
        simp only [apply]
        omega
      · rw [Multiset.count_erase_of_ne hb] at hq
        rw [if_neg (Ne.symm hb)]
        simp only [apply]
        omega

/-- Reading a sequence in two parts. -/
theorem admissible_append :
    Admissible M (q ++ r) ↔ Admissible M q ∧ Admissible (total M q) r := by
  induction q generalizing M with
  | nil =>
    rw [List.nil_append, total_nil]
    exact ⟨fun h => ⟨admissible_nil M, h⟩, fun h => h.2⟩
  | cons c q ih =>
    cases c with
    | add a =>
      rw [List.cons_append, admissible_cons_add, admissible_cons_add, ih]
      exact Iff.rfl
    | remove a =>
      rw [List.cons_append, admissible_cons_remove, admissible_cons_remove, ih, and_assoc]
      exact Iff.rfl

/-! ## Cancellation -/

/-- An addition and the first later removal of the same element can be left out. -/
theorem Admissible.cancel (h : Admissible M (.add a :: (q ++ .remove a :: r)))
    (hfirst : Change.remove a ∉ q) : Admissible M (q ++ r) := by
  intro n b
  have hzero : removed a (q.take n) = 0 :=
    List.count_eq_zero_of_not_mem fun hmem => hfirst (List.mem_of_mem_take hmem)
  rcases Nat.le_total n q.length with hn | hn
  · -- The removal is not reached: the addition is needed for no removal of `a`.
    have hp := h (n + 1) b
    rw [List.take_succ_cons, List.take_append_of_le_length hn, removed_cons_add,
      added_cons_add] at hp
    rw [List.take_append_of_le_length hn]
    by_cases hb : a = b
    · subst hb
      omega
    · rw [if_neg hb] at hp
      exact hp
  · obtain ⟨k, rfl⟩ := Nat.exists_eq_add_of_le hn
    have hq : ∀ m, q.take (q.length + m) = q := fun m => List.take_of_length_le (by omega)
    have hp := h (q.length + (k + 1) + 1) b
    rw [List.take_succ_cons, List.take_append, hq, Nat.add_sub_cancel_left,
      List.take_succ_cons] at hp
    rw [List.take_append, hq, Nat.add_sub_cancel_left]
    simp only [removed_cons_add, removed_append, removed_cons_remove, added_cons_add,
      added_append, added_cons_remove] at hp ⊢
    omega

/-- Leaving them out leads to the same multiset. -/
theorem total_cancel (h : Admissible M (.add a :: (q ++ .remove a :: r)))
    (hfirst : Change.remove a ∉ q) :
    total M (q ++ r) = total M (.add a :: (q ++ .remove a :: r)) := by
  refine Multiset.ext.2 fun b => ?_
  have h1 := count_total h b
  have h2 := count_total (h.cancel hfirst) b
  simp only [removed_cons_add, removed_append, removed_cons_remove, added_cons_add, added_append,
    added_cons_remove] at h1 h2
  omega

end Change

end Meld
