import Mathlib.Algebra.BigOperators.Group.Finset.Basic
import Mathlib.Algebra.Order.Group.Nat
import Mathlib.Algebra.Order.Ring.Nat

/-!
# Shares of a range

The numbers below `N` are cut into pieces of `q` numbers each.  The pieces behind the end are empty,
and the one before them may be short.

* `cut N q i`: where piece `i` begins and the one before it ends.
* `exists_cut`, `cut_unique`: each number is in one piece.
* `sum_cut`: the lengths of the pieces.
-/

namespace Meld
namespace Shares

/-- Where piece `i` begins. -/
def cut (N q i : ℕ) : ℕ := min N (i * q)

variable {N q i j n T : ℕ}

theorem cut_zero (N q : ℕ) : cut N q 0 = 0 := by
  simp [cut]

theorem cut_le (N q i : ℕ) : cut N q i ≤ N := Nat.min_le_left _ _

theorem cut_mono (N q : ℕ) : Monotone (cut N q) := fun _ _ h =>
  min_le_min_left N (Nat.mul_le_mul_right q h)

theorem cut_last (h : N ≤ T * q) : cut N q T = N := Nat.min_eq_left h

/-- A number is in some piece. -/
theorem exists_cut (h : N ≤ T * q) (hn : n < N) :
    ∃ i < T, cut N q i ≤ n ∧ n < cut N q (i + 1) := by
  have hq : 0 < q := Nat.pos_of_mul_pos_left ((Nat.zero_le n).trans_lt (hn.trans_le h))
  refine ⟨n / q, (Nat.div_lt_iff_lt_mul hq).2 (hn.trans_le h), ?_, ?_⟩
  · exact (Nat.min_le_right _ _).trans (Nat.div_mul_le_self n q)
  · exact lt_min hn (Nat.lt_mul_of_div_lt (Nat.lt_succ_self (n / q)) hq)

/-- A number is in one piece only. -/
theorem cut_unique (hi : cut N q i ≤ n ∧ n < cut N q (i + 1))
    (hj : cut N q j ≤ n ∧ n < cut N q (j + 1)) : i = j := by
  rcases Nat.lt_trichotomy i j with h | h | h
  · have := cut_mono N q h
    exact absurd (hi.2.trans_le (this.trans hj.1)) (lt_irrefl n)
  · exact h
  · have := cut_mono N q h
    exact absurd (hj.2.trans_le (this.trans hi.1)) (lt_irrefl n)

/-- **The lengths of the pieces** add up to the whole. -/
theorem sum_cut (h : N ≤ T * q) :
    ∑ i ∈ Finset.range T, (cut N q (i + 1) - cut N q i) = N := by
  rw [Finset.sum_range_tsub (cut_mono N q), cut_last h, cut_zero, Nat.sub_zero]

end Shares
end Meld
