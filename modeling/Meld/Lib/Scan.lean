import Mathlib.Data.List.Range

/-!
# Scanning flags

An iterator that stands at a position of a row of flags and gives the positions whose flag is set.
How a position is kept is up to the iterator: it can move to the next one, which fails at the end,
and look at the flag.

* `Scan.find`, `Scan.next`, `Scan.enumerate`: to the next flag; behind a flag; all flags.
* `Scan.Walks`: the iterator stands at position `t`, and moving takes it to `t + 1`.
* `Walks.enumerate_find`: the flags are given in ascending order, each once.
-/

namespace Meld

/-- An iterator over `items` positions. -/
structure Scan (σ : Type*) where
  items : ℕ
  total : σ → ℕ
  flag : σ → Bool
  move : σ → Bool × σ

namespace Scan

variable {σ : Type*} (S : Scan σ)

/-- On to a position with a flag, or to the end, in `fuel` moves. -/
def find : ℕ → σ → σ
  | 0, it => it
  | fuel + 1, it =>
    if S.flag it then it
    else if (S.move it).1 then find fuel (S.move it).2
    else (S.move it).2

/-- Behind the position. -/
def next (it : σ) : σ :=
  if (S.move it).1 then S.find (S.items - S.total (S.move it).2) (S.move it).2
  else (S.move it).2

/-- The positions from an iterator on, at most `fuel` of them. -/
def enumerate : ℕ → σ → List ℕ
  | 0, _ => []
  | fuel + 1, it => if S.total it = S.items then [] else S.total it :: enumerate fuel (S.next it)

/-- `At t it`: the iterator `it` stands at position `t`, whose flag is `test t`. -/
structure Walks (test : ℕ → Bool) (At : ℕ → σ → Prop) : Prop where
  total : ∀ {t it}, At t it → S.total it = t
  flag : ∀ {t it}, At t it → S.flag it = test t
  move : ∀ {t it}, At t it → t + 1 < S.items → (S.move it).1 = true ∧ At (t + 1) (S.move it).2
  last : ∀ {t it}, At t it → t + 1 = S.items →
    (S.move it).1 = false ∧ S.total (S.move it).2 = S.items

variable {S} {test : ℕ → Bool} {At : ℕ → σ → Prop}

theorem enumerate_of_total {it : σ} (h : S.total it = S.items) (fuel : ℕ) :
    S.enumerate fuel it = [] := by
  cases fuel with
  | zero => rfl
  | succ fuel => exact if_pos h

/-- **The positions from `t` on.** -/
theorem Walks.enumerate_find (h : S.Walks test At) {n t fuel : ℕ} {it : σ} (hn : t + n = S.items)
    (hpos : 0 < n) (hfuel : n ≤ fuel) (hAt : At t it) :
    S.enumerate fuel (S.find n it) = (List.range' t n).filter test := by
  induction n generalizing t fuel it with
  | zero => exact absurd hpos (Nat.lt_irrefl 0)
  | succ n ih =>
    obtain ⟨fuel, rfl⟩ := Nat.exists_eq_add_one_of_ne_zero
      (Nat.ne_of_gt (Nat.lt_of_lt_of_le hpos hfuel))
    have hne : S.total it ≠ S.items := by
      rw [h.total hAt]
      omega
    rw [List.range'_succ, find, h.flag hAt]
    cases n with
    | zero =>
      obtain ⟨hmove, htotal⟩ := h.last hAt hn
      by_cases htest : test t = true
      · have hnext : S.next it = (S.move it).2 := by rw [next, hmove]; rfl
        rw [if_pos htest, enumerate, if_neg hne, hnext, enumerate_of_total htotal, h.total hAt]
        simp [htest]
      · rw [if_neg htest, hmove, if_neg Bool.false_ne_true, enumerate_of_total htotal]
        simp [htest]
    | succ n =>
      obtain ⟨hmove, hAt'⟩ := h.move hAt (by omega)
      by_cases htest : test t = true
      · have hleft : S.items - (t + 1) = n + 1 := by omega
        have hnext : S.next it = S.find (n + 1) (S.move it).2 := by
          rw [next, hmove, if_pos rfl, h.total hAt', hleft]
        rw [if_pos htest, enumerate, if_neg hne, hnext,
          ih (by omega) (Nat.succ_pos n) (Nat.le_of_succ_le_succ hfuel) hAt', h.total hAt,
          List.filter_cons_of_pos htest]
      · rw [if_neg htest, hmove, if_pos rfl,
          ih (by omega) (Nat.succ_pos n) (Nat.le_of_succ_le hfuel) hAt',
          List.filter_cons_of_neg htest]

end Scan

end Meld
