import Mathlib.Algebra.GroupWithZero.Nat
import Mathlib.Data.List.Nodup
import Mathlib.Logic.Function.Basic

/-!
# Doubly linked chains

A heap of cells is seen here through its links only: `links a` is the pair of the `prev` and the
`next` pointer of the cell at `a`, or `none` when nothing is allocated there.  A pointer is a
natural number and `0` is the null pointer.

* `Seg links prv c nxt`: the cells `c`, in order, are linked both ways; the first points back to
  `prv` and the last on to `nxt`.
* `join links p n`: make `p` and `n` neighbours, whichever of them is not null.
* `seg_join`: two segments whose inner links are right become one chain when the last cell of the
  first is joined to the first cell of the second.  Appending a cell, pushing one to the front and
  unlinking one from the middle are all instances.
* `Chain next a l`: the cells `l` are met when `next` is followed from `a` up to the null pointer.
-/

namespace Meld
namespace Linked

/-- The `prev` and the `next` pointer of every allocated cell. -/
abbrev Links := ℕ → Option (ℕ × ℕ)

/-- The cells of the list are linked in both directions, `prv` before and `nxt` after them. -/
def Seg (links : Links) : ℕ → List ℕ → ℕ → Prop
  | _, [], _ => True
  | prv, a :: c, nxt => links a = some (prv, c.headD nxt) ∧ Seg links a c nxt

/-- Make `p` and `n` neighbours: the `next` of `p` is `n` and the `prev` of `n` is `p`. -/
def join (links : Links) (p n : ℕ) : Links := fun a =>
  (links a).map fun l => (if a = n then p else l.1, if a = p then n else l.2)

/-- The cells met when `next` is followed from `a` up to the null pointer. -/
def Chain (next : ℕ → ℕ) : ℕ → List ℕ → Prop
  | a, [] => a = 0
  | a, x :: l => a = x ∧ a ≠ 0 ∧ Chain next (next a) l

/-- A chain is a fact about the pointers of its own cells. -/
theorem Chain.congr {next next' : ℕ → ℕ} {a : ℕ} {l : List ℕ} (h : Chain next a l)
    (heq : ∀ x ∈ l, next' x = next x) : Chain next' a l := by
  induction l generalizing a with
  | nil => exact h
  | cons x l ih =>
    obtain ⟨rfl, hne, hl⟩ := h
    refine ⟨rfl, hne, ?_⟩
    rw [heq a List.mem_cons_self]
    exact ih hl fun y hy => heq y (List.mem_cons_of_mem a hy)

variable {links links' : Links} {prv nxt p n : ℕ} {c xs ys : List ℕ}

@[simp] theorem seg_nil : Seg links prv [] nxt := trivial

@[simp] theorem seg_cons {a : ℕ} :
    Seg links prv (a :: c) nxt ↔ links a = some (prv, c.headD nxt) ∧ Seg links a c nxt := Iff.rfl

/-- A segment is a fact about the links of its own cells. -/
theorem seg_congr (h : ∀ a ∈ c, links' a = links a) (hs : Seg links prv c nxt) :
    Seg links' prv c nxt := by
  induction c generalizing prv with
  | nil => trivial
  | cons a c ih =>
    obtain ⟨ha, hc⟩ := hs
    refine ⟨?_, ih (fun b hb => h b (List.mem_cons_of_mem a hb)) hc⟩
    rw [h a List.mem_cons_self, ha]

/-- A segment cut in two. -/
theorem seg_append :
    Seg links prv (xs ++ ys) nxt ↔
      Seg links prv xs (ys.headD nxt) ∧ Seg links (xs.getLastD prv) ys nxt := by
  induction xs generalizing prv with
  | nil => simp
  | cons x xs ih =>
    have hhead : (xs ++ ys).headD nxt = xs.headD (ys.headD nxt) := by
      cases xs <;> rfl
    rw [List.cons_append, seg_cons, seg_cons, ih, hhead, and_assoc, List.getLastD_cons]

theorem getLastD_mem (hx : xs ≠ []) : xs.getLastD 0 ∈ xs := by
  rw [List.getLastD_eq_getLast?, List.getLast?_eq_some_getLast hx]
  exact List.getLast_mem hx

theorem headD_mem (hx : xs ≠ []) : xs.headD 0 ∈ xs := by
  obtain ⟨a, as, rfl⟩ := List.exists_cons_of_ne_nil hx
  simp

/-- The last cell is that of the second part, if there is one. -/
theorem getLastD_append_of_ne_nil (xs : List ℕ) (hys : ys ≠ []) :
    (xs ++ ys).getLastD 0 = ys.getLastD 0 := by
  rw [List.getLastD_eq_getLast?, List.getLastD_eq_getLast?, List.getLast?_append]
  rw [List.getLast?_eq_some_getLast hys]
  rfl

/-- The first cell is that of the first part, if there is one. -/
theorem headD_append_of_ne_nil (hxs : xs ≠ []) : (xs ++ ys).headD 0 = xs.headD 0 := by
  obtain ⟨a, as, rfl⟩ := List.exists_cons_of_ne_nil hxs
  rfl

@[simp] theorem join_eq_none {a : ℕ} : join links p n a = none ↔ links a = none := by
  simp [join]

/-- Joining two cells changes no other. -/
theorem join_of_ne {a : ℕ} (hp : a ≠ p) (hn : a ≠ n) : join links p n a = links a := by
  simp [join, hp, hn]

/-- The first half of a join: the segment that ends in the cell joined on its right. -/
theorem seg_join_left (hnd : xs.Nodup) (hn : n ∉ xs) {m : ℕ}
    (hs : Seg links prv xs m) : Seg (join links (xs.getLastD 0) n) prv xs n := by
  induction xs generalizing prv with
  | nil => trivial
  | cons x xs ih =>
    obtain ⟨hxn, hnx⟩ := not_or.mp (mt List.mem_cons.mpr hn)
    rw [List.nodup_cons] at hnd
    obtain ⟨hlink, hrest⟩ := hs
    cases xs with
    | nil => simp [join, hlink, Ne.symm hxn]
    | cons y ys =>
      have hlast : (x :: y :: ys).getLastD 0 = (y :: ys).getLastD 0 := by
        simp
      rw [hlast]
      refine ⟨?_, ih hnd.2 hnx hrest⟩
      have hne : x ≠ (y :: ys).getLastD 0 := by
        intro he
        exact hnd.1 (he ▸ getLastD_mem (by simp))
      rw [join_of_ne hne (Ne.symm hxn), hlink]
      rfl

/-- The second half of a join: the segment that starts with the cell joined on its left. -/
theorem seg_join_right (hnd : ys.Nodup) (hp : p ∉ ys) {m : ℕ}
    (hs : Seg links m ys nxt) : Seg (join links p (ys.headD 0)) p ys nxt := by
  cases ys with
  | nil => trivial
  | cons y ys =>
    obtain ⟨hpy, hpys⟩ := not_or.mp (mt List.mem_cons.mpr hp)
    rw [List.nodup_cons] at hnd
    obtain ⟨hlink, hrest⟩ := hs
    refine ⟨?_, seg_congr ?_ hrest⟩
    · simp [join, hlink, Ne.symm hpy]
    · intro a ha
      refine join_of_ne ?_ ?_
      · rintro rfl
        exact hpys ha
      · rintro rfl
        exact hnd.1 ha

/-- **Joining two segments**: whatever the links at the seam were, the cells form one chain once
the last cell of the first part and the first cell of the second are neighbours. -/
theorem seg_join {m m' : ℕ} (hnd : (xs ++ ys).Nodup) (h0 : 0 ∉ xs ++ ys)
    (hxs : Seg links 0 xs m) (hys : Seg links m' ys 0) :
    Seg (join links (xs.getLastD 0) (ys.headD 0)) 0 (xs ++ ys) 0 := by
  obtain ⟨hndx, hndy, hdisj⟩ := List.nodup_append'.mp hnd
  have h0x : 0 ∉ xs := fun h => h0 (List.mem_append_left ys h)
  have h0y : 0 ∉ ys := fun h => h0 (List.mem_append_right xs h)
  rw [seg_append]
  constructor
  · refine seg_join_left hndx ?_ hxs
    intro hmem
    by_cases hy : ys = []
    · subst hy
      exact h0x hmem
    · exact hdisj hmem (headD_mem hy)
  · refine seg_join_right hndy ?_ hys
    intro hmem
    by_cases hx : xs = []
    · subst hx
      exact h0y hmem
    · exact hdisj (getLastD_mem hx) hmem

end Linked
end Meld
