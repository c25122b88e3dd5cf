import Meld.Lib.Stride
import Meld.Runtime.Fields

/-!
# Partitioning a grid

`partition_vertical` and `partition_horizontal` tell which thread a cell of a grid with sides `lx`
and `ly` belongs to.  The cell gets a place on a line, and the places are divided into parts of one
size, the last thread taking what is left.  Either function multiplies one coordinate by the side of
that coordinate, where the other side is the number of cells in between: with the vertical one, the
row `y` of `lx` cells begins at `ly * y`.

Signed arithmetic that overflows is undefined, and an access to `SCHEDS` outside of it too; both are
`none`.

* `partitionVertical`, `partitionHorizontal`: the functions.
* `Splits`: what they are meant to do.
* `splits_iff`: a grid laid out with a stride.
* `partitions_split_iff`: when the functions split a grid.
-/

namespace Meld
namespace External

open Stride

/-- The result of signed arithmetic. -/
def intVal (z : ℤ) : Option ℤ := if -2 ^ 31 ≤ z ∧ z < 2 ^ 31 then some z else none

/-- The part of the partition functions behind the computation of the place. -/
def partitionAt (numThreads : ℕ) (pos lx ly : ℤ) : Option ℕ := do
  let total ← intVal (ly * lx)
  if numThreads = 0 then none
  else
    -- the division is one of `size_t`
    let part := max 1 (toIntVal ((BitVec.ofInt 64 total).toNat / numThreads))
    let last ← intVal (toIntVal numThreads - 1)
    let ret := min (pos.tdiv part) last
    if 0 ≤ ret ∧ ret < numThreads then some ret.toNat else none

/-- `partition_vertical`. -/
def partitionVertical (numThreads : ℕ) (x y lx ly : ℤ) : Option ℕ := do
  let row ← intVal (ly * y)
  let pos ← intVal (row + x)
  partitionAt numThreads pos lx ly

/-- `partition_horizontal`. -/
def partitionHorizontal (numThreads : ℕ) (x y lx ly : ℤ) : Option ℕ := do
  let row ← intVal (lx * x)
  let pos ← intVal (row + y)
  partitionAt numThreads pos lx ly

/-- The cells `c` are given to the threads below `numThreads`: all but the last one get one share of
`total` each, and the last one gets the rest. -/
structure Splits {γ : Type} (cells : Finset γ) (thread : γ → Option ℕ) (total numThreads : ℕ) :
    Prop where
  assigned : ∀ c ∈ cells, ∃ i < numThreads, thread c = some i
  share : ∀ i < numThreads, (cells.filter fun c => thread c = some i).card =
    if i + 1 < numThreads then total / numThreads
    else total - (numThreads - 1) * (total / numThreads)

/-! ## A grid with a stride -/

section Layout

variable {n m s part T i : ℕ}

/-- The cells of a thread that is not the last one. -/
theorem card_part (hpart : 0 < part) (hi : i + 1 < T) :
    ((cells n m).filter fun c => min (place s c / part) (T - 1) = i).card +
      below n m s (i * part) = below n m s ((i + 1) * part) := by
  rw [← below_add (Nat.mul_le_mul_right part (Nat.le_succ i))]
  congr 2
  refine Finset.filter_congr fun c _ => ?_
  have hle := Nat.le_div_iff_mul_le hpart (x := i) (y := place s c)
  have hlt := Nat.div_lt_iff_lt_mul hpart (x := place s c) (y := i + 1)
  rw [← hle, ← hlt]
  omega

/-- The cells of the last thread. -/
theorem card_last (hpart : 0 < part) :
    ((cells n m).filter fun c => min (place s c / part) (T - 1) = T - 1).card +
      below n m s ((T - 1) * part) = n * m := by
  rw [← below_add_rest n m s ((T - 1) * part)]
  congr 2
  refine Finset.filter_congr fun c _ => ?_
  rw [← Nat.le_div_iff_mul_le hpart]
  omega

/-- **Shares and places**: the shares are right exactly if the cells below the end of each part are
as many as the places there. -/
theorem share_iff (hpart : 0 < part) :
    (∀ i < T, ((cells n m).filter fun c => min (place s c / part) (T - 1) = i).card =
        if i + 1 < T then part else n * m - (T - 1) * part) ↔
      ∀ i < T, below n m s (i * part) = i * part := by
  constructor
  · intro h i hi
    induction i with
    | zero => rw [Nat.zero_mul, below_zero]
    | succ i ih =>
      have hcard := h i (by omega)
      rw [if_pos hi] at hcard
      rw [← card_part hpart hi, hcard, ih (by omega), Nat.succ_mul]
      exact Nat.add_comm _ _
  · intro h i hi
    split
    · rename_i hlast
      have hcard := card_part (n := n) (m := m) (s := s) hpart hlast
      rw [h i hi, h (i + 1) hlast, Nat.succ_mul] at hcard
      omega
    · rename_i hlast
      obtain rfl : i = T - 1 := by omega
      have hcard := card_last (n := n) (m := m) (s := s) (T := T) hpart
      rw [h (T - 1) hi] at hcard
      omega

/-- **When the parts are right**, for `m` rows of `n` cells with the stride `m`: if the grid is a
square or one row, or if all parts but the last end inside the first row and before the second. -/
theorem below_iff (hm : 1 ≤ m) (hT : 1 ≤ T) (hTle : T ≤ n * m) :
    (∀ i < T, below n m m (i * (n * m / T)) = i * (n * m / T)) ↔
      n = m ∨ m = 1 ∨ (T - 1) * (n * m / T) ≤ min n m := by
  obtain ⟨part, hpart⟩ : ∃ part, part = n * m / T := ⟨_, rfl⟩
  have hpos : 0 < part := hpart ▸ Nat.div_pos hTle hT
  have hall : T * part ≤ n * m := hpart ▸ Nat.mul_div_le (n * m) T
  rw [← hpart]
  have hend : (T - 1) * part + part = T * part := by
    rw [← Nat.succ_mul, Nat.succ_eq_add_one, Nat.sub_add_cancel hT]
  have hmono : ∀ i < T, i * part ≤ (T - 1) * part := fun i hi =>
    Nat.mul_le_mul_right part (by omega)
  constructor
  · intro h
    by_contra hcond
    obtain ⟨hne, hm1, hmin⟩ : n ≠ m ∧ m ≠ 1 ∧ ¬ (T - 1) * part ≤ min n m := by tauto
    have hlast := h (T - 1) (by omega)
    rcases Nat.lt_or_gt_of_ne hne with hlt | hgt
    · have hgap := below_lt_of_gap (m := m) hlt (show n < (T - 1) * part by omega)
      omega
    · have hover := lt_below_of_overlap (m := m) hgt hm (by omega)
        (show m < (T - 1) * part by omega) (by omega)
      omega
  · intro h i hi
    have hle := hmono i hi
    rcases h with rfl | rfl | h
    · exact below_of_eq (by omega)
    · exact below_of_one (by omega)
    · exact below_of_le_min hm (by omega) (by omega)

end Layout

/-! ## The functions -/

section Functions

variable {T n m : ℕ}

theorem intVal_natCast {k : ℕ} (h : k < 2 ^ 31) : intVal k = some (k : ℤ) := by
  refine if_pos ⟨?_, ?_⟩ <;> omega

/-- A step of a computation that is known. -/
theorem bind_of_eq_some {α β : Type} {o : Option α} {v : α} {f : α → Option β} (h : o = some v) :
    (o >>= f) = f v := by
  rw [h]
  rfl

theorem intVal_eq_none {k : ℕ} (h : 2 ^ 31 ≤ k) : intVal k = none := by
  refine if_neg fun hk => ?_
  omega

theorem intVal_eq_some {z v : ℤ} (h : intVal z = some v) : v = z := by
  rw [intVal] at h
  split at h
  · exact (Option.some.inj h).symm
  · exact absurd h nofun

/-- A place on the line. -/
theorem partitionAt_eq {pos lx ly : ℕ} (htotal : lx * ly < 2 ^ 31) (hT : 1 ≤ T)
    (hTle : T ≤ lx * ly) :
    partitionAt T pos lx ly = some (min (pos / (lx * ly / T)) (T - 1)) := by
  have hcomm : (ly : ℤ) * lx = (lx * ly : ℕ) := by
    push_cast
    exact mul_comm _ _
  have hword : (BitVec.ofInt 64 ((lx * ly : ℕ) : ℤ)).toNat = lx * ly := by
    rw [BitVec.ofInt_natCast, BitVec.toNat_ofNat]
    exact Nat.mod_eq_of_lt (by omega)
  have hpart : 1 ≤ lx * ly / T := Nat.div_pos hTle hT
  have hdiv : lx * ly / T < 2 ^ 31 := (Nat.div_le_self _ _).trans_lt htotal
  have hlast : toIntVal T - 1 = ((T - 1 : ℕ) : ℤ) := by
    rw [toIntVal_of_lt (by omega)]
    omega
  have hmax : max 1 ((lx * ly / T : ℕ) : ℤ) = ((lx * ly / T : ℕ) : ℤ) := by omega
  have hret : min ((pos : ℤ).tdiv ((lx * ly / T : ℕ) : ℤ)) ((T - 1 : ℕ) : ℤ) =
      ((min (pos / (lx * ly / T)) (T - 1) : ℕ) : ℤ) := by
    rw [Int.tdiv_eq_ediv_of_nonneg (Int.natCast_nonneg pos), ← Int.natCast_ediv]
    omega
  rw [partitionAt, hcomm, intVal_natCast htotal]
  simp only [Option.bind_eq_bind, Option.bind_some, hword]
  rw [if_neg (by omega), toIntVal_of_lt hdiv, hlast, intVal_natCast (by omega)]
  simp only [Option.bind_some, hmax, hret]
  have hthread : min (pos / (lx * ly / T)) (T - 1) < T := by omega
  rw [if_pos ⟨Int.natCast_nonneg _, Int.ofNat_lt.2 hthread⟩, Int.toNat_natCast]

/-- The thread of a cell `u` of a row `v`, if the rows are laid out with the stride `m`. -/
def threadOf (T n m : ℕ) (c : ℕ × ℕ) : Option ℕ := do
  let row ← intVal ((m : ℤ) * c.2)
  let pos ← intVal (row + c.1)
  partitionAt T pos n m

theorem threadOf_eq (htotal : n * m < 2 ^ 31) (hT : 1 ≤ T) (hTle : T ≤ n * m) {c : ℕ × ℕ}
    (hc : place m c < 2 ^ 31) :
    threadOf T n m c = some (min (place m c / (n * m / T)) (T - 1)) := by
  have hrow : (m : ℤ) * c.2 = ((m * c.2 : ℕ) : ℤ) := by push_cast; rfl
  have hpos : ((m * c.2 : ℕ) : ℤ) + c.1 = ((place m c : ℕ) : ℤ) := by
    unfold place
    push_cast
    rfl
  have hle : m * c.2 ≤ place m c := Nat.le_add_right _ _
  rw [threadOf, hrow, bind_of_eq_some (intVal_natCast (hle.trans_lt hc)), hpos,
    bind_of_eq_some (intVal_natCast hc)]
  exact partitionAt_eq htotal hT hTle

theorem threadOf_eq_none {c : ℕ × ℕ} (hc : 2 ^ 31 ≤ place m c) : threadOf T n m c = none := by
  have hpos : (m : ℤ) * c.2 + c.1 = ((place m c : ℕ) : ℤ) := by
    unfold place
    push_cast
    rfl
  rw [threadOf]
  cases hrow : intVal ((m : ℤ) * c.2) with
  | none => rfl
  | some row =>
    rw [bind_of_eq_some rfl, intVal_eq_some hrow, hpos, intVal_eq_none hc]
    rfl

/-- **When a grid is split**: no place is too large for an `int`, and the parts are right. -/
theorem splits_iff (hn : 1 ≤ n) (hm : 1 ≤ m) (htotal : n * m < 2 ^ 31) (hT : 1 ≤ T)
    (hTle : T ≤ n * m) :
    Splits (cells n m) (threadOf T n m) (n * m) T ↔
      m * (m - 1) + n ≤ 2 ^ 31 ∧
        (n = m ∨ m = 1 ∨ (T - 1) * (n * m / T) ≤ min n m) := by
  have hlastMem : (n - 1, m - 1) ∈ cells n m := mem_cells.2 ⟨by omega, by omega⟩
  have hlastPlace : place m (n - 1, m - 1) + 1 = m * (m - 1) + n := by
    show m * (m - 1) + (n - 1) + 1 = _
    omega
  by_cases hfits : m * (m - 1) + n ≤ 2 ^ 31
  · have hplace : ∀ c ∈ cells n m, place m c < 2 ^ 31 := by
      intro c hc
      obtain ⟨hu, hv⟩ := mem_cells.1 hc
      have hmul : m * c.2 ≤ m * (m - 1) := Nat.mul_le_mul_left m (by omega)
      unfold place
      omega
    have hthread : ∀ c ∈ cells n m, threadOf T n m c =
        some (min (place m c / (n * m / T)) (T - 1)) := fun c hc =>
      threadOf_eq htotal hT hTle (hplace c hc)
    have hfilter : ∀ i, ((cells n m).filter fun c => threadOf T n m c = some i) =
        (cells n m).filter fun c => min (place m c / (n * m / T)) (T - 1) = i := fun i =>
      Finset.filter_congr fun c hc => by rw [hthread c hc, Option.some.injEq]
    have hshare := share_iff (n := n) (m := m) (s := m) (T := T) (Nat.div_pos hTle hT)
    rw [below_iff hm hT hTle] at hshare
    rw [← hshare]
    constructor
    · intro h
      exact ⟨hfits, fun i hi => by rw [← hfilter i]; exact h.share i hi⟩
    · rintro ⟨-, h⟩
      refine ⟨fun c hc => ⟨_, ?_, hthread c hc⟩, fun i hi => ?_⟩
      · omega
      · rw [hfilter i]
        exact h i hi
  · refine iff_of_false (fun h => ?_) fun h => hfits h.1
    obtain ⟨i, -, hi⟩ := h.assigned _ hlastMem
    rw [threadOf_eq_none (by omega)] at hi
    exact absurd hi nofun

end Functions

/-! ## Grids -/

/-- The cells `(x, y)` of a grid. -/
abbrev grid (lx ly : ℕ) : Finset (ℕ × ℕ) := cells lx ly

theorem splits_swap {T total lx ly : ℕ} {thread : ℕ × ℕ → Option ℕ} :
    Splits (grid lx ly) (fun c => thread c.swap) total T ↔ Splits (grid ly lx) thread total T := by
  have hcard : ∀ i, ((grid lx ly).filter fun c => thread c.swap = some i).card =
      ((grid ly lx).filter fun c => thread c = some i).card := by
    intro i
    refine Finset.card_bij (fun c _ => c.swap) (fun c hc => ?_)
      (fun c _ d _ h => Prod.swap_injective h) fun c hc => ⟨c.swap, ?_, Prod.swap_swap c⟩
    · rw [Finset.mem_filter, mem_cells] at hc ⊢
      exact ⟨⟨hc.1.2, hc.1.1⟩, hc.2⟩
    · rw [Finset.mem_filter, mem_cells] at hc ⊢
      exact ⟨⟨hc.1.2, hc.1.1⟩, by rw [Prod.swap_swap]; exact hc.2⟩
  constructor
  · intro h
    refine ⟨fun c hc => ?_, fun i hi => (hcard i).symm.trans (h.share i hi)⟩
    have hmem := mem_cells.1 hc
    have hassigned := h.assigned c.swap (mem_cells.2 ⟨hmem.2, hmem.1⟩)
    rwa [Prod.swap_swap] at hassigned
  · intro h
    refine ⟨fun c hc => ?_, fun i hi => (hcard i).trans (h.share i hi)⟩
    have hmem := mem_cells.1 hc
    exact h.assigned c.swap (mem_cells.2 ⟨hmem.2, hmem.1⟩)

/-- **When the functions split a grid** with at least one cell for each thread: the largest place is
an `int`, and the grid is a square, or one cell high (for the vertical function) or wide (for the
horizontal one), or so small that all parts but the last fit into its shorter side. -/
theorem partitions_split_iff {lx ly T : ℕ} (hlx : 1 ≤ lx) (hly : 1 ≤ ly)
    (htotal : lx * ly < 2 ^ 31) (hT : 1 ≤ T) (hTle : T ≤ lx * ly) :
    (Splits (grid lx ly) (fun c => partitionVertical T c.1 c.2 lx ly) (lx * ly) T ↔
      ly * (ly - 1) + lx ≤ 2 ^ 31 ∧
        (lx = ly ∨ ly = 1 ∨ (T - 1) * (lx * ly / T) ≤ min lx ly)) ∧
    (Splits (grid lx ly) (fun c => partitionHorizontal T c.1 c.2 lx ly) (lx * ly) T ↔
      lx * (lx - 1) + ly ≤ 2 ^ 31 ∧
        (lx = ly ∨ lx = 1 ∨ (T - 1) * (lx * ly / T) ≤ min lx ly)) := by
  refine ⟨splits_iff hlx hly htotal hT hTle, ?_⟩
  rw [Nat.mul_comm lx ly] at htotal hTle
  have hiff := splits_iff hly hlx htotal hT hTle
  rw [← splits_swap, Nat.mul_comm ly lx, eq_comm, Nat.min_comm] at hiff
  rw [← hiff]
  have hat : ∀ pos : ℤ, partitionAt T pos lx ly = partitionAt T pos ly lx := by
    intro pos
    rw [partitionAt, partitionAt, mul_comm (ly : ℤ)]
  have hsame : (fun c : ℕ × ℕ => partitionHorizontal T c.1 c.2 lx ly) =
      fun c => threadOf T ly lx c.swap := by
    funext c
    rw [partitionHorizontal, threadOf]
    simp only [hat]
    rfl
  rw [hsame]

/-- A square for two threads. -/
theorem partitions_split_square :
    Splits (grid 2 2) (fun c => partitionVertical 2 c.1 c.2 2 2) 4 2 :=
  (@partitions_split_iff 2 2 2 (by decide) (by decide) (by decide) (by decide)
    (by decide)).1.2 ⟨by decide, Or.inl rfl⟩

/-- **A grid of three by two cells** is not split among six threads: the last cell of the first row
and the first one of the second row both get the place 2, and no cell gets the place 5. -/
theorem not_splits_threeTwo :
    ¬ Splits (grid 3 2) (fun c => partitionVertical 6 c.1 c.2 3 2) 6 6 := by
  have hiff := splits_iff (n := 3) (m := 2) (T := 6) (by decide) (by decide) (by decide)
    (by decide) (by decide)
  exact fun h => absurd (hiff.1 h).2 (by decide)

end External
end Meld
