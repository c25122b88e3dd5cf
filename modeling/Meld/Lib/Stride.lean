import Mathlib.Data.Finset.Prod
import Mathlib.Data.Finset.Card
import Mathlib.Tactic.Ring
import Mathlib.Algebra.Order.Ring.Nat

/-!
# Cells laid out with a stride

`m` rows of `n` cells are laid out on a line, each row `s` places behind the one before: the cell
`u` of row `v` comes to place `s * v + u`.  If the stride is the length of a row, the places are
those below `n * m`.  If it is larger there are gaps, the first one behind the first row, and if it
is smaller the second row begins inside the first one.

* `below n m s k`: the number of cells on the places below `k`.
* `below_of_le_min`, `below_of_eq`, `below_of_one`: where it is `k`.
* `below_lt_of_gap`, `lt_below_of_overlap`: where it is not.
-/

namespace Meld
namespace Stride

/-- The cells. -/
def cells (n m : ℕ) : Finset (ℕ × ℕ) := Finset.range n ×ˢ Finset.range m

/-- The place of a cell. -/
def place (s : ℕ) (c : ℕ × ℕ) : ℕ := s * c.2 + c.1

/-- The number of cells on the places below `k`. -/
def below (n m s k : ℕ) : ℕ := ((cells n m).filter fun c => place s c < k).card

variable {n m s k : ℕ}

theorem mem_cells {c : ℕ × ℕ} : c ∈ cells n m ↔ c.1 < n ∧ c.2 < m := by
  simp [cells]

theorem card_cells (n m : ℕ) : (cells n m).card = n * m := by
  simp [cells]

@[simp] theorem below_zero (n m s : ℕ) : below n m s 0 = 0 := by
  simp [below]

/-- The cells between two places. -/
theorem below_add {k' : ℕ} (h : k ≤ k') :
    ((cells n m).filter fun c => k ≤ place s c ∧ place s c < k').card + below n m s k =
      below n m s k' := by
  rw [below, below, ← Finset.card_union_of_disjoint]
  · congr 1
    ext c
    simp only [Finset.mem_union, Finset.mem_filter]
    rcases Nat.lt_or_ge (place s c) k with hk | hk
    · simp [hk, Nat.not_le.2 hk, hk.trans_le h]
    · simp [hk, Nat.not_lt.2 hk]
  · refine Finset.disjoint_filter.2 fun c _ hc => ?_
    exact Nat.not_lt.2 hc.1

/-- The cells from a place on. -/
theorem below_add_rest (n m s k : ℕ) :
    ((cells n m).filter fun c => k ≤ place s c).card + below n m s k = n * m := by
  rw [← card_cells n m, below, Nat.add_comm,
    ← Finset.card_filter_add_card_filter_not (s := cells n m) fun c => place s c < k]
  simp only [Nat.not_lt]

/-- **Places that are all taken once**: the cells on the places below `k` are as many as these if
`cell` has the cell of each. -/
theorem below_eq_of_cell (cell : ℕ → ℕ × ℕ) (hcell : ∀ p < k, cell p ∈ cells n m)
    (hplace : ∀ p < k, place s (cell p) = p)
    (hinj : ∀ c ∈ cells n m, place s c < k → c = cell (place s c)) : below n m s k = k := by
  have himage : (cells n m).filter (fun c => place s c < k) = (Finset.range k).image cell := by
    ext c
    rw [Finset.mem_filter, Finset.mem_image]
    constructor
    · rintro ⟨hc, hlt⟩
      exact ⟨place s c, Finset.mem_range.2 hlt, (hinj c hc hlt).symm⟩
    · rintro ⟨p, hp, rfl⟩
      have hp := Finset.mem_range.1 hp
      exact ⟨hcell p hp, (hplace p hp).trans_lt hp⟩
  rw [below, himage, Finset.card_image_of_injOn, Finset.card_range]
  intro p hp q hq heq
  rw [← hplace p (Finset.mem_range.1 hp), ← hplace q (Finset.mem_range.1 hq), heq]

/-- The first places are those of the first row. -/
theorem below_of_le_min (hm : 1 ≤ m) (hn : k ≤ n) (hs : k ≤ s) : below n m s k = k := by
  refine below_eq_of_cell (fun p => (p, 0)) (fun p hp => mem_cells.2 ⟨hp.trans_le hn, hm⟩)
    (fun p _ => by simp [place]) fun c _ hlt => ?_
  have hrow : c.2 = 0 := by
    by_contra hne
    have : s * 1 ≤ s * c.2 := Nat.mul_le_mul_left s (Nat.one_le_iff_ne_zero.2 hne)
    unfold place at hlt
    omega
  ext
  · simp [place, hrow]
  · exact hrow

/-- One row. -/
theorem below_of_one (hk : k ≤ n) : below n 1 s k = k := by
  refine below_eq_of_cell (fun p => (p, 0)) (fun p hp => mem_cells.2 ⟨hp.trans_le hk, Nat.one_pos⟩)
    (fun p _ => by simp [place]) fun c hc _ => ?_
  have hrow : c.2 = 0 := Nat.lt_one_iff.1 (mem_cells.1 hc).2
  ext
  · simp [place, hrow]
  · exact hrow

/-- Rows without gaps. -/
theorem below_of_eq (hk : k ≤ n * m) : below n m n k = k := by
  refine below_eq_of_cell (fun p => (p % n, p / n)) (fun p hp => ?_)
    (fun p _ => Nat.div_add_mod p n) fun c hc _ => ?_
  · have hn : 0 < n := Nat.pos_of_mul_pos_right ((Nat.zero_le p).trans_lt (hp.trans_le hk))
    exact mem_cells.2 ⟨Nat.mod_lt p hn, Nat.div_lt_of_lt_mul (hp.trans_le hk)⟩
  · obtain ⟨hlt, -⟩ := mem_cells.1 hc
    ext
    · rw [place, Nat.mul_add_mod, Nat.mod_eq_of_lt hlt]
    · rw [place, Nat.mul_add_div (by omega), Nat.div_eq_of_lt hlt, Nat.add_zero]

/-- **A gap**: no cell is on the place behind the first row. -/
theorem below_lt_of_gap (hs : n < s) (hk : n < k) : below n m s k < k := by
  have hle : below n m s k ≤ ((Finset.range k).erase n).card := by
    refine Finset.card_le_card_of_injOn (place s) (fun c hc => ?_) fun c hc d hd heq => ?_
    · obtain ⟨hc, hlt⟩ := Finset.mem_filter.1 hc
      obtain ⟨hu, -⟩ := mem_cells.1 hc
      refine Finset.mem_coe.2 (Finset.mem_erase.2 ⟨fun hgap => ?_, Finset.mem_range.2 hlt⟩)
      unfold place at hgap
      rcases Nat.eq_zero_or_pos c.2 with hrow | hrow
      · rw [hrow] at hgap
        omega
      · have : s * 1 ≤ s * c.2 := Nat.mul_le_mul_left s hrow
        omega
    · obtain ⟨hcu, -⟩ := mem_cells.1 (Finset.mem_filter.1 hc).1
      obtain ⟨hdu, -⟩ := mem_cells.1 (Finset.mem_filter.1 hd).1
      have hmod := congrArg (· % s) heq
      have hdiv := congrArg (· / s) heq
      simp only [place, Nat.mul_add_mod, Nat.mod_eq_of_lt (hcu.trans hs),
        Nat.mod_eq_of_lt (hdu.trans hs)] at hmod
      simp only [place, Nat.mul_add_div (show 0 < s by omega), Nat.div_eq_of_lt (hcu.trans hs),
        Nat.div_eq_of_lt (hdu.trans hs), Nat.add_zero] at hdiv
      exact Prod.ext hmod hdiv
  rw [Finset.card_erase_of_mem (Finset.mem_range.2 hk), Finset.card_range] at hle
  omega

/-- A cell on a place that rows which overlap cover: the last row that begins before it. -/
def lastCell (m s p : ℕ) : ℕ × ℕ := (p - s * min (p / s) (m - 1), min (p / s) (m - 1))

theorem place_lastCell (m s p : ℕ) : place s (lastCell m s p) = p := by
  have hle : s * min (p / s) (m - 1) ≤ p :=
    (Nat.mul_le_mul_left s (Nat.min_le_left _ _)).trans (Nat.mul_div_le p s)
  exact Nat.add_sub_of_le hle

theorem lastCell_mem {p : ℕ} (hs : s < n) (hs0 : 0 < s) (hm : 1 ≤ m) (hp : p < s * (m - 1) + n) :
    lastCell m s p ∈ cells n m := by
  refine mem_cells.2 ⟨?_, ?_⟩
  · show p - s * min (p / s) (m - 1) < n
    rcases Nat.le_total (p / s) (m - 1) with h | h
    · rw [Nat.min_eq_left h]
      have := Nat.div_add_mod p s
      have := Nat.mod_lt p hs0
      omega
    · rw [Nat.min_eq_right h]
      omega
  · show min (p / s) (m - 1) < m
    omega

/-- **An overlap**: two cells are on the place where the second row begins. -/
theorem lt_below_of_overlap (hs : s < n) (hs0 : 0 < s) (hm : 2 ≤ m) (hsk : s < k)
    (hk : k < n * m) : k < below n m s k := by
  rcases Nat.lt_or_ge (s * (m - 1) + n) k with hall | hall
  · -- all cells are on places below `k`
    have hfilter : (cells n m).filter (fun c => place s c < k) = cells n m := by
      refine Finset.filter_true_of_mem fun c hc => ?_
      obtain ⟨hu, hv⟩ := mem_cells.1 hc
      have : s * c.2 ≤ s * (m - 1) := Nat.mul_le_mul_left s (by omega)
      unfold place
      omega
    rwa [below, hfilter, card_cells]
  · have hsub : insert (s, 0) ((Finset.range k).image (lastCell m s)) ⊆
        (cells n m).filter fun c => place s c < k := by
      intro c hc
      rw [Finset.mem_filter]
      rcases Finset.mem_insert.1 hc with rfl | hc
      · exact ⟨mem_cells.2 ⟨hs, by omega⟩, by simpa [place] using hsk⟩
      · obtain ⟨p, hp, rfl⟩ := Finset.mem_image.1 hc
        have hp := Finset.mem_range.1 hp
        exact ⟨lastCell_mem hs hs0 (by omega) (hp.trans_le hall),
          (place_lastCell m s p).trans_lt hp⟩
    have hnew : ((s, 0) : ℕ × ℕ) ∉ (Finset.range k).image (lastCell m s) := by
      intro hc
      obtain ⟨p, -, heq⟩ := Finset.mem_image.1 hc
      have hp : p = s := by
        rw [← place_lastCell m s p, heq]
        simp [place]
      have hrow := congrArg Prod.snd heq
      rw [hp] at hrow
      simp only [lastCell, Nat.div_self hs0] at hrow
      omega
    have hcard := Finset.card_le_card hsub
    rw [Finset.card_insert_of_notMem hnew, Finset.card_image_of_injOn, Finset.card_range] at hcard
    · exact hcard
    · intro p _ q _ heq
      rw [← place_lastCell m s p, heq, place_lastCell]

end Stride
end Meld
