import Meld.Db.TupleTrieDepths

/-!
# The leaf of a cycle predicate

A leaf counts its derivations twice: all of them in `count`, and by depth in its depth counter.
Both are numbers of 64 bits.  `sub` takes from each of the two on its own: `count` loses what it has
at most, the depth counter loses what it has at the given depth at most, and nothing at a depth that
it does not have.

* `CycleLeaf`, `LeafOp`, `LeafOp.exec`: the leaf and its operations.
* `Sound`: the two counts agree, and no depth has a count of zero.
* `Steady`: the operations that keep this.
* `exec_sound_iff`: one operation, `soundAlong_iff`: a sequence of them.
-/

namespace Meld

/-- Addition of `ref_count`s, which wraps around. -/
def addRefCount (a b : ℕ) : ℕ := (a + b) % 2 ^ 64

namespace DepthCounter

/-- `add`, with counts of 64 bits. -/
def addWrapping (depth count : ℕ) : DepthCounter → DepthCounter
  | [] => [(depth, count)]
  | (d, c) :: D =>
    if depth < d then (depth, count) :: (d, c) :: D
    else if depth = d then (d, addRefCount c count) :: D
    else (d, c) :: addWrapping depth count D

/-- The sum of the counts. -/
def total (D : DepthCounter) : ℕ := (D.map Prod.snd).sum

end DepthCounter

/-- The counts of a `tuple_trie_leaf` of a cycle predicate. -/
structure CycleLeaf where
  count : ℕ
  depths : DepthCounter
  deriving DecidableEq

namespace CycleLeaf

/-- `add_new`. -/
def addNew (l : CycleLeaf) (depth many : ℕ) : CycleLeaf :=
  ⟨addRefCount l.count many, l.depths.addWrapping depth many⟩

/-- `sub`. -/
def sub (l : CycleLeaf) (depth many : ℕ) : CycleLeaf :=
  ⟨if many > l.count then 0 else l.count - many, l.depths.sub depth many⟩

/-- `delete_depths_above`. -/
def deleteDepthsAbove (l : CycleLeaf) (depth : ℕ) : CycleLeaf :=
  let r := l.depths.deleteDepthsAbove depth
  ⟨subRefCount l.count (r.2 % 2 ^ 64), r.1⟩

/-- The constructor. -/
def create (depth many : ℕ) : CycleLeaf := addNew ⟨0, []⟩ depth many

end CycleLeaf

/-- The operations on a leaf. -/
inductive LeafOp where
  | addNew (depth many : ℕ)
  | sub (depth many : ℕ)
  | deleteDepthsAbove (depth : ℕ)
  deriving DecidableEq

namespace LeafOp

/-- `assert(many > 0)`, for a number of 64 bits. -/
def Valid : LeafOp → Prop
  | addNew _ many | sub _ many => 0 < many ∧ many < 2 ^ 64
  | deleteDepthsAbove _ => True

/-- One operation. -/
def exec (l : CycleLeaf) : LeafOp → CycleLeaf
  | addNew depth many => l.addNew depth many
  | sub depth many => l.sub depth many
  | deleteDepthsAbove depth => l.deleteDepthsAbove depth

end LeafOp

namespace CycleLeaf

/-- **The two counts agree**, and no depth has a count of zero. -/
def Sound (l : CycleLeaf) : Prop := l.count = l.depths.total ∧ ∀ e ∈ l.depths, e.2 ≠ 0

/-- The operation does not take more from `count` than there is. -/
def StaysAboveZero (l : CycleLeaf) : LeafOp → Prop
  | .deleteDepthsAbove depth => (l.depths.deleteDepthsAbove depth).2 % 2 ^ 64 ≤ l.count
  | _ => True

/-- All this along a sequence of operations. -/
def SoundAlong (l : CycleLeaf) : List LeafOp → Prop
  | [] => l.Sound
  | op :: ops => l.Sound ∧ l.StaysAboveZero op ∧ SoundAlong (op.exec l) ops

/-- **The operations that keep the counts in step**: what is added fits into 64 bits (or wraps
around at its depth as well), and what is taken away is there at its depth, or else all that is
there. -/
def Steady (l : CycleLeaf) : LeafOp → Prop
  | .addNew depth many => l.count + many < 2 ^ 64 ∨ 2 ^ 64 < l.depths.getCount depth + many
  | .sub depth many => many ≤ l.depths.getCount depth ∨ l.count = l.depths.getCount depth
  | .deleteDepthsAbove _ => True

/-- Every operation of a sequence is steady in the state it comes to. -/
def SteadyAlong (l : CycleLeaf) : List LeafOp → Prop
  | [] => True
  | op :: ops => l.Steady op ∧ SteadyAlong (op.exec l) ops

end CycleLeaf

/-! ## The sums -/

namespace DepthCounter

variable {D : DepthCounter}

theorem total_cons (e : ℕ × ℕ) (D : DepthCounter) : total (e :: D) = e.2 + total D := by
  simp [total]

theorem getCount_le_total (D : DepthCounter) (d : ℕ) : getCount D d ≤ total D := by
  induction D with
  | nil => exact Nat.le_refl 0
  | cons e D ih =>
    rw [getCount_cons, total_cons]
    split
    · exact Nat.le_add_right _ _
    · exact ih.trans (Nat.le_add_left _ _)

/-- A depth in front of the first entry has none. -/
theorem getCount_of_lt {e : ℕ × ℕ} (h : Ordered (e :: D)) {d : ℕ} (hlt : d < e.1) :
    getCount (e :: D) d = 0 := by
  refine getCount_eq_zero fun x hx => Nat.ne_of_lt ?_
  rcases List.mem_cons.1 hx with rfl | hx
  · exact hlt
  · exact hlt.trans ((List.pairwise_cons.1 h).1 x hx)

/-- `add` adds to the count of its depth, modulo `2^64`. -/
theorem total_addWrapping (h : Ordered D) (depth : ℕ) {many : ℕ} (hmany : many < 2 ^ 64) :
    total (addWrapping depth many D) + getCount D depth =
      total D + (getCount D depth + many) % 2 ^ 64 := by
  induction D with
  | nil =>
    show total [(depth, many)] + 0 = 0 + (0 + many) % 2 ^ 64
    rw [Nat.zero_add, Nat.zero_add, Nat.mod_eq_of_lt hmany]
    simp [total]
  | cons e D ih =>
    obtain ⟨d, c⟩ := e
    have htail := (List.pairwise_cons.1 h).2
    rw [addWrapping]
    split
    next hlt =>
      rw [getCount_of_lt h hlt, total_cons, Nat.zero_add, Nat.mod_eq_of_lt hmany]
      omega
    next hge =>
      split
      next heq =>
        rw [total_cons, total_cons, getCount_cons, if_pos heq, addRefCount]
        omega
      next hne =>
        have := ih htail
        rw [total_cons, total_cons, getCount_cons, if_neg hne]
        omega

theorem Ordered.addWrapping (h : Ordered D) (depth many : ℕ) :
    Ordered (DepthCounter.addWrapping depth many D) := by
  have hfst : ∀ D : DepthCounter, (DepthCounter.addWrapping depth many D).map Prod.fst =
      (DepthCounter.add depth many D).map Prod.fst := by
    intro D
    induction D with
    | nil => rfl
    | cons e D ih =>
      obtain ⟨d, c⟩ := e
      rw [DepthCounter.addWrapping, DepthCounter.add]
      split
      · rfl
      · split
        · rfl
        · rw [List.map_cons, List.map_cons, ih]
  have hadd := (h.add depth many).1
  rw [ordered_iff] at hadd ⊢
  rw [hfst]
  exact hadd

/-- The entries after `add` are not zero exactly when the one of its depth is not. -/
theorem addWrapping_ne_zero_iff (h : Ordered D) (hD : ∀ e ∈ D, e.2 ≠ 0) (depth : ℕ) {many : ℕ}
    (hpos : 0 < many) (hmany : many < 2 ^ 64) :
    (∀ e ∈ addWrapping depth many D, e.2 ≠ 0) ↔ (getCount D depth + many) % 2 ^ 64 ≠ 0 := by
  induction D with
  | nil =>
    show (∀ e ∈ [(depth, many)], e.2 ≠ 0) ↔ (0 + many) % 2 ^ 64 ≠ 0
    rw [Nat.zero_add, Nat.mod_eq_of_lt hmany]
    simp
  | cons e D ih =>
    obtain ⟨d, c⟩ := e
    have htail := (List.pairwise_cons.1 h).2
    have hc : c ≠ 0 := hD (d, c) List.mem_cons_self
    have hrest : ∀ e ∈ D, e.2 ≠ 0 := fun e he => hD e (List.mem_cons_of_mem _ he)
    rw [addWrapping]
    split
    next hlt =>
      rw [getCount_of_lt h hlt, Nat.zero_add, Nat.mod_eq_of_lt hmany]
      refine ⟨fun _ => by omega, fun _ e he => ?_⟩
      rcases List.mem_cons.1 he with rfl | he
      · exact Nat.ne_of_gt hpos
      · exact hD e he
    next hge =>
      split
      next heq =>
        rw [getCount_cons, if_pos heq]
        refine ⟨fun hall => hall _ List.mem_cons_self, fun hne e he => ?_⟩
        rcases List.mem_cons.1 he with rfl | he
        · exact hne
        · exact hrest e he
      next hne =>
        rw [getCount_cons, if_neg hne, ← ih htail hrest]
        refine ⟨fun hall e he => hall e (List.mem_cons_of_mem _ he), fun hall e he => ?_⟩
        rcases List.mem_cons.1 he with rfl | he
        · exact hc
        · exact hall e he

/-- `sub` takes what is there at its depth. -/
theorem total_sub (D : DepthCounter) (depth many : ℕ) :
    total (sub depth many D) + min (getCount D depth) many = total D := by
  induction D with
  | nil => exact Nat.zero_min many
  | cons e D ih =>
    obtain ⟨d, c⟩ := e
    rw [sub, getCount_cons]
    split
    next heq =>
      split
      next hle =>
        rw [total_cons, Nat.min_eq_left hle, Nat.add_comm]
      next hgt =>
        have hle : many ≤ c := Nat.le_of_lt (Nat.not_le.1 hgt)
        rw [total_cons, total_cons, Nat.min_eq_right hle]
        show c - many + total D + many = c + total D
        omega
    next hne =>
      rw [total_cons, total_cons, Nat.add_assoc, ih]

theorem sub_ne_zero (hD : ∀ e ∈ D, e.2 ≠ 0) (depth many : ℕ) :
    ∀ e ∈ sub depth many D, e.2 ≠ 0 := by
  induction D with
  | nil => exact hD
  | cons e D ih =>
    obtain ⟨d, c⟩ := e
    have hrest : ∀ e ∈ D, e.2 ≠ 0 := fun e he => hD e (List.mem_cons_of_mem _ he)
    rw [sub]
    split
    · split
      · exact hrest
      next hgt =>
        intro e he
        rcases List.mem_cons.1 he with rfl | he
        · exact Nat.sub_ne_zero_of_lt (Nat.not_le.1 hgt)
        · exact hrest e he
    · intro e he
      rcases List.mem_cons.1 he with rfl | he
      · exact hD _ List.mem_cons_self
      · exact ih hrest e he

/-- `delete_depths_above` splits the sum. -/
theorem total_deleteDepthsAbove (D : DepthCounter) (depth : ℕ) :
    total (deleteDepthsAbove depth D).1 + (deleteDepthsAbove depth D).2 = total D := by
  induction D with
  | nil => rfl
  | cons e D ih =>
    simp only [deleteDepthsAbove, total] at ih ⊢
    by_cases he : e.1 ≤ depth
    · have hlt : ¬ depth < e.1 := Nat.not_lt.2 he
      simp only [List.filter_cons, he, hlt, decide_true, decide_false, if_true,
        Bool.false_eq_true, if_false, List.map_cons, List.sum_cons]
      omega
    · have hlt : depth < e.1 := Nat.not_le.1 he
      simp only [List.filter_cons, he, hlt, decide_true, decide_false, if_true,
        Bool.false_eq_true, if_false, List.map_cons, List.sum_cons]
      omega

end DepthCounter

/-! ## One operation, and many -/

namespace CycleLeaf

open DepthCounter

variable {l : CycleLeaf} {op : LeafOp}

/-- What holds of the counts of every leaf: the depths increase, and `count` has 64 bits. -/
structure WellFormed (l : CycleLeaf) : Prop where
  ordered : l.depths.Ordered
  count_lt : l.count < 2 ^ 64

/-- The counts stay well formed as long as they are in step. -/
theorem WellFormed.exec (h : l.WellFormed) (hl : l.Sound) : (op.exec l).WellFormed := by
  have hlt := h.count_lt
  cases op with
  | addNew depth many => exact ⟨h.ordered.addWrapping depth many, Nat.mod_lt _ (by decide)⟩
  | sub depth many =>
    refine ⟨h.ordered.sub depth many, ?_⟩
    show (if many > l.count then 0 else l.count - many) < 2 ^ 64
    split <;> omega
  | deleteDepthsAbove depth =>
    have htotal := total_deleteDepthsAbove l.depths depth
    have hcount := hl.1
    refine ⟨h.ordered.deleteDepthsAbove depth, ?_⟩
    show subRefCount l.count ((l.depths.deleteDepthsAbove depth).2 % 2 ^ 64) < 2 ^ 64
    rw [subRefCount]
    split <;> omega

/-- **One operation** keeps the counts in step exactly if it is steady. -/
theorem exec_sound_iff (h : l.WellFormed) (hl : l.Sound) (hvalid : op.Valid) :
    (op.exec l).Sound ↔ l.Steady op := by
  obtain ⟨hcount, hne⟩ := hl
  have hlt := h.count_lt
  cases op with
  | addNew depth many =>
    obtain ⟨hpos, hmany⟩ := hvalid
    have htotal := total_addWrapping h.ordered depth hmany
    have hzero := addWrapping_ne_zero_iff h.ordered hne depth hpos hmany
    have hle := getCount_le_total l.depths depth
    show (l.count + many) % 2 ^ 64 = (addWrapping depth many l.depths).total ∧
      (∀ e ∈ addWrapping depth many l.depths, e.2 ≠ 0) ↔
        l.count + many < 2 ^ 64 ∨ 2 ^ 64 < l.depths.getCount depth + many
    rw [hzero]
    omega
  | sub depth many =>
    obtain ⟨hpos, hmany⟩ := hvalid
    have htotal := total_sub l.depths depth many
    have hle := getCount_le_total l.depths depth
    have hrest := sub_ne_zero hne depth many
    show (if many > l.count then 0 else l.count - many) = (l.depths.sub depth many).total ∧
      (∀ e ∈ l.depths.sub depth many, e.2 ≠ 0) ↔
        many ≤ l.depths.getCount depth ∨ l.count = l.depths.getCount depth
    rw [and_iff_left hrest]
    split <;> omega
  | deleteDepthsAbove depth =>
    have htotal := total_deleteDepthsAbove l.depths depth
    refine ⟨fun _ => trivial, fun _ => ⟨?_, fun e he => hne e (List.mem_of_mem_filter he)⟩⟩
    show subRefCount l.count ((l.depths.deleteDepthsAbove depth).2 % 2 ^ 64) =
      (l.depths.deleteDepthsAbove depth).1.total
    rw [Nat.mod_eq_of_lt (by omega), subRefCount, if_pos (by omega)]
    omega

/-- With the counts in step nothing is taken below zero. -/
theorem Sound.staysAboveZero (hl : l.Sound) : l.StaysAboveZero op := by
  cases op with
  | deleteDepthsAbove depth =>
    have htotal := total_deleteDepthsAbove l.depths depth
    have hcount := hl.1
    show (l.depths.deleteDepthsAbove depth).2 % 2 ^ 64 ≤ l.count
    have hmod := Nat.mod_le (l.depths.deleteDepthsAbove depth).2 (2 ^ 64)
    omega
  | _ => trivial

theorem soundAlong_iff_of_sound (h : l.WellFormed) (hl : l.Sound) {ops : List LeafOp}
    (hvalid : ∀ op ∈ ops, op.Valid) : l.SoundAlong ops ↔ l.SteadyAlong ops := by
  induction ops generalizing l with
  | nil => exact iff_of_true hl trivial
  | cons op ops ih =>
    have hstep := exec_sound_iff h hl (hvalid op List.mem_cons_self)
    have hrest : ∀ op ∈ ops, op.Valid := fun op hop => hvalid op (List.mem_cons_of_mem _ hop)
    show l.Sound ∧ l.StaysAboveZero op ∧ (op.exec l).SoundAlong ops ↔
      l.Steady op ∧ (op.exec l).SteadyAlong ops
    constructor
    · rintro ⟨-, -, halong⟩
      -- the counts are in step after the first operation, whatever comes then
      have hnext : (op.exec l).Sound := by
        cases ops with
        | nil => exact halong
        | cons => exact halong.1
      exact ⟨hstep.mp hnext, (ih (h.exec hl) hnext hrest).mp halong⟩
    · rintro ⟨hop, halong⟩
      have hnext := hstep.mpr hop
      exact ⟨hl, hl.staysAboveZero, (ih (h.exec hl) hnext hrest).mpr halong⟩

theorem sound_create {depth many : ℕ} (hpos : 0 < many) (hmany : many < 2 ^ 64) :
    (create depth many).Sound ∧ (create depth many).WellFormed := by
  have hcount : (0 + many) % 2 ^ 64 = many := by
    rw [Nat.zero_add, Nat.mod_eq_of_lt hmany]
  refine ⟨⟨?_, ?_⟩, ⟨List.pairwise_singleton _ _, Nat.mod_lt _ (by decide)⟩⟩
  · show (0 + many) % 2 ^ 64 = total [(depth, many)]
    rw [hcount]
    simp [total]
  · intro e he
    obtain rfl := List.mem_singleton.1 he
    exact Nat.ne_of_gt hpos

/-- **A sequence of operations on a new leaf** keeps `count` the sum of the depth counter, leaves no
depth with a count of zero and takes nothing below zero, exactly if every operation is steady in the
state it comes to. -/
theorem soundAlong_iff {depth many : ℕ} (hpos : 0 < many) (hmany : many < 2 ^ 64)
    {ops : List LeafOp} (hvalid : ∀ op ∈ ops, op.Valid) :
    (create depth many).SoundAlong ops ↔ (create depth many).SteadyAlong ops :=
  soundAlong_iff_of_sound (sound_create hpos hmany).2 (sound_create hpos hmany).1 hvalid

/-- Three derivations at two depths, of which one is taken away, and then the deeper ones. -/
theorem soundAlong_twoDepths :
    (create 3 1).SoundAlong [.addNew 5 2, .sub 3 1, .deleteDepthsAbove 4] := by
  refine (soundAlong_iff (by decide) (by decide) ?_).mpr ?_
  · simp [LeafOp.Valid]
  · exact ⟨Or.inl (by decide), Or.inl (by decide), trivial, trivial⟩

/-- **A removal at a depth that is not recorded.**  The only derivation is at depth three, the
removal at depth five takes it from `count` only, and `delete_depths_above` then goes below zero. -/
theorem not_forall_soundAlong : ¬ ∀ (depth many : ℕ) (ops : List LeafOp),
    0 < many → many < 2 ^ 64 → (∀ op ∈ ops, op.Valid) → (create depth many).SoundAlong ops := by
  intro hall
  have hops : ∀ op ∈ [LeafOp.sub 5 1, .deleteDepthsAbove 0], op.Valid := by simp [LeafOp.Valid]
  have halong := hall 3 1 [.sub 5 1, .deleteDepthsAbove 0] (by decide) (by decide) hops
  obtain ⟨-, -, ⟨hsum, -⟩, -⟩ := halong
  exact absurd hsum (by decide)

end CycleLeaf

end Meld
