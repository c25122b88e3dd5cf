import Meld.Lib.Scan
import Meld.Vm.Bitmap
import Mathlib.Data.Finset.Sort
import Mathlib.Data.Nat.Bitwise
import Mathlib.Order.Bounds.Basic

/-!
# Static bitmaps

`vm::bitmap_static` is a bitmap with its words inline: an array of as many words as the template
argument says.

* `BitmapStatic`: the words with the operations, and the iterator.
* `wordsMembers`: the set of naturals that a list of words stands for.
* `isLeast_removeFront`: the loop that all searches for the front share finds the least element, and
  takes it out.
* `BitmapStatic.members_setBit`, ...: what the operations do to the set.
-/

namespace Meld

open Bitmap

/-- `vm::bitmap_static<SIZE>`. -/
structure BitmapStatic (size : ℕ) where
  data : List BitmapWord
  length_data : data.length = size

namespace Bitmap

/-- The loop of `unset_front`. -/
def unsetFrontRest : List BitmapWord → List BitmapWord
  | [] => []
  | a :: ws => if a ≠ 0 then clearLowest a :: ws else a :: unsetFrontRest ws

theorem unsetFrontRest_eq (pos : ℕ) (ws : List BitmapWord) :
    unsetFrontRest ws = (removeFrontRest pos ws).2 := by
  induction ws generalizing pos with
  | nil => rfl
  | cons w ws ih =>
    unfold unsetFrontRest removeFrontRest
    split
    · rfl
    · rw [ih (pos + bitmapBits)]

end Bitmap

namespace BitmapStatic

variable {size : ℕ}

/-- `data[SIZE] = {}`, and `clear`. -/
def create (size : ℕ) : BitmapStatic size := ⟨List.replicate size 0, List.length_replicate⟩

/-- The loops that compute word `i` from the words `i` of their arguments. -/
def ofWords (f : ℕ → BitmapWord) : BitmapStatic size :=
  ⟨(List.range size).map f, by rw [List.length_map, List.length_range]⟩

/-- Word `i`. -/
def word (b : BitmapStatic size) (i : ℕ) : BitmapWord := b.data.getD i 0

/-- `*get_array(i)`. -/
def getArray (b : BitmapStatic size) (i : ℕ) : BitmapWord := b.word (i / bitmapBits)

/-- Store a word where `get_array(i)` points. -/
def setArray (b : BitmapStatic size) (i : ℕ) (w : BitmapWord) : BitmapStatic size :=
  ⟨b.data.set (i / bitmapBits) w, by rw [List.length_set, b.length_data]⟩

/-- `get_bit`. -/
def getBit (b : BitmapStatic size) (i : ℕ) : Bool := (b.getArray i).getLsbD (i % bitmapBits)

/-- `set_bit`. -/
def setBit (b : BitmapStatic size) (i : ℕ) : BitmapStatic size :=
  b.setArray i (b.getArray i ||| bitMask i)

/-- `unset_bit`. -/
def unsetBit (b : BitmapStatic size) (i : ℕ) : BitmapStatic size :=
  b.setArray i (b.getArray i &&& ~~~bitMask i)

/-- `empty`. -/
def empty (b : BitmapStatic size) : Bool := b.data.all (· == 0)

/-- The loop of `front`. -/
def frontRest : ℕ → List BitmapWord → Option ℕ
  | _, [] => none
  | pos, a :: ws => if a ≠ 0 then some (pos + lowestBit a) else frontRest (pos + bitmapBits) ws

/-- `front`. -/
def front (b : BitmapStatic size) : Option ℕ := frontRest 0 b.data

/-- `unset_front`. -/
def unsetFront (b : BitmapStatic size) : BitmapStatic size :=
  ⟨unsetFrontRest b.data, by
    rw [unsetFrontRest_eq 0, length_removeFrontRest, b.length_data]⟩

/-- `remove_front`. -/
def removeFront (b : BitmapStatic size) : Option ℕ × BitmapStatic size :=
  ((removeFrontRest 0 b.data).1,
    ⟨(removeFrontRest 0 b.data).2, by rw [length_removeFrontRest, b.length_data]⟩)

/-- `unset_bits`. -/
def unsetBits (b other : BitmapStatic size) : BitmapStatic size :=
  ofWords fun i => b.word i &&& ~~~other.word i

/-- `set_bits_or`. -/
def setBitsOr (b other : BitmapStatic size) : BitmapStatic size :=
  ofWords fun i => b.word i ||| other.word i

/-- `set_bits_of_and_result`. -/
def setBitsOfAndResult (x y : BitmapStatic size) : BitmapStatic size :=
  ofWords fun i => x.word i &&& y.word i

/-- `unset_bits_of_and_result`. -/
def unsetBitsOfAndResult (b x y : BitmapStatic size) : BitmapStatic size :=
  ofWords fun i => b.word i &&& ~~~(x.word i &&& y.word i)

/-- `bitmap_static::iterator`: `data` is the number of the word. -/
structure Iterator where
  data : ℕ
  pos : ℕ
  total : ℕ

/-- `move_position`, `end` and the test of `find_first_pos`. -/
def iterator (b : BitmapStatic size) (items : ℕ) : Scan Iterator where
  items := items
  total it := it.total
  flag it := (b.word it.data).getLsbD it.pos
  move it :=
    let pos := it.pos + 1
    let total := it.total + 1
    if total = items then (false, { it with pos, total })
    else if pos = bitmapBits then (true, ⟨it.data + 1, 0, total⟩)
    else (true, { it with pos, total })

/-- `begin(items)`, and what the iterator gives until its end. -/
def enumerate (b : BitmapStatic size) (items : ℕ) : List ℕ :=
  (b.iterator items).enumerate items ((b.iterator items).find items ⟨0, 0, 0⟩)

end BitmapStatic

/-! ## The set of a list of words -/

/-- Bit `n` of the words. -/
def wordsBit (ws : List BitmapWord) (n : ℕ) : Bool :=
  (ws.getD (n / bitmapBits) 0).getLsbD (n % bitmapBits)

/-- The set the words stand for. -/
def wordsMembers (ws : List BitmapWord) : Finset ℕ :=
  (Finset.range (bitmapBits * ws.length)).filter fun n => wordsBit ws n = true

variable {ws : List BitmapWord} {n : ℕ}

theorem lt_of_wordsBit (h : wordsBit ws n = true) : n < bitmapBits * ws.length := by
  by_contra hn
  have hword : ws.length ≤ n / bitmapBits :=
    (Nat.le_div_iff_mul_le (by decide)).2 (Nat.mul_comm .. ▸ Nat.not_lt.1 hn)
  rw [wordsBit, List.getD_eq_default _ _ hword] at h
  exact absurd h (by simp)

@[simp] theorem mem_wordsMembers : n ∈ wordsMembers ws ↔ wordsBit ws n = true := by
  rw [wordsMembers, Finset.mem_filter, Finset.mem_range]
  exact ⟨fun h => h.2, fun h => ⟨lt_of_wordsBit h, h⟩⟩

theorem wordsBit_cons_of_lt (w : BitmapWord) (hn : n < bitmapBits) :
    wordsBit (w :: ws) n = w.getLsbD n := by
  rw [wordsBit, Nat.div_eq_of_lt hn, Nat.mod_eq_of_lt hn]
  rfl

theorem wordsBit_cons_add (w : BitmapWord) (n : ℕ) :
    wordsBit (w :: ws) (bitmapBits + n) = wordsBit ws n := by
  rw [wordsBit, wordsBit, Nat.add_mod_left, Nat.add_div_left n (by decide : 0 < bitmapBits)]
  rfl

/-- A bit is in the first word or behind it. -/
theorem lt_or_exists_add (n : ℕ) : n < bitmapBits ∨ ∃ m, n = bitmapBits + m := by
  rcases Nat.lt_or_ge n bitmapBits with hn | hn
  · exact .inl hn
  · exact .inr ⟨n - bitmapBits, (Nat.add_sub_of_le hn).symm⟩

/-- The position behind the last one of a word. -/
theorem succ_of_last (h : n % bitmapBits + 1 = bitmapBits) :
    (n + 1) / bitmapBits = n / bitmapBits + 1 ∧ (n + 1) % bitmapBits = 0 := by
  unfold bitmapBits at *
  omega

/-- The position behind another one. -/
theorem succ_of_not_last (h : ¬ n % bitmapBits + 1 = bitmapBits) :
    (n + 1) / bitmapBits = n / bitmapBits ∧ (n + 1) % bitmapBits = n % bitmapBits + 1 := by
  unfold bitmapBits at *
  omega

/-! ## The front -/

/-- Clearing the lowest bit of a number: `x` is that bit and those above it. -/
theorem testBit_and_pred {x k : ℕ} (hk : x.testBit k = true)
    (hlow : ∀ i < k, x.testBit i = false) (i : ℕ) :
    (x &&& (x - 1)).testBit i = (x.testBit i && decide (i ≠ k)) := by
  have hmod : x % 2 ^ (k + 1) = 2 ^ k := by
    refine Nat.eq_of_testBit_eq fun i => ?_
    rw [Nat.testBit_mod_two_pow, Nat.testBit_two_pow]
    rcases Nat.lt_trichotomy i k with hi | rfl | hi
    · rw [hlow i hi]
      simp [Nat.ne_of_gt hi]
    · simp [hk]
    · simp [Nat.ne_of_lt hi, Nat.not_lt.2 hi]
  have hx : x = 2 ^ (k + 1) * (x / 2 ^ (k + 1)) + 2 ^ k := by
    conv_lhs => rw [← Nat.div_add_mod x (2 ^ (k + 1)), hmod]
  have hpow : 0 < 2 ^ k := Nat.two_pow_pos k
  have hpred : x - 1 = 2 ^ (k + 1) * (x / 2 ^ (k + 1)) + (2 ^ k - 1) := by omega
  have hlt : 2 ^ k < 2 ^ (k + 1) := Nat.pow_lt_pow_right (by decide) (Nat.lt_succ_self k)
  have hbit (j : ℕ) : (x - 1).testBit j =
      if j < k + 1 then (2 ^ k - 1).testBit j else (x / 2 ^ (k + 1)).testBit (j - (k + 1)) := by
    rw [hpred, Nat.testBit_two_pow_mul_add _ (by omega)]
  have hbit' (j : ℕ) : x.testBit j =
      if j < k + 1 then (2 ^ k).testBit j else (x / 2 ^ (k + 1)).testBit (j - (k + 1)) := by
    conv_lhs => rw [hx]
    rw [Nat.testBit_two_pow_mul_add _ hlt]
  rw [Nat.testBit_and]
  by_cases hi : i < k + 1
  · rw [hbit, if_pos hi, Nat.testBit_two_pow_sub_one]
    rcases Nat.lt_or_eq_of_le (Nat.le_of_lt_succ hi) with hi | rfl
    · rw [hlow i hi]
      rfl
    · simp
  · have hne : i ≠ k := by omega
    rw [hbit, hbit', if_neg hi, if_neg hi, Bool.and_self]
    simp [hne]

theorem lowestBit_spec {w : BitmapWord} (hw : w ≠ 0) :
    lowestBit w < bitmapBits ∧ w.getLsbD (lowestBit w) = true ∧
      ∀ i < lowestBit w, w.getLsbD i = false := by
  have hex : ∃ i ∈ List.range 64, w.getLsbD i = true := by
    by_contra hnone
    refine hw (BitVec.eq_of_getLsbD_eq fun i hi => ?_)
    have hbit : w.getLsbD i = false :=
      Bool.eq_false_iff.2 fun h => hnone ⟨i, List.mem_range.2 hi, h⟩
    rw [hbit]
    exact BitVec.getLsbD_zero.symm
  have hlt := List.findIdx_lt_length_of_exists hex
  have hget := List.findIdx_getElem (w := hlt)
  rw [List.getElem_range] at hget
  rw [List.length_range] at hlt
  refine ⟨hlt, hget, fun i hi => ?_⟩
  have hnot := List.not_of_lt_findIdx hi
  rw [List.getElem_range] at hnot
  exact hnot

theorem getLsbD_clearLowest {w : BitmapWord} (hw : w ≠ 0) (i : ℕ) :
    (clearLowest w).getLsbD i = (w.getLsbD i && decide (i ≠ lowestBit w)) := by
  obtain ⟨-, hset, hlow⟩ := lowestBit_spec hw
  have hpos : w.toNat ≠ 0 := fun h => hw (BitVec.eq_of_toNat_eq h)
  have hpred : (w - 1).toNat = w.toNat - 1 := by
    have hlt := w.isLt
    rw [BitVec.toNat_sub]
    simp
    omega
  rw [clearLowest, ← BitVec.testBit_toNat, ← BitVec.testBit_toNat, BitVec.toNat_and, hpred]
  exact testBit_and_pred hset hlow i
/-- The least element, if the first word has one. -/
theorem isLeast_cons_of_ne_zero {w : BitmapWord} (hw : w ≠ 0) :
    IsLeast {i | wordsBit (w :: ws) i = true} (lowestBit w) := by
  obtain ⟨hlt, hset, hlow⟩ := lowestBit_spec hw
  refine ⟨(wordsBit_cons_of_lt w hlt).trans hset, fun i hi => Nat.not_lt.1 fun hlower => ?_⟩
  have hbit : wordsBit (w :: ws) i = true := hi
  rw [wordsBit_cons_of_lt w (Nat.lt_trans hlower hlt), hlow i hlower] at hbit
  exact Bool.false_ne_true hbit

/-- The least element, if the first word has none. -/
theorem isLeast_of_cons_zero (h : IsLeast {i | wordsBit (0 :: ws) i = true} n) :
    ∃ m, n = bitmapBits + m ∧ IsLeast {i | wordsBit ws i = true} m := by
  obtain ⟨hn, hlower⟩ := h
  rcases lt_or_exists_add n with hlt | ⟨m, rfl⟩
  · have hbit : wordsBit (0 :: ws) n = true := hn
    rw [wordsBit_cons_of_lt 0 hlt] at hbit
    exact absurd hbit (by simp)
  · refine ⟨m, rfl, (wordsBit_cons_add 0 m).symm.trans hn, fun i hi => ?_⟩
    exact Nat.le_of_add_le_add_left (hlower ((wordsBit_cons_add 0 i).trans hi))

/-- **The loop over the words** finds the least element and takes it out. -/
theorem removeFrontRest_spec (pos : ℕ) (h : IsLeast {i | wordsBit ws i = true} n) :
    (removeFrontRest pos ws).1 = some (pos + n) ∧
      ∀ i, wordsBit (removeFrontRest pos ws).2 i = (wordsBit ws i && decide (i ≠ n)) := by
  induction ws generalizing pos n with
  | nil => exact absurd (lt_of_wordsBit h.1) (Nat.not_lt_zero n)
  | cons w ws ih =>
    by_cases hw : w ≠ 0
    · obtain rfl := h.unique (isLeast_cons_of_ne_zero hw)
      have hlt := (lowestBit_spec hw).1
      rw [removeFrontRest, if_pos hw]
      refine ⟨rfl, fun i => ?_⟩
      rcases lt_or_exists_add i with hi | ⟨j, rfl⟩
      · rw [wordsBit_cons_of_lt _ hi, wordsBit_cons_of_lt _ hi, getLsbD_clearLowest hw]
      · have hne : bitmapBits + j ≠ lowestBit w := by omega
        rw [wordsBit_cons_add, wordsBit_cons_add, decide_eq_true hne, Bool.and_true]
    · obtain rfl := not_not.1 hw
      obtain ⟨m, rfl, hm⟩ := isLeast_of_cons_zero h
      obtain ⟨hfound, hbits⟩ := ih (pos + bitmapBits) hm
      rw [removeFrontRest, if_neg hw]
      refine ⟨hfound.trans (congrArg some (Nat.add_assoc ..)), fun i => ?_⟩
      rcases lt_or_exists_add i with hi | ⟨j, rfl⟩
      · have hne : i ≠ bitmapBits + m := by omega
        rw [wordsBit_cons_of_lt _ hi, wordsBit_cons_of_lt _ hi, decide_eq_true hne, Bool.and_true]
      · have hiff : bitmapBits + j ≠ bitmapBits + m ↔ j ≠ m := by omega
        rw [wordsBit_cons_add, wordsBit_cons_add, hbits, decide_eq_decide.2 hiff]

theorem frontRest_eq (pos : ℕ) (ws : List BitmapWord) :
    BitmapStatic.frontRest pos ws = (removeFrontRest pos ws).1 := by
  induction ws generalizing pos with
  | nil => rfl
  | cons w ws ih =>
    unfold BitmapStatic.frontRest removeFrontRest
    split
    · rfl
    · exact ih (pos + bitmapBits)

/-! ## The operations and the set -/

/-- All words are zero. -/
theorem all_eq_zero_iff : ws.all (· == 0) = true ↔ wordsMembers ws = ∅ := by
  rw [Finset.eq_empty_iff_forall_notMem, List.all_eq_true]
  constructor
  · intro h n hn
    have hbit := mem_wordsMembers.1 hn
    have hlt : n / bitmapBits < ws.length := Nat.div_lt_of_lt_mul (lt_of_wordsBit hbit)
    rw [wordsBit, List.getD_eq_getElem _ _ hlt, eq_of_beq (h _ (List.getElem_mem hlt))] at hbit
    exact absurd hbit (by simp)
  · intro h w hw
    obtain ⟨k, hk, rfl⟩ := List.getElem_of_mem hw
    refine beq_iff_eq.2 (BitVec.eq_of_getLsbD_eq fun i hi => ?_)
    have hi : i < bitmapBits := hi
    have hbit : ¬ wordsBit ws (bitmapBits * k + i) = true := fun hbit =>
      h _ (mem_wordsMembers.2 hbit)
    have hdiv : (bitmapBits * k + i) / bitmapBits = k := by
      rw [Nat.mul_add_div (by decide), Nat.div_eq_of_lt hi, Nat.add_zero]
    have hmod : (bitmapBits * k + i) % bitmapBits = i := by
      rw [Nat.mul_add_mod, Nat.mod_eq_of_lt hi]
    rw [wordsBit, hdiv, hmod, List.getD_eq_getElem _ _ hk] at hbit
    rw [Bool.eq_false_iff.2 hbit]
    exact BitVec.getLsbD_zero.symm

namespace BitmapStatic

variable {size : ℕ} {b other x y : BitmapStatic size}

/-- The set the bitmap stands for. -/
def members (b : BitmapStatic size) : Finset ℕ := wordsMembers b.data

theorem mem_members : n ∈ b.members ↔ b.getBit n = true := mem_wordsMembers

theorem getBit_eq_decide (b : BitmapStatic size) (n : ℕ) :
    b.getBit n = decide (n ∈ b.members) :=
  Bool.eq_iff_iff.2 (mem_members.symm.trans decide_eq_true_iff.symm)

theorem getBit_setArray (w : BitmapWord) {i : ℕ} (hi : i < bitmapBits * size) (j : ℕ) :
    (b.setArray i w).getBit j =
      if j / bitmapBits = i / bitmapBits then w.getLsbD (j % bitmapBits) else b.getBit j := by
  have hlt : i / bitmapBits < b.data.length := by
    rw [b.length_data]
    exact Nat.div_lt_of_lt_mul hi
  unfold getBit getArray word setArray
  by_cases hij : j / bitmapBits = i / bitmapBits
  · rw [if_pos hij, hij, List.getD_eq_getElem?_getD, List.getElem?_set_self hlt]
    rfl
  · have hne : i / bitmapBits ≠ j / bitmapBits := fun h => hij h.symm
    rw [if_neg hij, List.getD_eq_getElem?_getD, List.getElem?_set_ne hne,
      ← List.getD_eq_getElem?_getD]

theorem getBit_ofWords (f : ℕ → BitmapWord) (hn : n < bitmapBits * size) :
    (ofWords f : BitmapStatic size).getBit n = (f (n / bitmapBits)).getLsbD (n % bitmapBits) := by
  have hlt : n / bitmapBits < size := Nat.div_lt_of_lt_mul hn
  unfold getBit getArray word ofWords
  rw [List.getD_eq_getElem?_getD, List.getElem?_map, List.getElem?_range hlt]
  rfl

/-- A member is below the capacity. -/
theorem lt_of_mem (h : n ∈ b.members) : n < bitmapBits * size := by
  rw [← b.length_data]
  exact lt_of_wordsBit (mem_members.1 h)

theorem members_create : (create size).members = ∅ := by
  refine all_eq_zero_iff.1 (List.all_eq_true.2 fun w hw => ?_)
  exact beq_iff_eq.2 (List.eq_of_mem_replicate hw)

theorem members_setBit {i : ℕ} (hi : i < bitmapBits * size) :
    (b.setBit i).members = insert i b.members := by
  ext n
  rw [Finset.mem_insert, mem_members, mem_members, setBit, getBit_setArray _ hi]
  by_cases hd : n / bitmapBits = i / bitmapBits
  · have hword : b.getArray i = b.getArray n := by rw [getArray, getArray, hd]
    rw [if_pos hd, BitVec.getLsbD_or, getLsbD_bitMask, hword, Bool.or_eq_true, decide_eq_true_iff,
      or_comm]
    refine or_congr_left ⟨fun hm => (eq_of_div_mod hd hm).symm, fun h => ?_⟩
    rw [h]
  · have hne : n ≠ i := fun h => hd (h ▸ rfl)
    rw [if_neg hd]
    exact ⟨.inr, fun h => h.resolve_left hne⟩

theorem members_unsetBit {i : ℕ} (hi : i < bitmapBits * size) :
    (b.unsetBit i).members = b.members.erase i := by
  ext n
  rw [Finset.mem_erase, mem_members, mem_members, unsetBit, getBit_setArray _ hi]
  by_cases hd : n / bitmapBits = i / bitmapBits
  · have hword : b.getArray i = b.getArray n := by rw [getArray, getArray, hd]
    have hn : n % bitmapBits < 64 := Nat.mod_lt _ (by decide)
    rw [if_pos hd, BitVec.getLsbD_and, BitVec.getLsbD_not, getLsbD_bitMask, hword]
    by_cases hm : i % bitmapBits = n % bitmapBits
    · simp [eq_of_div_mod hd hm]
    · have hne : n ≠ i := fun h => hm (h ▸ rfl)
      simp [hm, hn, hne, getBit]
  · have hne : n ≠ i := fun h => hd (h ▸ rfl)
    rw [if_neg hd]
    exact ⟨fun h => ⟨hne, h⟩, fun h => h.2⟩

theorem empty_iff : b.empty = true ↔ b.members = ∅ := all_eq_zero_iff

/-- **`remove_front`**, if there is an element. -/
theorem isLeast_removeFront (h : IsLeast ↑b.members n) :
    b.removeFront.1 = some n ∧ b.removeFront.2.members = b.members.erase n := by
  have hleast : IsLeast {i | wordsBit b.data i = true} n :=
    ⟨mem_members.1 h.1, fun i hi => h.2 (mem_members.2 hi)⟩
  obtain ⟨hfound, hbits⟩ := removeFrontRest_spec 0 hleast
  refine ⟨hfound.trans (congrArg some (Nat.zero_add n)), ?_⟩
  ext i
  rw [Finset.mem_erase, members, members, mem_wordsMembers, mem_wordsMembers, removeFront, hbits,
    Bool.and_eq_true, decide_eq_true_iff, and_comm]

theorem front_eq (b : BitmapStatic size) : b.front = b.removeFront.1 := frontRest_eq 0 b.data

theorem unsetFront_eq (b : BitmapStatic size) : b.unsetFront = b.removeFront.2 := by
  unfold unsetFront removeFront
  simp only [unsetFrontRest_eq 0]

theorem mem_ofWords (f : ℕ → BitmapWord) : n ∈ (ofWords f : BitmapStatic size).members ↔
    n < bitmapBits * size ∧ (f (n / bitmapBits)).getLsbD (n % bitmapBits) = true := by
  constructor
  · intro h
    have hn := lt_of_mem h
    exact ⟨hn, (getBit_ofWords f hn).symm.trans (mem_members.1 h)⟩
  · rintro ⟨hn, h⟩
    exact mem_members.2 ((getBit_ofWords f hn).trans h)

theorem members_unsetBits : (b.unsetBits other).members = b.members \ other.members := by
  ext n
  have hmod : n % bitmapBits < 64 := Nat.mod_lt _ (by decide)
  rw [unsetBits, mem_ofWords, Finset.mem_sdiff, mem_members, mem_members, BitVec.getLsbD_and,
    BitVec.getLsbD_not, decide_eq_true hmod, Bool.true_and, Bool.and_eq_true, Bool.not_eq_true']
  refine ⟨fun h => ⟨h.2.1, Bool.eq_false_iff.1 h.2.2⟩, fun h => ⟨?_, h.1, Bool.eq_false_iff.2 h.2⟩⟩
  exact lt_of_mem (mem_members.2 h.1)

theorem members_setBitsOr : (b.setBitsOr other).members = b.members ∪ other.members := by
  ext n
  rw [setBitsOr, mem_ofWords, Finset.mem_union, mem_members, mem_members, BitVec.getLsbD_or,
    Bool.or_eq_true]
  refine ⟨fun h => h.2, fun h => ⟨?_, h⟩⟩
  rcases h with h | h
  · exact lt_of_mem (mem_members.2 h)
  · exact lt_of_mem (mem_members.2 h)

theorem members_setBitsOfAndResult :
    (setBitsOfAndResult x y).members = x.members ∩ y.members := by
  ext n
  rw [setBitsOfAndResult, mem_ofWords, Finset.mem_inter, mem_members, mem_members,
    BitVec.getLsbD_and, Bool.and_eq_true]
  exact ⟨fun h => h.2, fun h => ⟨lt_of_mem (mem_members.2 h.1), h⟩⟩

theorem members_unsetBitsOfAndResult :
    (b.unsetBitsOfAndResult x y).members = b.members \ (x.members ∩ y.members) := by
  ext n
  have hmod : n % bitmapBits < 64 := Nat.mod_lt _ (by decide)
  rw [unsetBitsOfAndResult, mem_ofWords, Finset.mem_sdiff, Finset.mem_inter, mem_members,
    mem_members, mem_members, BitVec.getLsbD_and, BitVec.getLsbD_not, decide_eq_true hmod,
    Bool.true_and, BitVec.getLsbD_and, Bool.and_eq_true, Bool.not_eq_true', ← Bool.not_eq_true,
    Bool.and_eq_true]
  exact ⟨fun h => h.2, fun h => ⟨lt_of_mem (mem_members.2 h.1), h⟩⟩

/-! ## The iterator -/

/-- The iterator stands at position `t`. -/
structure At (t : ℕ) (it : Iterator) : Prop where
  data : it.data = t / bitmapBits
  pos : it.pos = t % bitmapBits
  total : it.total = t

theorem walks (b : BitmapStatic size) (items : ℕ) : (b.iterator items).Walks b.getBit At where
  total h := h.total
  flag h := by
    show (b.word _).getLsbD _ = _
    rw [h.data, h.pos]
    rfl
  move := by
    intro t it h hlt
    obtain ⟨hdata, hpos, htotal⟩ := h
    have hne : it.total + 1 ≠ items := htotal.symm ▸ Nat.ne_of_lt hlt
    unfold iterator
    dsimp only
    rw [if_neg hne]
    by_cases hword : it.pos + 1 = bitmapBits
    · obtain ⟨hdiv, hmod⟩ := succ_of_last (hpos ▸ hword)
      rw [if_pos hword]
      exact ⟨rfl, hdata ▸ hdiv.symm, hmod.symm, congrArg (· + 1) htotal⟩
    · obtain ⟨hdiv, hmod⟩ := succ_of_not_last (hpos ▸ hword)
      rw [if_neg hword]
      exact ⟨rfl, hdata.trans hdiv.symm, hpos ▸ hmod.symm, congrArg (· + 1) htotal⟩
  last := by
    intro t it h hlast
    have heq : it.total + 1 = items := h.total.symm ▸ hlast
    unfold iterator
    dsimp only
    rw [if_pos heq]
    exact ⟨rfl, heq⟩

/-- **The iterator** gives the members below `items` in ascending order. -/
theorem enumerate_eq {items : ℕ} (hitems : 1 ≤ items) :
    b.enumerate items = (List.range items).filter b.getBit := by
  have hAt : At 0 ⟨0, 0, 0⟩ := ⟨rfl, rfl, rfl⟩
  rw [enumerate, (walks b items).enumerate_find (Nat.zero_add items) hitems (Nat.le_refl _) hAt,
    List.range_eq_range']

end BitmapStatic

end Meld
