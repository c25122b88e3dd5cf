import Mathlib.Data.Nat.Bitwise
import Mathlib.Data.List.Basic

/-!
# Bitmaps

`vm::bitmap` keeps a set of small numbers in 64-bit words: the first word inside the object, the
others in an array behind it.  The virtual machine uses it for the predicates a node has facts
of, for the rules waiting to run, and for the storage form of every linear predicate;
`bitmap_static` is the same structure with the words inline.

The operations are modelled word by word, as the source computes them.  What the rest of the
development uses is their reading as a finite set:

* `getBit_setBit`, `getBit_unsetBit`: the two updates act on the one element they name;
* `getBit_removeFront`: taking the front element out adds nothing.
-/

namespace Meld

/-- `BITMAP_BITS`: the width of `BITMAP_TYPE`, the 64-bit word of the target. -/
def bitmapBits : ℕ := 64

/-- One word of a bitmap, `BITMAP_TYPE`. -/
abbrev BitmapWord := BitVec 64

/-- `vm::bitmap`: the word stored inline and the array of further words. -/
structure Bitmap where
  first : BitmapWord
  rest : List BitmapWord
  deriving DecidableEq, Repr

namespace Bitmap

/-- `create` followed by `clear`: `size` words, all zero. -/
def create (size : ℕ) : Bitmap := ⟨0, List.replicate (size - 1) 0⟩

/-- The number of bits the allocated words hold. -/
def capacity (b : Bitmap) : ℕ := bitmapBits * (b.rest.length + 1)

/-- `*get_array(i)`: the word that holds bit `i`. -/
def getArray (b : Bitmap) (i : ℕ) : BitmapWord :=
  if i / bitmapBits = 0 then b.first else b.rest.getD (i / bitmapBits - 1) 0

/-- Store a word where `get_array(i)` points. -/
def setArray (b : Bitmap) (i : ℕ) (w : BitmapWord) : Bitmap :=
  if i / bitmapBits = 0 then { b with first := w }
  else { b with rest := b.rest.set (i / bitmapBits - 1) w }

/-- The word with the single bit `i % BITMAP_BITS`. -/
def bitMask (i : ℕ) : BitmapWord := BitVec.twoPow 64 (i % bitmapBits)

/-- `get_bit`. -/
def getBit (b : Bitmap) (i : ℕ) : Bool := (b.getArray i).getLsbD (i % bitmapBits)

/-- `set_bit`. -/
def setBit (b : Bitmap) (i : ℕ) : Bitmap := b.setArray i (b.getArray i ||| bitMask i)

/-- `unset_bit`. -/
def unsetBit (b : Bitmap) (i : ℕ) : Bitmap := b.setArray i (b.getArray i &&& ~~~bitMask i)

/-- `empty`: no word has a bit. -/
def empty (b : Bitmap) : Bool := b.first == 0 && b.rest.all (· == 0)

/-- `ffsl(w) - 1`: the position of the lowest bit of a word. -/
def lowestBit (w : BitmapWord) : ℕ := (List.range 64).findIdx (fun i => w.getLsbD i)

/-- Clear the lowest bit of a word, `a & (a - 1)`. -/
def clearLowest (w : BitmapWord) : BitmapWord := w &&& (w - 1)

/-- The loop of `remove_front` over the further words, `pos` being the position of the first bit of
the next word. -/
def removeFrontRest : ℕ → List BitmapWord → Option ℕ × List BitmapWord
  | _, [] => (none, [])
  | pos, w :: ws =>
    if w ≠ 0 then (some (pos + lowestBit w), clearLowest w :: ws)
    else
      let r := removeFrontRest (pos + bitmapBits) ws
      (r.1, w :: r.2)

/-- `remove_front`: the least element, and the bitmap without it.  The source returns `-1` on an
empty bitmap, here `none`. -/
def removeFront (b : Bitmap) : Option ℕ × Bitmap :=
  if b.first ≠ 0 then (some (lowestBit b.first), { b with first := clearLowest b.first })
  else
    let r := removeFrontRest bitmapBits b.rest
    (r.1, { b with rest := r.2 })

/-- `set_bits_of_and_result`: the words of the result are those of `a` and `b`, and-ed. -/
def setBitsOfAndResult (a b : Bitmap) (size : ℕ) : Bitmap :=
  ⟨a.first &&& b.first,
    (List.range (size - 1)).map fun i => a.rest.getD i 0 &&& b.rest.getD i 0⟩

/-! ## The words -/

@[simp] theorem capacity_create {size : ℕ} (h : 1 ≤ size) :
    (create size).capacity = bitmapBits * size := by
  simp only [capacity, create, List.length_replicate]
  rw [Nat.sub_add_cancel h]

@[simp] theorem getBit_create (size i : ℕ) : (create size).getBit i = false := by
  unfold getBit getArray create
  split
  · simp
  · simp

/-- An empty bitmap has no bits. -/
theorem getBit_of_empty {b : Bitmap} (h : b.empty = true) (i : ℕ) : b.getBit i = false := by
  simp only [empty, Bool.and_eq_true, beq_iff_eq, List.all_eq_true] at h
  have hword : b.getArray i = 0 := by
    unfold getArray
    split
    · exact h.1
    · rcases Nat.lt_or_ge (i / bitmapBits - 1) b.rest.length with hlt | hge
      · rw [List.getD_eq_getElem _ _ hlt]
        exact h.2 _ (List.getElem_mem hlt)
      · exact List.getD_eq_default _ _ hge
  rw [getBit, hword]
  exact BitVec.getLsbD_zero

@[simp] theorem capacity_setArray (b : Bitmap) (i : ℕ) (w : BitmapWord) :
    (b.setArray i w).capacity = b.capacity := by
  unfold setArray capacity
  split <;> simp

@[simp] theorem capacity_setBit (b : Bitmap) (i : ℕ) : (b.setBit i).capacity = b.capacity := by
  simp only [setBit, capacity_setArray]

@[simp] theorem capacity_unsetBit (b : Bitmap) (i : ℕ) :
    (b.unsetBit i).capacity = b.capacity := by
  simp only [unsetBit, capacity_setArray]

/-- Reading the word that was stored, and the others. -/
theorem getArray_setArray {b : Bitmap} {i : ℕ} (w : BitmapWord) (hi : i < b.capacity) (j : ℕ) :
    (b.setArray i w).getArray j =
      if j / bitmapBits = i / bitmapBits then w else b.getArray j := by
  have hcap : i / bitmapBits < b.rest.length + 1 :=
    Nat.div_lt_of_lt_mul hi
  unfold setArray getArray
  -- only the word numbers matter from here on
  generalize i / bitmapBits = a at hcap ⊢
  generalize j / bitmapBits = c
  by_cases ha : a = 0
  · by_cases hc : c = 0
    · simp [ha, hc]
    · simp [ha, hc]
  · by_cases hc : c = 0
    · have hne : ¬ 0 = a := fun h => ha h.symm
      simp [ha, hc, hne]
    · by_cases hca : c = a
      · have hlt : a - 1 < b.rest.length := by omega
        simp [ha, hca, List.getD_eq_getElem?_getD, hlt]
      · have hne : a - 1 ≠ c - 1 := by omega
        simp [ha, hc, hca, List.getD_eq_getElem?_getD, List.getElem?_set_ne hne]

theorem capacity_setBitsOfAndResult (a b : Bitmap) (size : ℕ) :
    (setBitsOfAndResult a b size).capacity = bitmapBits * (size - 1 + 1) := by
  simp [setBitsOfAndResult, capacity]

theorem getLsbD_bitMask (i j : ℕ) :
    (bitMask i).getLsbD (j % bitmapBits) = decide (i % bitmapBits = j % bitmapBits) := by
  have hj : j % bitmapBits < 64 := Nat.mod_lt _ (by decide)
  have hi : i % bitmapBits < 64 := Nat.mod_lt _ (by decide)
  rw [bitMask, BitVec.getLsbD_twoPow]
  simp [hi]

/-- Two positions are equal when their words and their places in the word are. -/
theorem eq_of_div_mod {i j : ℕ} (hd : j / bitmapBits = i / bitmapBits)
    (hm : i % bitmapBits = j % bitmapBits) : i = j := by
  rw [← Nat.div_add_mod i bitmapBits, ← Nat.div_add_mod j bitmapBits, hd, hm]

/-! ## The set a bitmap represents -/

/-- `set_bit` adds exactly its element. -/
theorem getBit_setBit {b : Bitmap} {i : ℕ} (hi : i < b.capacity) (j : ℕ) :
    (b.setBit i).getBit j = (decide (i = j) || b.getBit j) := by
  unfold getBit setBit
  rw [getArray_setArray _ hi]
  by_cases hd : j / bitmapBits = i / bitmapBits
  · have harr : b.getArray i = b.getArray j := by unfold getArray; rw [hd]
    rw [if_pos hd, BitVec.getLsbD_or, getLsbD_bitMask, harr]
    by_cases hm : i % bitmapBits = j % bitmapBits
    · simp [eq_of_div_mod hd hm]
    · have hne : i ≠ j := fun h => hm (h ▸ rfl)
      simp [hm, hne]
  · have hne : i ≠ j := fun h => hd (h ▸ rfl)
    rw [if_neg hd]
    simp [hne]

/-- `unset_bit` removes exactly its element. -/
theorem getBit_unsetBit {b : Bitmap} {i : ℕ} (hi : i < b.capacity) (j : ℕ) :
    (b.unsetBit i).getBit j = (!decide (i = j) && b.getBit j) := by
  unfold getBit unsetBit
  rw [getArray_setArray _ hi]
  by_cases hd : j / bitmapBits = i / bitmapBits
  · have harr : b.getArray i = b.getArray j := by unfold getArray; rw [hd]
    have hj : j % bitmapBits < 64 := Nat.mod_lt _ (by decide)
    rw [if_pos hd, BitVec.getLsbD_and, BitVec.getLsbD_not, getLsbD_bitMask, harr]
    by_cases hm : i % bitmapBits = j % bitmapBits
    · simp [eq_of_div_mod hd hm]
    · have hne : i ≠ j := fun h => hm (h ▸ rfl)
      simp [hm, hne, hj]
  · have hne : i ≠ j := fun h => hd (h ▸ rfl)
    rw [if_neg hd]
    simp [hne]

/-- The and of two bitmaps is their intersection, as far as the words go. -/
theorem getBit_setBitsOfAndResult (a b : Bitmap) {size i : ℕ} (hi : i < bitmapBits * size) :
    (setBitsOfAndResult a b size).getBit i = (a.getBit i && b.getBit i) := by
  have hword : i / bitmapBits < size := Nat.div_lt_of_lt_mul hi
  unfold getBit getArray setBitsOfAndResult
  generalize i / bitmapBits = w at hword ⊢
  split
  · exact BitVec.getLsbD_and
  · have hlt : w - 1 < size - 1 := by omega
    rw [← BitVec.getLsbD_and]
    simp [List.getD_eq_getElem?_getD, hlt]

/-- Clearing the lowest bit of a word sets none. -/
theorem getLsbD_of_clearLowest {w : BitmapWord} {i : ℕ} (h : (clearLowest w).getLsbD i = true) :
    w.getLsbD i = true := by
  rw [clearLowest, BitVec.getLsbD_and, Bool.and_eq_true] at h
  exact h.1

theorem getD_removeFrontRest {ws : List BitmapWord} {pos k i : ℕ}
    (h : ((removeFrontRest pos ws).2.getD k 0).getLsbD i = true) :
    (ws.getD k 0).getLsbD i = true := by
  induction ws generalizing pos k with
  | nil => simp [removeFrontRest] at h
  | cons w ws ih =>
    unfold removeFrontRest at h
    split at h
    · cases k with
      | zero => exact getLsbD_of_clearLowest h
      | succ k => exact h
    · cases k with
      | zero => exact h
      | succ k => exact ih h

/-- `remove_front` leaves no element that was not there. -/
theorem getBit_removeFront {b : Bitmap} {i : ℕ} (h : b.removeFront.2.getBit i = true) :
    b.getBit i = true := by
  unfold removeFront at h
  split at h
  · unfold getBit getArray at h ⊢
    split at h
    · rename_i h0
      rw [if_pos h0]
      exact getLsbD_of_clearLowest h
    · rename_i h0
      rw [if_neg h0]
      exact h
  · unfold getBit getArray at h ⊢
    split at h
    · rename_i h0
      rw [if_pos h0]
      exact h
    · rename_i h0
      rw [if_neg h0]
      exact getD_removeFrontRest h

theorem length_removeFrontRest (pos : ℕ) (ws : List BitmapWord) :
    (removeFrontRest pos ws).2.length = ws.length := by
  induction ws generalizing pos with
  | nil => rfl
  | cons w ws ih =>
    unfold removeFrontRest
    split
    · rfl
    · simp [ih]

@[simp] theorem capacity_removeFront (b : Bitmap) :
    b.removeFront.2.capacity = b.capacity := by
  unfold removeFront capacity
  split
  · rfl
  · simp [length_removeFrontRest]

end Bitmap

end Meld
