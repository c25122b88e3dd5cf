import Meld.Vm.BitmapStatic

/-!
# Bitmaps as sets

`vm::bitmap` and `vm::bitmap_static` are two representations of finite sets of naturals.  Here are
the operations of `bitmap` that are not in `Meld.Vm.Bitmap`, and sequences of operations on several
bitmaps of one size.

* `Bitmap.front`, ..., `Bitmap.enumerate`: as the source has them.  `front` counts the position in
  an `int`.
* `SameWords`: a `bitmap` and a `bitmap_static` with the same words; the operations keep them so.
* `BitmapImpl`, `BitmapOp`, `run`: a representation of sets, and sequences of operations.
* `Refines.run_eq_iff`: a representation does to its sets what the operations mean, as far as the
  front is in range.
* `bitmaps_implement_sets`: the two representations.
-/

namespace Meld

open Bitmap

namespace Bitmap

/-! ## The other operations of `bitmap` -/

/-- A sum of type `int`, undefined when it overflows. -/
def intAdd (a b : ℕ) : Option ℕ := if a + b < 2 ^ 31 then some (a + b) else none

/-- The loop of `front`, where `pos` is an `int`; the inner `none` is `-1`. -/
def frontRest : ℕ → List BitmapWord → Option (Option ℕ)
  | _, [] => some none
  | pos, a :: ws =>
    if a ≠ 0 then (intAdd pos (lowestBit a + 1)).map fun r => some (r - 1)
    else (intAdd pos bitmapBits).bind fun pos => frontRest pos ws

/-- `front`. -/
def front (b : Bitmap) (size : ℕ) : Option (Option ℕ) :=
  if size = 1 then
    if b.first ≠ 0 then some (some (lowestBit b.first)) else some none
  else if b.first ≠ 0 then some (some (lowestBit b.first))
  else frontRest bitmapBits b.rest

/-- `unset_front`. -/
def unsetFront (b : Bitmap) : Bitmap :=
  if b.first ≠ 0 then { b with first := clearLowest b.first }
  else { b with rest := unsetFrontRest b.rest }

/-- Word `i` of the further words. -/
def restWord (b : Bitmap) (i : ℕ) : BitmapWord := b.rest.getD i 0

/-- `unset_bits`. -/
def unsetBits (b other : Bitmap) (size : ℕ) : Bitmap :=
  if size = 1 then { b with first := b.first &&& ~~~other.first }
  else ⟨b.first &&& ~~~other.first,
    (List.range (size - 1)).map fun i => b.restWord i &&& ~~~other.restWord i⟩

/-- `set_bits_or`. -/
def setBitsOr (b other : Bitmap) (size : ℕ) : Bitmap :=
  ⟨b.first ||| other.first,
    (List.range (size - 1)).map fun i => b.restWord i ||| other.restWord i⟩

/-- `unset_bits_of_and_result`. -/
def unsetBitsOfAndResult (b x y : Bitmap) (size : ℕ) : Bitmap :=
  ⟨b.first &&& ~~~(x.first &&& y.first),
    (List.range (size - 1)).map fun i => b.restWord i &&& ~~~(x.restWord i &&& y.restWord i)⟩

/-- `bitmap::iterator`: `rest` is the number of the word in the array, once it is there. -/
structure Iterator where
  inFirst : Bool
  rest : ℕ
  pos : ℕ
  total : ℕ

/-- `move_position`, `end` and the test of `find_first_pos`. -/
def iterator (b : Bitmap) (items : ℕ) : Scan Iterator where
  items := items
  total it := it.total
  flag it := (if it.inFirst then b.first else b.restWord it.rest).getLsbD it.pos
  move it :=
    let pos := it.pos + 1
    let total := it.total + 1
    if total = items then (false, { it with pos, total })
    else if pos = bitmapBits then
      if it.inFirst then (true, ⟨false, 0, 0, total⟩) else (true, ⟨false, it.rest + 1, 0, total⟩)
    else (true, { it with pos, total })

/-- `begin(items)`, and what the iterator gives until its end.  A bitmap of one word has no
array. -/
def enumerate (b : Bitmap) (size items : ℕ) : List ℕ :=
  if size = 1 ∧ b.first = 0 then (b.iterator items).enumerate items ⟨true, 0, 0, items⟩
  else (b.iterator items).enumerate items ((b.iterator items).find items ⟨true, 0, 0, 0⟩)

end Bitmap

/-! ## The same words -/

/-- A `bitmap` and a `bitmap_static` of the same words. -/
def SameWords {size : ℕ} (b : Bitmap) (s : BitmapStatic size) : Prop := b.first :: b.rest = s.data

namespace SameWords

variable {size : ℕ} {b b' b'' : Bitmap} {s s' s'' : BitmapStatic size} {n : ℕ}

theorem create (hsize : 1 ≤ size) : SameWords (Bitmap.create size) (BitmapStatic.create size) := by
  obtain ⟨m, rfl⟩ := Nat.exists_eq_add_of_le' hsize
  exact List.replicate_succ.symm

theorem word_zero (h : SameWords b s) : s.word 0 = b.first := by
  rw [BitmapStatic.word, ← h]
  rfl

theorem word_succ (h : SameWords b s) (i : ℕ) : s.word (i + 1) = b.restWord i := by
  rw [BitmapStatic.word, ← h]
  rfl

theorem getArray (h : SameWords b s) (i : ℕ) : b.getArray i = s.getArray i := by
  unfold Bitmap.getArray BitmapStatic.getArray
  by_cases hi : i / bitmapBits = 0
  · rw [if_pos hi, hi, h.word_zero]
  · obtain ⟨k, hk⟩ := Nat.exists_eq_add_one_of_ne_zero hi
    rw [if_neg hi, hk, h.word_succ]
    rfl

theorem setArray (h : SameWords b s) (i : ℕ) (w : BitmapWord) :
    SameWords (b.setArray i w) (s.setArray i w) := by
  unfold SameWords Bitmap.setArray
  show _ = s.data.set (i / bitmapBits) w
  rw [← h]
  by_cases hi : i / bitmapBits = 0
  · rw [if_pos hi, hi]
    rfl
  · obtain ⟨k, hk⟩ := Nat.exists_eq_add_one_of_ne_zero hi
    rw [if_neg hi, hk]
    rfl

theorem getBit (h : SameWords b s) (i : ℕ) : b.getBit i = s.getBit i := by
  rw [Bitmap.getBit, h.getArray, BitmapStatic.getBit]

theorem setBit (h : SameWords b s) (i : ℕ) : SameWords (b.setBit i) (s.setBit i) := by
  rw [Bitmap.setBit, h.getArray]
  exact h.setArray i _

theorem unsetBit (h : SameWords b s) (i : ℕ) : SameWords (b.unsetBit i) (s.unsetBit i) := by
  rw [Bitmap.unsetBit, h.getArray]
  exact h.setArray i _

theorem empty (h : SameWords b s) : b.empty = s.empty := by
  rw [BitmapStatic.empty, ← h]
  rfl

theorem removeFront (h : SameWords b s) :
    b.removeFront.1 = s.removeFront.1 ∧ SameWords b.removeFront.2 s.removeFront.2 := by
  unfold SameWords Bitmap.removeFront
  show _ = (removeFrontRest 0 s.data).1 ∧ _ = (removeFrontRest 0 s.data).2
  rw [← h, removeFrontRest, Nat.zero_add, Nat.zero_add]
  split
  · exact ⟨rfl, rfl⟩
  · exact ⟨rfl, rfl⟩

theorem unsetFront (h : SameWords b s) : SameWords b.unsetFront s.unsetFront := by
  unfold SameWords Bitmap.unsetFront
  show _ = unsetFrontRest s.data
  rw [← h, unsetFrontRest]
  split
  · rfl
  · rfl

/-- A bitmap whose words are computed from the words of others. -/
theorem ofWords (hsize : 1 ≤ size) (f : ℕ → BitmapWord) :
    SameWords ⟨f 0, (List.range (size - 1)).map fun i => f (i + 1)⟩
      (BitmapStatic.ofWords f : BitmapStatic size) := by
  obtain ⟨m, rfl⟩ := Nat.exists_eq_add_of_le' hsize
  show f 0 :: _ = (List.range (m + 1)).map f
  rw [List.range_succ_eq_map, List.map_cons, List.map_map]
  rfl

theorem unsetBits (h : SameWords b s) (h' : SameWords b' s') (hsize : 1 ≤ size)
    (hrest : b.rest.length + 1 = size) : SameWords (b.unsetBits b' size) (s.unsetBits s') := by
  have hwords := ofWords hsize fun i => s.word i &&& ~~~s'.word i
  simp only [h.word_zero, h'.word_zero, h.word_succ, h'.word_succ] at hwords
  unfold Bitmap.unsetBits
  split
  · next hone =>
    have hnil : b.rest = [] := List.length_eq_zero_iff.1 (by omega)
    subst hone
    rw [hnil]
    exact hwords
  · exact hwords

theorem setBitsOr (h : SameWords b s) (h' : SameWords b' s') (hsize : 1 ≤ size) :
    SameWords (b.setBitsOr b' size) (s.setBitsOr s') := by
  have hwords := ofWords hsize fun i => s.word i ||| s'.word i
  simp only [h.word_zero, h'.word_zero, h.word_succ, h'.word_succ] at hwords
  exact hwords

theorem setBitsOfAndResult (h : SameWords b s) (h' : SameWords b' s') (hsize : 1 ≤ size) :
    SameWords (Bitmap.setBitsOfAndResult b b' size) (BitmapStatic.setBitsOfAndResult s s') := by
  have hwords := ofWords hsize fun i => s.word i &&& s'.word i
  simp only [h.word_zero, h'.word_zero, h.word_succ, h'.word_succ] at hwords
  exact hwords

theorem unsetBitsOfAndResult (h : SameWords b s) (h' : SameWords b' s') (h'' : SameWords b'' s'')
    (hsize : 1 ≤ size) :
    SameWords (b.unsetBitsOfAndResult b' b'' size) (s.unsetBitsOfAndResult s' s'') := by
  have hwords := ofWords hsize fun i => s.word i &&& ~~~(s'.word i &&& s''.word i)
  simp only [h.word_zero, h'.word_zero, h''.word_zero, h.word_succ, h'.word_succ,
    h''.word_succ] at hwords
  exact hwords

/-- The words behind the first one. -/
theorem length_rest (h : SameWords b s) : b.rest.length + 1 = size := by
  rw [← s.length_data, ← h, List.length_cons]

/-! ### The front -/

/-- The loop over the further words: it is defined as long as the `int` is in its range. -/
theorem frontRest_spec {ws : List BitmapWord} {pos : ℕ}
    (hleast : IsLeast {i | wordsBit ws i = true} n) :
    Bitmap.frontRest pos ws = if pos + n + 1 < 2 ^ 31 then some (some (pos + n)) else none := by
  induction ws generalizing pos n with
  | nil => exact absurd (lt_of_wordsBit hleast.1) (Nat.not_lt_zero n)
  | cons w ws ih =>
    by_cases hw : w ≠ 0
    · obtain rfl := hleast.unique (isLeast_cons_of_ne_zero hw)
      rw [Bitmap.frontRest, if_pos hw, intAdd, ← Nat.add_assoc]
      split
      · rfl
      · rfl
    · obtain rfl := not_not.1 hw
      obtain ⟨m, rfl, hm⟩ := isLeast_of_cons_zero hleast
      rw [Bitmap.frontRest, if_neg hw, intAdd]
      by_cases hpos : pos + bitmapBits < 2 ^ 31
      · rw [if_pos hpos, Option.bind_some, ih hm, Nat.add_assoc pos]
      · have hout : ¬ pos + (bitmapBits + m) + 1 < 2 ^ 31 := by omega
        rw [if_neg hpos, if_neg hout]
        rfl

theorem front (h : SameWords b s) (hleast : IsLeast ↑s.members n) :
    b.front size = if n + 1 < 2 ^ 31 then some (some n) else none := by
  have hwords : IsLeast {i | wordsBit (b.first :: b.rest) i = true} n := by
    rw [show b.first :: b.rest = s.data from h]
    exact ⟨BitmapStatic.mem_members.1 hleast.1,
      fun i hi => hleast.2 (BitmapStatic.mem_members.2 hi)⟩
  unfold Bitmap.front
  by_cases hfirst : b.first ≠ 0
  · obtain rfl := hwords.unique (isLeast_cons_of_ne_zero hfirst)
    have hlt : lowestBit b.first < 64 := (lowestBit_spec hfirst).1
    rw [if_pos hfirst, if_pos hfirst, ite_self, if_pos (by omega)]
  · rw [not_not.1 hfirst] at hwords
    obtain ⟨m, rfl, hm⟩ := isLeast_of_cons_zero hwords
    have hsize : size ≠ 1 := by
      rintro rfl
      have hm' := lt_of_wordsBit hm.1
      rw [Nat.succ.inj h.length_rest] at hm'
      exact Nat.not_lt_zero _ hm'
    rw [if_neg hsize, if_neg hfirst, frontRest_spec hm]

/-! ### The iterator -/

/-- The iterator stands at position `t`. -/
structure At (t : ℕ) (it : Bitmap.Iterator) : Prop where
  inFirst : it.inFirst = decide (t / bitmapBits = 0)
  rest : it.inFirst = false → it.rest + 1 = t / bitmapBits
  pos : it.pos = t % bitmapBits
  total : it.total = t

theorem walks (b : Bitmap) (items : ℕ) : (b.iterator items).Walks b.getBit At where
  total h := h.total
  flag := by
    intro t it h
    show (if it.inFirst then b.first else b.restWord it.rest).getLsbD it.pos = _
    unfold Bitmap.getBit Bitmap.getArray Bitmap.restWord
    rw [h.pos]
    by_cases hzero : t / bitmapBits = 0
    · have hin : it.inFirst = true := h.inFirst.trans (decide_eq_true hzero)
      rw [if_pos hin, if_pos hzero]
    · have hin : it.inFirst = false := h.inFirst.trans (decide_eq_false hzero)
      have hrest : it.rest = t / bitmapBits - 1 := Nat.eq_sub_of_add_eq (h.rest hin)
      rw [if_neg (Bool.eq_false_iff.1 hin), if_neg hzero, hrest]
  move := by
    intro t it h hlt
    obtain ⟨hin, hrest, hpos, htotal⟩ := h
    have hne : it.total + 1 ≠ items := htotal.symm ▸ Nat.ne_of_lt hlt
    unfold Bitmap.iterator
    dsimp only
    rw [if_neg hne]
    by_cases hword : it.pos + 1 = bitmapBits
    · obtain ⟨hdiv, hmod⟩ := succ_of_last (hpos ▸ hword)
      have hout : decide ((t + 1) / bitmapBits = 0) = false := by
        rw [hdiv]
        exact decide_eq_false (Nat.succ_ne_zero _)
      rw [if_pos hword]
      by_cases hzero : t / bitmapBits = 0
      · rw [if_pos (hin.trans (decide_eq_true hzero))]
        exact ⟨rfl, hout.symm, fun _ => hzero ▸ hdiv.symm, hmod.symm, congrArg (· + 1) htotal⟩
      · have hfalse : it.inFirst = false := hin.trans (decide_eq_false hzero)
        rw [if_neg (Bool.eq_false_iff.1 hfalse)]
        exact ⟨rfl, hout.symm, fun _ => hrest hfalse ▸ hdiv.symm, hmod.symm,
          congrArg (· + 1) htotal⟩
    · obtain ⟨hdiv, hmod⟩ := succ_of_not_last (hpos ▸ hword)
      rw [if_neg hword]
      exact ⟨rfl, hdiv ▸ hin, fun hfalse => hdiv ▸ hrest hfalse, hpos ▸ hmod.symm,
        congrArg (· + 1) htotal⟩
  last := by
    intro t it h hlast
    have heq : it.total + 1 = items := h.total.symm ▸ hlast
    unfold Bitmap.iterator
    dsimp only
    rw [if_pos heq]
    exact ⟨rfl, heq⟩

theorem enumerate (h : SameWords b s) {items : ℕ} (hitems : 1 ≤ items) :
    b.enumerate size items = s.enumerate items := by
  have hget : b.getBit = s.getBit := funext h.getBit
  rw [s.enumerate_eq hitems, Bitmap.enumerate]
  split
  · -- one word, which is zero
    next hzero =>
    obtain ⟨rfl, hfirst⟩ := hzero
    have hempty : b.empty = true := by
      rw [Bitmap.empty, List.length_eq_zero_iff.1 (Nat.succ.inj h.length_rest), hfirst]
      rfl
    have hnone (n : ℕ) : s.getBit n = false := (h.getBit n).symm.trans (getBit_of_empty hempty n)
    rw [Scan.enumerate_of_total rfl]
    exact (List.filter_eq_nil_iff.2 fun n _ => Bool.eq_false_iff.1 (hnone n)).symm
  · have hAt : At 0 ⟨true, 0, 0, 0⟩ := ⟨rfl, fun h => absurd h.symm Bool.false_ne_true, rfl, rfl⟩
    rw [(walks b items).enumerate_find (Nat.zero_add items) hitems (Nat.le_refl _) hAt,
      ← List.range_eq_range', hget]

end SameWords

/-! ## Sequences of operations -/

/-- A representation of finite sets.  In `front`, the outer `none` is an overflow and the inner one
`-1`. -/
structure BitmapImpl (β : Type*) where
  clear : β
  setBit : β → ℕ → β
  unsetBit : β → ℕ → β
  getBit : β → ℕ → Bool
  empty : β → Bool
  front : β → Option (Option ℕ)
  unsetFront : β → β
  removeFront : β → Option ℕ × β
  unsetBits : β → β → β
  setBitsOr : β → β → β
  setBitsOfAndResult : β → β → β
  unsetBitsOfAndResult : β → β → β → β
  enumerate : β → ℕ → List ℕ

/-- `bitmap`. -/
def bitmapImpl (size : ℕ) : BitmapImpl Bitmap where
  clear := Bitmap.create size
  setBit := Bitmap.setBit
  unsetBit := Bitmap.unsetBit
  getBit := Bitmap.getBit
  empty := Bitmap.empty
  front b := b.front size
  unsetFront := Bitmap.unsetFront
  removeFront := Bitmap.removeFront
  unsetBits b other := b.unsetBits other size
  setBitsOr b other := b.setBitsOr other size
  setBitsOfAndResult x y := Bitmap.setBitsOfAndResult x y size
  unsetBitsOfAndResult b x y := b.unsetBitsOfAndResult x y size
  enumerate b items := b.enumerate size items

/-- `bitmap_static`. -/
def bitmapStaticImpl (size : ℕ) : BitmapImpl (BitmapStatic size) where
  clear := BitmapStatic.create size
  setBit := BitmapStatic.setBit
  unsetBit := BitmapStatic.unsetBit
  getBit := BitmapStatic.getBit
  empty := BitmapStatic.empty
  front b := some b.front
  unsetFront := BitmapStatic.unsetFront
  removeFront := BitmapStatic.removeFront
  unsetBits := BitmapStatic.unsetBits
  setBitsOr := BitmapStatic.setBitsOr
  setBitsOfAndResult := BitmapStatic.setBitsOfAndResult
  unsetBitsOfAndResult := BitmapStatic.unsetBitsOfAndResult
  enumerate := BitmapStatic.enumerate

/-- The least element of a set. -/
def finsetFront (s : Finset ℕ) : Option ℕ := if h : s.Nonempty then some (s.min' h) else none

/-- The set without its least element. -/
def finsetRest (s : Finset ℕ) : Finset ℕ := if h : s.Nonempty then s.erase (s.min' h) else s

/-- What the operations mean. -/
def finsetImpl : BitmapImpl (Finset ℕ) where
  clear := ∅
  setBit s n := insert n s
  unsetBit s n := s.erase n
  getBit s n := decide (n ∈ s)
  empty s := decide (s = ∅)
  front s := some (finsetFront s)
  unsetFront := finsetRest
  removeFront s := (finsetFront s, finsetRest s)
  unsetBits s t := s \ t
  setBitsOr s t := s ∪ t
  setBitsOfAndResult t u := t ∩ u
  unsetBitsOfAndResult s t u := s \ (t ∩ u)
  enumerate s items := (s.filter (· < items)).sort (· ≤ ·)

/-- An operation on one of several bitmaps. -/
inductive BitmapOp (ι : Type*) where
  | clear (i : ι)
  | setBit (i : ι) (n : ℕ)
  | unsetBit (i : ι) (n : ℕ)
  | getBit (i : ι) (n : ℕ)
  | empty (i : ι)
  | front (i : ι)
  | unsetFront (i : ι)
  | removeFront (i : ι)
  | unsetBits (i other : ι)
  | setBitsOr (i other : ι)
  | setBitsOfAndResult (i x y : ι)
  | unsetBitsOfAndResult (i x y : ι)
  | enumerate (i : ι) (items : ℕ)

/-- What an operation returns. -/
inductive BitmapResult where
  | none
  | bool (b : Bool)
  | number (n : Option ℕ)
  | numbers (l : List ℕ)
  deriving DecidableEq

namespace BitmapImpl

variable {β ι : Type*} [DecidableEq ι] (I : BitmapImpl β)

/-- One operation. -/
def step (bs : ι → β) : BitmapOp ι → Option (BitmapResult × (ι → β))
  | .clear i => some (.none, Function.update bs i I.clear)
  | .setBit i n => some (.none, Function.update bs i (I.setBit (bs i) n))
  | .unsetBit i n => some (.none, Function.update bs i (I.unsetBit (bs i) n))
  | .getBit i n => some (.bool (I.getBit (bs i) n), bs)
  | .empty i => some (.bool (I.empty (bs i)), bs)
  | .front i => (I.front (bs i)).map fun n => (.number n, bs)
  | .unsetFront i => some (.none, Function.update bs i (I.unsetFront (bs i)))
  | .removeFront i =>
    some (.number (I.removeFront (bs i)).1, Function.update bs i (I.removeFront (bs i)).2)
  | .unsetBits i other => some (.none, Function.update bs i (I.unsetBits (bs i) (bs other)))
  | .setBitsOr i other => some (.none, Function.update bs i (I.setBitsOr (bs i) (bs other)))
  | .setBitsOfAndResult i x y =>
    some (.none, Function.update bs i (I.setBitsOfAndResult (bs x) (bs y)))
  | .unsetBitsOfAndResult i x y =>
    some (.none, Function.update bs i (I.unsetBitsOfAndResult (bs i) (bs x) (bs y)))
  | .enumerate i items => some (.numbers (I.enumerate (bs i) items), bs)

/-- A sequence of operations: the results, and the bitmaps behind it. -/
def run : List (BitmapOp ι) → (ι → β) → Option (List BitmapResult × (ι → β))
  | [], bs => some ([], bs)
  | op :: ops, bs => do
    let r ← I.step bs op
    let rs ← run ops r.2
    return (r.1 :: rs.1, rs.2)

end BitmapImpl

/-- What callers keep to: elements are below the capacity, the front is that of a set with elements,
and an iterator is for at least one item and at most the capacity. -/
def BitmapOp.Legal {ι : Type*} (size : ℕ) (ss : ι → Finset ℕ) : BitmapOp ι → Prop
  | .setBit _ n | .unsetBit _ n | .getBit _ n => n < bitmapBits * size
  | .front i | .unsetFront i | .removeFront i => (ss i).Nonempty
  | .enumerate _ items => 1 ≤ items ∧ items ≤ bitmapBits * size
  | _ => True

/-- The least elements that `front` is asked for are in a range. -/
def BitmapOp.FrontFits {ι : Type*} (fits : ℕ → Prop) (ss : ι → Finset ℕ) : BitmapOp ι → Prop
  | .front i => ∀ n, IsLeast ↑(ss i) n → fits n
  | _ => True

/-- A condition on every operation of a sequence, and on the sets before it. -/
def AlongRun {ι : Type*} [DecidableEq ι] (P : (ι → Finset ℕ) → BitmapOp ι → Prop) :
    List (BitmapOp ι) → (ι → Finset ℕ) → Prop
  | [], _ => True
  | op :: ops, ss => P ss op ∧ ∀ r, finsetImpl.step ss op = some r → AlongRun P ops r.2

/-! ## Refinement -/

/-- The operations of a representation do to its sets what they mean.  `ok` is the invariant of a
bitmap, and `fits` is the range of `front`. -/
structure Refines {β : Type*} (size : ℕ) (I : BitmapImpl β) (ok : β → Prop) (members : β → Finset ℕ)
    (fits : ℕ → Prop) : Prop where
  clear : ok I.clear ∧ members I.clear = ∅
  setBit : ∀ {b n}, ok b → n < bitmapBits * size →
    ok (I.setBit b n) ∧ members (I.setBit b n) = insert n (members b)
  unsetBit : ∀ {b n}, ok b → n < bitmapBits * size →
    ok (I.unsetBit b n) ∧ members (I.unsetBit b n) = (members b).erase n
  getBit : ∀ {b}, ok b → ∀ n, I.getBit b n = true ↔ n ∈ members b
  empty : ∀ {b}, ok b → (I.empty b = true ↔ members b = ∅)
  front : ∀ {b n}, ok b → IsLeast ↑(members b) n → fits n → I.front b = some (some n)
  front_out : ∀ {b n}, ok b → IsLeast ↑(members b) n → ¬ fits n → I.front b = none
  unsetFront : ∀ {b n}, ok b → IsLeast ↑(members b) n →
    ok (I.unsetFront b) ∧ members (I.unsetFront b) = (members b).erase n
  removeFront : ∀ {b n}, ok b → IsLeast ↑(members b) n → (I.removeFront b).1 = some n ∧
    ok (I.removeFront b).2 ∧ members (I.removeFront b).2 = (members b).erase n
  unsetBits : ∀ {b b'}, ok b → ok b' →
    ok (I.unsetBits b b') ∧ members (I.unsetBits b b') = members b \ members b'
  setBitsOr : ∀ {b b'}, ok b → ok b' →
    ok (I.setBitsOr b b') ∧ members (I.setBitsOr b b') = members b ∪ members b'
  setBitsOfAndResult : ∀ {x y}, ok x → ok y →
    ok (I.setBitsOfAndResult x y) ∧ members (I.setBitsOfAndResult x y) = members x ∩ members y
  unsetBitsOfAndResult : ∀ {b x y}, ok b → ok x → ok y →
    ok (I.unsetBitsOfAndResult b x y) ∧
      members (I.unsetBitsOfAndResult b x y) = members b \ (members x ∩ members y)
  enumerate : ∀ {b items}, ok b → 1 ≤ items →
    I.enumerate b items = (List.range items).filter fun n => decide (n ∈ members b)

/-- The members below a bound, in ascending order. -/
theorem sort_filter_lt (s : Finset ℕ) (items : ℕ) :
    (s.filter (· < items)).sort (· ≤ ·) = (List.range items).filter fun n => decide (n ∈ s) := by
  have hnodup : ((List.range items).filter fun n => decide (n ∈ s)).Nodup :=
    List.Nodup.filter _ List.nodup_range
  have hsorted : ((List.range items).filter fun n => decide (n ∈ s)).Pairwise (· ≤ ·) :=
    (List.pairwise_lt_range.imp Nat.le_of_lt).filter _
  rw [← (List.toFinset_sort (· ≤ ·) hnodup).2 hsorted]
  congr 1
  ext n
  simp [and_comm]

namespace Refines

variable {β ι : Type*} [DecidableEq ι] {size : ℕ} {I : BitmapImpl β} {ok : β → Prop}
  {members : β → Finset ℕ} {fits : ℕ → Prop} {bs : ι → β}

/-- A bitmap is replaced. -/
theorem update {b : β} {s : Finset ℕ} {i : ι} (hok : ∀ j, ok (bs j)) (hb : ok b ∧ members b = s) :
    (∀ j, ok (Function.update bs i b j)) ∧
      members ∘ Function.update bs i b = Function.update (members ∘ bs) i s := by
  refine ⟨fun j => ?_, ?_⟩
  · by_cases hj : j = i
    · rw [hj, Function.update_self]
      exact hb.1
    · rw [Function.update_of_ne hj]
      exact hok j
  · rw [Function.comp_update, hb.2]

/-- An operation that replaces a bitmap. -/
theorem replaced {b : β} {s : Finset ℕ} {i : ι} (r : BitmapResult) (hok : ∀ j, ok (bs j))
    (hb : ok b ∧ members b = s) :
    ∃ r' bs', some (r, Function.update bs i b) = some (r', bs') ∧ (∀ j, ok (bs' j)) ∧
      some (r, Function.update (members ∘ bs) i s) = some (r', members ∘ bs') := by
  obtain ⟨hok', hmembers⟩ := update (i := i) hok hb
  exact ⟨r, _, rfl, hok', by rw [hmembers]⟩

theorem finsetFront_of_nonempty {s : Finset ℕ} (h : s.Nonempty) :
    finsetFront s = some (s.min' h) := dif_pos h

theorem finsetRest_of_nonempty {s : Finset ℕ} (h : s.Nonempty) :
    finsetRest s = s.erase (s.min' h) := dif_pos h

/-- **One operation** whose front is in the range. -/
theorem step (h : Refines size I ok members fits) {op : BitmapOp ι} (hok : ∀ j, ok (bs j))
    (hlegal : op.Legal size (members ∘ bs)) (hfits : op.FrontFits fits (members ∘ bs)) :
    ∃ r bs', I.step bs op = some (r, bs') ∧ (∀ j, ok (bs' j)) ∧
      finsetImpl.step (members ∘ bs) op = some (r, members ∘ bs') := by
  cases op with
  | clear i => exact replaced .none hok h.clear
  | setBit i n => exact replaced .none hok (h.setBit (hok i) hlegal)
  | unsetBit i n => exact replaced .none hok (h.unsetBit (hok i) hlegal)
  | getBit i n =>
    have hbit : I.getBit (bs i) n = decide (n ∈ members (bs i)) :=
      Bool.eq_iff_iff.2 ((h.getBit (hok i) n).trans decide_eq_true_iff.symm)
    exact ⟨_, bs, rfl, hok, by rw [hbit]; rfl⟩
  | empty i =>
    have hempty : I.empty (bs i) = decide (members (bs i) = ∅) :=
      Bool.eq_iff_iff.2 ((h.empty (hok i)).trans decide_eq_true_iff.symm)
    exact ⟨_, bs, rfl, hok, by rw [hempty]; rfl⟩
  | front i =>
    have hne : (members (bs i)).Nonempty := hlegal
    have hleast := (members (bs i)).isLeast_min' hne
    have hfront : finsetFront ((members ∘ bs) i) = some ((members (bs i)).min' hne) :=
      finsetFront_of_nonempty hne
    refine ⟨.number (some ((members (bs i)).min' hne)), bs, ?_, hok, ?_⟩
    · rw [BitmapImpl.step, h.front (hok i) hleast (hfits _ hleast)]
      rfl
    · show some (BitmapResult.number (finsetFront ((members ∘ bs) i)), members ∘ bs) = _
      rw [hfront]
  | unsetFront i =>
    have hne : (members (bs i)).Nonempty := hlegal
    have hb := h.unsetFront (hok i) ((members (bs i)).isLeast_min' hne)
    rw [← finsetRest_of_nonempty hne] at hb
    exact replaced .none hok hb
  | removeFront i =>
    have hne : (members (bs i)).Nonempty := hlegal
    obtain ⟨hfound, hb⟩ := h.removeFront (hok i) ((members (bs i)).isLeast_min' hne)
    rw [← finsetFront_of_nonempty hne] at hfound
    rw [← finsetRest_of_nonempty hne] at hb
    have hstep := replaced (i := i) (.number (I.removeFront (bs i)).1) hok hb
    rw [BitmapImpl.step, BitmapImpl.step]
    rw [hfound] at hstep ⊢
    exact hstep
  | unsetBits i other => exact replaced .none hok (h.unsetBits (hok i) (hok other))
  | setBitsOr i other => exact replaced .none hok (h.setBitsOr (hok i) (hok other))
  | setBitsOfAndResult i x y => exact replaced .none hok (h.setBitsOfAndResult (hok x) (hok y))
  | unsetBitsOfAndResult i x y =>
    exact replaced .none hok (h.unsetBitsOfAndResult (hok i) (hok x) (hok y))
  | enumerate i items =>
    have hlist : I.enumerate (bs i) items =
        ((members (bs i)).filter (· < items)).sort (· ≤ ·) := by
      rw [sort_filter_lt, h.enumerate (hok i) hlegal.1]
    exact ⟨_, bs, rfl, hok, by rw [hlist]; rfl⟩

/-- **One operation** whose front is not in the range. -/
theorem step_out (h : Refines size I ok members fits) {op : BitmapOp ι} (hok : ∀ j, ok (bs j))
    (hfits : ¬ op.FrontFits fits (members ∘ bs)) : I.step bs op = none := by
  cases op with
  | front i =>
    obtain ⟨n, hn⟩ := not_forall.1 hfits
    obtain ⟨hleast, hout⟩ := Classical.not_imp.1 hn
    rw [BitmapImpl.step, h.front_out (hok i) hleast hout]
    rfl
  | _ => exact absurd trivial hfits

theorem run_cons {op : BitmapOp ι} {ops : List (BitmapOp ι)} {r : BitmapResult × (ι → β)}
    (h : I.step bs op = some r) :
    I.run (op :: ops) bs = (I.run ops r.2).map fun rs => (r.1 :: rs.1, rs.2) := by
  rw [BitmapImpl.run, h]
  exact (Option.map_eq_bind ..).symm

/-- A sequence means something, whatever it is. -/
theorem exists_run_finset (ops : List (BitmapOp ι)) (ss : ι → Finset ℕ) :
    ∃ r, finsetImpl.run ops ss = some r := by
  induction ops generalizing ss with
  | nil => exact ⟨_, rfl⟩
  | cons op ops ih =>
    have hstep : ∃ r, finsetImpl.step ss op = some r := by
      cases op <;> exact ⟨_, rfl⟩
    obtain ⟨r, hr⟩ := hstep
    obtain ⟨rs, hrs⟩ := ih r.2
    exact ⟨(r.1 :: rs.1, rs.2), by rw [run_cons hr, hrs]; rfl⟩

/-- **A sequence of operations** does what it means exactly if the fronts are in the range. -/
theorem run_eq_iff (h : Refines size I ok members fits) (ops : List (BitmapOp ι)) (bs : ι → β)
    (hok : ∀ j, ok (bs j)) (hlegal : AlongRun (BitmapOp.Legal size) ops (members ∘ bs)) :
    (I.run ops bs).map (fun r => (r.1, members ∘ r.2)) = finsetImpl.run ops (members ∘ bs) ↔
      AlongRun (BitmapOp.FrontFits fits) ops (members ∘ bs) := by
  induction ops generalizing bs with
  | nil => exact iff_of_true rfl trivial
  | cons op ops ih =>
    obtain ⟨hop, hrest⟩ := hlegal
    by_cases hfits : op.FrontFits fits (members ∘ bs)
    · obtain ⟨r, bs', hstep, hok', hspec⟩ := h.step hok hop hfits
      have hiff := ih bs' hok' (hrest _ hspec)
      have hfitsIff : AlongRun (BitmapOp.FrontFits fits) (op :: ops) (members ∘ bs) ↔
          AlongRun (BitmapOp.FrontFits fits) ops (members ∘ bs') := by
        refine ⟨fun hall => hall.2 _ hspec, fun hall => ⟨hfits, fun r' hr' => ?_⟩⟩
        rw [← Option.some.inj (hspec.symm.trans hr')]
        exact hall
      have hcons : Function.Injective fun rs : List BitmapResult × (ι → Finset ℕ) =>
          (r :: rs.1, rs.2) := by
        rintro ⟨l, ss⟩ ⟨l', ss'⟩ heq
        exact Prod.ext (List.tail_eq_of_cons_eq (Prod.mk.inj heq).1) (Prod.mk.inj heq).2
      have heq := (Option.map_injective hcons).eq_iff
        (a := (I.run ops bs').map fun r => (r.1, members ∘ r.2))
        (b := finsetImpl.run ops (members ∘ bs'))
      rw [Option.map_map] at heq
      rw [hfitsIff, ← hiff, run_cons hstep, run_cons hspec, Option.map_map]
      exact heq
    · refine iff_of_false (fun heq => ?_) (fun hall => hfits hall.1)
      obtain ⟨rs, hrs⟩ := exists_run_finset (op :: ops) (members ∘ bs)
      rw [BitmapImpl.run, h.step_out hok hfits, hrs] at heq
      exact Option.some_ne_none _ heq.symm

end Refines

/-! ## The two representations -/

theorem refines_bitmapStatic (size : ℕ) :
    Refines size (bitmapStaticImpl size) (fun _ => True) BitmapStatic.members fun _ => True where
  clear := ⟨trivial, BitmapStatic.members_create⟩
  setBit _ hn := ⟨trivial, BitmapStatic.members_setBit hn⟩
  unsetBit _ hn := ⟨trivial, BitmapStatic.members_unsetBit hn⟩
  getBit _ _ := BitmapStatic.mem_members.symm
  empty _ := BitmapStatic.empty_iff
  front := by
    intro b n _ hleast _
    exact congrArg some (b.front_eq.trans (BitmapStatic.isLeast_removeFront hleast).1)
  front_out _ _ hout := absurd trivial hout
  unsetFront := by
    intro b n _ hleast
    refine ⟨trivial, ?_⟩
    show b.unsetFront.members = _
    rw [b.unsetFront_eq, (BitmapStatic.isLeast_removeFront hleast).2]
  removeFront _ hleast :=
    ⟨(BitmapStatic.isLeast_removeFront hleast).1, trivial,
      (BitmapStatic.isLeast_removeFront hleast).2⟩
  unsetBits _ _ := ⟨trivial, BitmapStatic.members_unsetBits⟩
  setBitsOr _ _ := ⟨trivial, BitmapStatic.members_setBitsOr⟩
  setBitsOfAndResult _ _ := ⟨trivial, BitmapStatic.members_setBitsOfAndResult⟩
  unsetBitsOfAndResult _ _ _ := ⟨trivial, BitmapStatic.members_unsetBitsOfAndResult⟩
  enumerate := by
    intro b items _ hitems
    exact (b.enumerate_eq hitems).trans (List.filter_congr fun n _ => b.getBit_eq_decide n)

/-- The set of a bitmap. -/
def Bitmap.members (b : Bitmap) : Finset ℕ := wordsMembers (b.first :: b.rest)

namespace SameWords

variable {size : ℕ} {b : Bitmap} {s : BitmapStatic size}

theorem members (h : SameWords b s) : b.members = s.members := congrArg wordsMembers h

/-- What a bitmap with the words of a static one is. -/
theorem ok {S : Finset ℕ} (h : SameWords b s) (hs : s.members = S) :
    b.rest.length + 1 = size ∧ b.members = S := ⟨h.length_rest, h.members.trans hs⟩

/-- A bitmap of `size` words has the words of a static one. -/
theorem exists_of_length (h : b.rest.length + 1 = size) :
    ∃ s : BitmapStatic size, SameWords b s ∧ s.members = b.members :=
  ⟨⟨b.first :: b.rest, h⟩, rfl, rfl⟩

end SameWords

theorem refines_bitmap {size : ℕ} (hsize : 1 ≤ size) :
    Refines size (bitmapImpl size) (fun b => b.rest.length + 1 = size) Bitmap.members
      fun n => n + 1 < 2 ^ 31 where
  clear := (SameWords.create hsize).ok BitmapStatic.members_create
  setBit := by
    intro b n hok hn
    obtain ⟨s, h, hs⟩ := SameWords.exists_of_length hok
    exact (h.setBit n).ok (hs ▸ BitmapStatic.members_setBit hn)
  unsetBit := by
    intro b n hok hn
    obtain ⟨s, h, hs⟩ := SameWords.exists_of_length hok
    exact (h.unsetBit n).ok (hs ▸ BitmapStatic.members_unsetBit hn)
  getBit := by
    intro b hok n
    obtain ⟨s, h, hs⟩ := SameWords.exists_of_length hok
    rw [← hs]
    show b.getBit n = true ↔ _
    rw [h.getBit]
    exact BitmapStatic.mem_members.symm
  empty := by
    intro b hok
    obtain ⟨s, h, hs⟩ := SameWords.exists_of_length hok
    rw [← hs]
    show b.empty = true ↔ _
    rw [h.empty]
    exact BitmapStatic.empty_iff
  front := by
    intro b n hok hleast hfits
    obtain ⟨s, h, hs⟩ := SameWords.exists_of_length hok
    exact (h.front (hs ▸ hleast)).trans (if_pos hfits)
  front_out := by
    intro b n hok hleast hout
    obtain ⟨s, h, hs⟩ := SameWords.exists_of_length hok
    exact (h.front (hs ▸ hleast)).trans (if_neg hout)
  unsetFront := by
    intro b n hok hleast
    obtain ⟨s, h, hs⟩ := SameWords.exists_of_length hok
    rw [← hs] at hleast ⊢
    refine h.unsetFront.ok ?_
    rw [s.unsetFront_eq, (BitmapStatic.isLeast_removeFront hleast).2]
  removeFront := by
    intro b n hok hleast
    obtain ⟨s, h, hs⟩ := SameWords.exists_of_length hok
    rw [← hs] at hleast ⊢
    obtain ⟨hfound, hmembers⟩ := BitmapStatic.isLeast_removeFront hleast
    exact ⟨h.removeFront.1.trans hfound, h.removeFront.2.ok hmembers⟩
  unsetBits := by
    intro b b' hok hok'
    obtain ⟨s, h, hs⟩ := SameWords.exists_of_length hok
    obtain ⟨s', h', hs'⟩ := SameWords.exists_of_length hok'
    rw [← hs, ← hs']
    exact (h.unsetBits h' hsize hok).ok BitmapStatic.members_unsetBits
  setBitsOr := by
    intro b b' hok hok'
    obtain ⟨s, h, hs⟩ := SameWords.exists_of_length hok
    obtain ⟨s', h', hs'⟩ := SameWords.exists_of_length hok'
    rw [← hs, ← hs']
    exact (h.setBitsOr h' hsize).ok BitmapStatic.members_setBitsOr
  setBitsOfAndResult := by
    intro b b' hok hok'
    obtain ⟨s, h, hs⟩ := SameWords.exists_of_length hok
    obtain ⟨s', h', hs'⟩ := SameWords.exists_of_length hok'
    rw [← hs, ← hs']
    exact (h.setBitsOfAndResult h' hsize).ok BitmapStatic.members_setBitsOfAndResult
  unsetBitsOfAndResult := by
    intro b b' b'' hok hok' hok''
    obtain ⟨s, h, hs⟩ := SameWords.exists_of_length hok
    obtain ⟨s', h', hs'⟩ := SameWords.exists_of_length hok'
    obtain ⟨s'', h'', hs''⟩ := SameWords.exists_of_length hok''
    rw [← hs, ← hs', ← hs'']
    exact (h.unsetBitsOfAndResult h' h'' hsize).ok BitmapStatic.members_unsetBitsOfAndResult
  enumerate := by
    intro b items hok hitems
    obtain ⟨s, h, hs⟩ := SameWords.exists_of_length hok
    rw [← hs]
    exact (h.enumerate hitems).trans ((refines_bitmapStatic size).enumerate trivial hitems)

theorem alongRun_of_forall {ι : Type*} [DecidableEq ι] {P : (ι → Finset ℕ) → BitmapOp ι → Prop}
    (h : ∀ ss op, P ss op) (ops : List (BitmapOp ι)) (ss : ι → Finset ℕ) : AlongRun P ops ss := by
  induction ops generalizing ss with
  | nil => trivial
  | cons op ops ih => exact ⟨h ss op, fun r _ => ih r.2⟩

/-- **Bitmaps are sets.**  In every sequence of legal operations on any number of bitmaps of `size`
words, `bitmap_static` returns what the operations mean for sets, and the bitmaps behind it are the
sets behind it; and so does `bitmap`, exactly if every least element that `front` is asked for is
below `2 ^ 31 - 1`. -/
theorem bitmaps_implement_sets {ι : Type*} [DecidableEq ι] {size : ℕ} (hsize : 1 ≤ size)
    (ops : List (BitmapOp ι)) (hlegal : AlongRun (BitmapOp.Legal size) ops fun _ => ∅) :
    ((bitmapStaticImpl size).run ops fun _ => BitmapStatic.create size).map
        (fun r => (r.1, BitmapStatic.members ∘ r.2)) = finsetImpl.run ops (fun _ => ∅) ∧
      (((bitmapImpl size).run ops fun _ => Bitmap.create size).map
          (fun r => (r.1, Bitmap.members ∘ r.2)) = finsetImpl.run ops (fun _ => ∅) ↔
        AlongRun (BitmapOp.FrontFits fun n => n + 1 < 2 ^ 31) ops fun _ => ∅) := by
  have hstatic : (BitmapStatic.members ∘ fun _ : ι => BitmapStatic.create size) = fun _ => ∅ :=
    funext fun _ => BitmapStatic.members_create
  have hbitmap : (Bitmap.members ∘ fun _ : ι => Bitmap.create size) = fun _ => ∅ :=
    funext fun _ => (refines_bitmap hsize).clear.2
  constructor
  · have hiff := (refines_bitmapStatic size).run_eq_iff ops (fun _ : ι => BitmapStatic.create size)
      (fun _ => trivial) (hstatic ▸ hlegal)
    rw [hstatic] at hiff
    refine hiff.2 (alongRun_of_forall (fun ss op => ?_) ops _)
    cases op with
    | front i => exact fun _ _ => trivial
    | _ => trivial
  · have hiff := (refines_bitmap hsize).run_eq_iff ops (fun _ : ι => Bitmap.create size)
      (fun _ => (refines_bitmap hsize).clear.1) (hbitmap ▸ hlegal)
    rw [hbitmap] at hiff
    exact hiff

theorem finsetFront_insert (n : ℕ) : finsetFront (insert n ∅) = some n := by
  have hne : (insert n ∅ : Finset ℕ).Nonempty := Finset.insert_nonempty n ∅
  rw [Refines.finsetFront_of_nonempty hne]
  exact congrArg some (Finset.min'_singleton n)

/-- One element is set, and is the front. -/
theorem run_finset_front (n : ℕ) :
    finsetImpl.run [.setBit () n, .front ()] (fun _ => ∅) =
      some ([.none, .number (some n)], Function.update (fun _ => ∅) () (insert n ∅)) := by
  show some ([BitmapResult.none, .number (finsetFront (insert n ∅))], _) = _
  rw [finsetFront_insert]
  rfl

theorem legal_setBit_front {size n : ℕ} (hn : n < bitmapBits * size) :
    AlongRun (BitmapOp.Legal size) [.setBit () n, .front ()] fun _ => ∅ := by
  refine ⟨hn, fun r hr => ⟨?_, fun _ _ => trivial⟩⟩
  obtain rfl := Option.some.inj hr
  exact Finset.insert_nonempty n ∅

/-- Element 3 is set, and is the front. -/
theorem bitmaps_implement_sets_three :
    ((bitmapImpl 1).run [.setBit () 3, .front ()] fun _ => Bitmap.create 1).map
        (fun r => (r.1, Bitmap.members ∘ r.2)) =
      some ([.none, .number (some 3)], Function.update (fun _ => ∅) () (insert 3 ∅)) := by
  have hfits : AlongRun (BitmapOp.FrontFits fun n => n + 1 < 2 ^ 31)
      [.setBit () 3, .front ()] fun _ => ∅ := by
    refine ⟨trivial, fun r hr => ⟨fun n hn => ?_, fun _ _ => trivial⟩⟩
    obtain rfl := Option.some.inj hr
    have hle : n ≤ 3 := hn.2 (Finset.mem_coe.2 (Finset.mem_insert_self 3 ∅))
    omega
  rw [← run_finset_front]
  exact (bitmaps_implement_sets (Nat.le_refl 1) _ (legal_setBit_front (by decide))).2.2 hfits

/-- A front that is not in the range. -/
theorem Refines.run_setBit_front {β : Type*} {size n : ℕ} {I : BitmapImpl β} {ok : β → Prop}
    {members : β → Finset ℕ} {fits : ℕ → Prop} (h : Refines size I ok members fits)
    (hn : n < bitmapBits * size) (hout : ¬ fits n) :
    I.run [.setBit () n, .front ()] (fun _ => I.clear) = none := by
  obtain ⟨hok, hmembers⟩ := h.setBit h.clear.1 hn
  rw [h.clear.2, insert_empty_eq] at hmembers
  have hleast : IsLeast ↑(members (I.setBit I.clear n)) n := by
    rw [hmembers, Finset.coe_singleton]
    exact isLeast_singleton
  have hstep : I.step (Function.update (fun _ => I.clear) () (I.setBit I.clear n)) (.front ()) =
      none := by
    rw [BitmapImpl.step, Function.update_self, h.front_out hok hleast hout]
    rfl
  have hrest : I.run [.front ()] (Function.update (fun _ => I.clear) () (I.setBit I.clear n)) =
      none := by
    rw [BitmapImpl.run, hstep]
    rfl
  rw [Refines.run_cons (show I.step _ (.setBit () n) = some _ from rfl), hrest]
  rfl

/-- **A front of `2 ^ 31`** overflows the `int` of `bitmap::front`. -/
theorem front_overflows :
    (bitmapImpl (2 ^ 25 + 1)).run [.setBit () (2 ^ 31), .front ()]
        (fun _ => Bitmap.create (2 ^ 25 + 1)) = none ∧
      finsetImpl.run [.setBit () (2 ^ 31), .front ()] (fun _ => ∅) =
        some ([.none, .number (some (2 ^ 31))],
          Function.update (fun _ => ∅) () (insert (2 ^ 31) ∅)) :=
  ⟨(refines_bitmap (Nat.le_add_left 1 _)).run_setBit_front (by decide) (by decide),
    run_finset_front _⟩

end Meld
