import Meld.Lib.Agree
import Meld.Lib.Region
import Meld.Runtime.Containers
import Meld.Runtime.Fields

/-!
# The memory of an array

A `runtime::array` has a block of words, of which the first ones are the elements.  The block is
twice as large as the elements that an array is made of, which leaves no room if there are none, and
is doubled when it is full.  Three things go wrong: twice nothing is nothing; `array::add` gives the
new block back, and not the old one, before it writes to it; and the loop of `array::exists` runs to
the number of bytes of an element, since a local variable hides the size of the array.

What a new block holds is a part of the call.  An access outside of a block or to one that was given
back is `none`, and so is a call of `abort`.

* `WordArray`, `arrayExternals`: the arrays of a program, with the functions on them.
* `valueArrays`: the same on sequences of values.
* `StaysInBlock`: when a call does on words what it does on values.
* `step_wellFormed`: such a call keeps the elements in the block.
* `array_operations_iff`: a sequence of calls does so exactly if every call does.
-/

namespace Meld

/-- `lookup_type_size`, in bytes. -/
def FieldType.lookupTypeSize : FieldType → Option ℕ
  | .list _ | .struct _ | .string | .node | .array _ | .set _ => some 8
  | .int => some 4
  | .float => some 8
  | _ => none

namespace Arrays

/-- `runtime::array`.  The type is the one that all calls for this array come with. -/
structure WordArray where
  type : FieldType
  cap : ℕ
  size : ℕ
  elems : Region Field

/-- `allocate` of the allocator for words: the number of bytes is a `size_t`. -/
def allocate (memory : ℕ → Field) (cnt : ℕ) : Region Field := ⟨cnt * 8 % 2 ^ 64 / 8, memory⟩

/-- `memcmp` of the first bytes of two words. -/
def sameBytes (size : ℕ) (f g : Field) : Bool := f.setWidth (8 * size) == g.setWidth (8 * size)

namespace WordArray

/-- The loop of `array::exists`, with `left` words to go. -/
def existsLoop (a : WordArray) (f : Field) (size i : ℕ) : ℕ → Option Bool
  | 0 => some false
  | left + 1 => do
    let word ← a.elems.read i
    if sameBytes size f word then some true else existsLoop a f size (i + 1) left

/-- `array::exists`: the bound of the loop is the size of an element. -/
def «exists» (a : WordArray) (f : Field) : Option Bool := do
  let size ← a.type.lookupTypeSize
  a.existsLoop f size 0 size

/-- `array::add`: the block that is given back is the new one. -/
def add (a : WordArray) (f : Field) : Option WordArray :=
  if a.size = a.cap then none
  else do
    let elems ← a.elems.write a.size f
    return { a with size := a.size + 1, elems }

/-- `array::create_empty`. -/
def createEmpty (memory : ℕ → Field) (t : FieldType) (initCap : ℕ) : WordArray :=
  ⟨t, initCap, 0, allocate memory initCap⟩

/-- `array::create_fill`. -/
def createFill (memory : ℕ → Field) (t : FieldType) (size : ℕ) (f : Field) : Option WordArray := do
  let cap := size * 2 % 2 ^ 64
  let elems ← (allocate memory cap).fill f size
  return ⟨t, cap, size, elems⟩

/-- `array::create_from_vector`. -/
def createFromVector (memory : ℕ → Field) (t : FieldType) (v : List Field) : Option WordArray := do
  let cap := v.length * 2 % 2 ^ 64
  let elems ← (allocate memory cap).copy ⟨v.length, fun i => v.getD i 0⟩ v.length
  return ⟨t, cap, v.length, elems⟩

/-- `array::mutate`. -/
def mutate (memory : ℕ → Field) (old : WordArray) (idx : ℕ) (f : Field) : Option WordArray := do
  let elems ← (allocate memory old.cap).copy old.elems old.size
  let elems ← elems.write idx f
  return { old with elems }

/-- `array::mutate_add`. -/
def mutateAdd (memory : ℕ → Field) (old : WordArray) (f : Field) : Option WordArray := do
  let cap := if old.size = old.cap then 2 * old.cap % 2 ^ 64 else old.cap
  let elems ← (allocate memory cap).copy old.elems old.size
  let elems ← elems.write old.size f
  return { old with cap, size := old.size + 1, elems }

end WordArray

/-- `array_init`.  The size becomes a `size_t`. -/
def arrayInit (memory : ℕ → Field) (size : BitVec 32) (item : Field) (t : FieldType) :
    Option WordArray :=
  WordArray.createFill memory t (size.signExtend 64).toNat item

/-- `array_from_list`. -/
def arrayFromList (memory : ℕ → Field) (ls : List Field) (t : FieldType) : Option WordArray :=
  if ls = [] then some (WordArray.createEmpty memory t 8)
  else WordArray.createFromVector memory t ls

/-! ## Programs -/

/-- A call, with what the memory of a new block holds and the number of the array that it is
given. -/
inductive ArrayOp where
  | init (memory : ℕ → Field) (size : BitVec 32) (item : Field) (t : FieldType)
  | fromList (memory : ℕ → Field) (ls : List Field) (t : FieldType)
  | mutateAdd (memory : ℕ → Field) (k : ℕ) (f : Field)
  | mutate (memory : ℕ → Field) (k : ℕ) (idx : BitVec 64) (f : Field)
  | add (k : ℕ) (f : Field)
  | exists (k : ℕ) (f : Field)

/-- What a call returns.  A new array gets the next number. -/
inductive ArrayResult where
  | array
  | done
  | bool (b : Bool)

/-- The functions, for a program that has made some arrays. -/
def arrayExternals : Machine ArrayOp ArrayResult (List WordArray) where
  step arrays
    | .init memory size item t =>
      (arrayInit memory size item t).map fun a => (.array, arrays ++ [a])
    | .fromList memory ls t => (arrayFromList memory ls t).map fun a => (.array, arrays ++ [a])
    | .mutateAdd memory k f => do
      let old ← arrays[k]?
      (old.mutateAdd memory f).map fun a => (.array, arrays ++ [a])
    | .mutate memory k idx f => do
      let old ← arrays[k]?
      (old.mutate memory idx.toNat f).map fun a => (.array, arrays ++ [a])
    | .add k f => do
      let a ← arrays[k]?
      (a.add f).map fun a => (.done, arrays.set k a)
    | .exists k f => do
      let a ← arrays[k]?
      (a.exists f).map fun b => (.bool b, arrays)

section Values

variable {ν : Type*} (V : FieldValues ν)

open Classical in
/-- The functions on sequences of values. -/
noncomputable def valueArrays : Machine ArrayOp ArrayResult (List (FieldType × List ν)) where
  step arrays
    | .init _ size item t =>
      some (.array, arrays ++ [(t, List.replicate size.toInt.toNat (V.value t item))])
    | .fromList _ ls t => some (.array, arrays ++ [(t, ls.map (V.value t))])
    | .mutateAdd _ k f =>
      arrays[k]?.map fun old => (.array, arrays ++ [(old.1, old.2 ++ [V.value old.1 f])])
    | .mutate _ k idx f =>
      arrays[k]?.map fun old => (.array, arrays ++ [(old.1, old.2.set idx.toNat (V.value old.1 f))])
    | .add k f =>
      arrays[k]?.map fun a => (.done, arrays.set k (a.1, a.2 ++ [V.value a.1 f]))
    | .exists k f => arrays[k]?.map fun a => (.bool (decide (V.value a.1 f ∈ a.2)), arrays)

/-- The elements of an array. -/
def WordArray.words (a : WordArray) : List Field := a.elems.take a.size

/-- The values of an array, with their type. -/
def WordArray.values (a : WordArray) : FieldType × List ν := (a.type, a.words.map (V.value a.type))

/-- The loop of `array::exists` comes to the right result: it finds a word or it stays in the block,
and among its words is one with the bytes of `f` if and only if an element has the value of `f`. -/
def WordArray.ExistsFits (a : WordArray) (f : Field) : Prop :=
  ∃ size, a.type.lookupTypeSize = some size ∧
    (size ≤ a.cap ∨ ∃ i < a.cap, i < size ∧ sameBytes size f (a.elems.place i)) ∧
    ((∃ i < size, i < a.cap ∧ sameBytes size f (a.elems.place i)) ↔
      ∃ i < a.size, V.value a.type (a.elems.place i) = V.value a.type f)

/-- A call does on words what it does on values. -/
def StaysInBlock (arrays : List WordArray) : ArrayOp → Prop
  | .init _ size _ _ => 0 ≤ size.toInt
  | .fromList _ ls _ => ls.length < 2 ^ 60
  | .mutateAdd _ k _ => ∀ a, arrays[k]? = some a →
    a.size < a.cap ∨ 0 < a.cap ∧ a.cap < 2 ^ 60
  | .mutate _ k idx _ => ∀ a, arrays[k]? = some a → idx.toNat < a.cap
  | .add k _ => ∀ a, arrays[k]? = some a → a.size < a.cap
  | .exists k f => ∀ a, arrays[k]? = some a → a.ExistsFits V f

end Values

/-! ## The functions on one array -/

/-- The invariant: the elements are in the block, and the block has `cap` words. -/
structure WordArray.WellFormed (a : WordArray) : Prop where
  size_le : a.size ≤ a.cap
  cap_lt : a.cap < 2 ^ 61
  length_eq : a.elems.length = a.cap

/-- A well-formed array with given elements. -/
structure Holds (a : WordArray) (t : FieldType) (ws : List Field) : Prop extends a.WellFormed where
  type_eq : a.type = t
  words_eq : a.words = ws

section Words

variable {memory : ℕ → Field} {t : FieldType} {a : WordArray} {f : Field}

theorem length_allocate {cnt : ℕ} (h : cnt < 2 ^ 61) : (allocate memory cnt).length = cnt := by
  show cnt * 8 % 2 ^ 64 / 8 = cnt
  omega

/-- The block for twice as many words as there could be bytes is too small. -/
theorem length_allocate_lt {n : ℕ} (h : 2 ^ 60 ≤ n) :
    (allocate memory (n * 2 % 2 ^ 64)).length < n := by
  show n * 2 % 2 ^ 64 * 8 % 2 ^ 64 / 8 < n
  omega

/-- A size as a `size_t`. -/
theorem toNat_signExtend_size (size : BitVec 32) :
    ((size.signExtend 64).toNat : ℤ) =
      if 0 ≤ size.toInt then size.toInt else 2 ^ 64 + size.toInt := by
  have hint := BitVec.toInt_signExtend_of_le (x := size) (v := 64) (by decide)
  have hlt := (size.signExtend 64).isLt
  rw [BitVec.toInt_eq_toNat_cond] at hint
  split at hint <;> split <;> omega

theorem createFill_holds {n : ℕ} (h : n < 2 ^ 60) :
    ∃ a, WordArray.createFill memory t n f = some a ∧ Holds a t (List.replicate n f) := by
  have hcap : n * 2 % 2 ^ 64 = n * 2 := Nat.mod_eq_of_lt (by omega)
  have hlen : (allocate memory (n * 2)).length = n * 2 := length_allocate (by omega)
  refine ⟨⟨t, n * 2, n, (allocate memory (n * 2)).overlay (fun _ => f) n⟩, ?_,
    ⟨Nat.le_mul_of_pos_right n Nat.two_pos, by show n * 2 < _; omega, hlen⟩, rfl, ?_⟩
  · rw [WordArray.createFill, hcap, Region.fill_of_le (by omega)]
    rfl
  · rw [WordArray.words, Region.take_overlay]
    simp

theorem createFill_none {n : ℕ} (h : 2 ^ 60 ≤ n) : WordArray.createFill memory t n f = none := by
  rw [WordArray.createFill, Region.fill_of_lt (length_allocate_lt h)]
  rfl

/-- **`array_init`**. -/
theorem arrayInit_holds {size : BitVec 32} (h : 0 ≤ size.toInt) :
    ∃ a, arrayInit memory size f t = some a ∧
      Holds a t (List.replicate size.toInt.toNat f) := by
  have hword := toNat_signExtend_size size
  have hlt := BitVec.two_mul_toInt_lt (x := size)
  rw [if_pos h] at hword
  rw [arrayInit, ← hword, Int.toNat_natCast]
  exact createFill_holds (by omega)

theorem arrayInit_none {size : BitVec 32} (h : ¬ 0 ≤ size.toInt) :
    arrayInit memory size f t = none := by
  have hword := toNat_signExtend_size size
  have hle := BitVec.le_two_mul_toInt (x := size)
  rw [if_neg h] at hword
  exact createFill_none (by omega)

theorem createFromVector_holds {ls : List Field} (h : ls.length < 2 ^ 60) :
    ∃ a, WordArray.createFromVector memory t ls = some a ∧ Holds a t ls := by
  have hcap : ls.length * 2 % 2 ^ 64 = ls.length * 2 := Nat.mod_eq_of_lt (by omega)
  have hlen : (allocate memory (ls.length * 2)).length = ls.length * 2 := length_allocate (by omega)
  refine ⟨⟨t, ls.length * 2, ls.length,
      (allocate memory (ls.length * 2)).overlay (fun i => ls.getD i 0) ls.length⟩, ?_,
    ⟨Nat.le_mul_of_pos_right _ Nat.two_pos, by show ls.length * 2 < _; omega, hlen⟩, rfl, ?_⟩
  · rw [WordArray.createFromVector, hcap, Region.copy_of_le (by omega) (le_refl ls.length)]
    rfl
  · rw [WordArray.words, Region.take_overlay]
    refine List.ext_getElem (by simp) fun i _ hi => ?_
    rw [List.getElem_map, List.getElem_range, List.getD_eq_getElem?_getD,
      List.getElem?_eq_getElem hi, Option.getD_some]

/-- **`array_from_list`**. -/
theorem arrayFromList_holds {ls : List Field} (h : ls.length < 2 ^ 60) :
    ∃ a, arrayFromList memory ls t = some a ∧ Holds a t ls := by
  rw [arrayFromList]
  split
  · rename_i hnil
    subst hnil
    exact ⟨_, rfl, ⟨Nat.zero_le 8, by show 8 < 2 ^ 61; decide, length_allocate (by decide)⟩, rfl,
      rfl⟩
  · exact createFromVector_holds h

theorem arrayFromList_none {ls : List Field} (h : 2 ^ 60 ≤ ls.length) :
    arrayFromList memory ls t = none := by
  have hne : ls ≠ [] := by
    rintro rfl
    exact absurd h (by decide)
  rw [arrayFromList, if_neg hne, WordArray.createFromVector,
    Region.copy_of_lt (length_allocate_lt h)]
  rfl

/-- The copy that `mutate` and `mutate_add` begin with. -/
theorem copy_elems (ha : a.WellFormed) {cap : ℕ} (hsize : a.size ≤ cap) (hcap : cap < 2 ^ 61) :
    (allocate memory cap).copy a.elems a.size =
      some ((allocate memory cap).overlay a.elems.place a.size) := by
  refine Region.copy_of_le ?_ (ha.length_eq.symm ▸ ha.size_le)
  rw [length_allocate hcap]
  exact hsize

theorem take_overlay_elems (cap : ℕ) :
    ((allocate memory cap).overlay a.elems.place a.size).take a.size = a.words :=
  Region.take_overlay ..

/-- **`mutate`**. -/
theorem mutate_holds (ha : a.WellFormed) {idx : ℕ} (h : idx < a.cap) :
    ∃ b, a.mutate memory idx f = some b ∧ Holds b a.type (a.words.set idx f) := by
  have hlen : (allocate memory a.cap).length = a.cap := length_allocate ha.cap_lt
  have hwrite := Region.write_of_lt (b := (allocate memory a.cap).overlay a.elems.place a.size)
    (h.trans_eq hlen.symm) f
  refine ⟨{ a with elems := ((allocate memory a.cap).overlay a.elems.place a.size).put idx f }, ?_,
    ⟨ha.size_le, ha.cap_lt, hlen⟩, rfl, ?_⟩
  · rw [WordArray.mutate, copy_elems ha ha.size_le ha.cap_lt, Option.bind_eq_bind,
      Option.bind_some, hwrite]
    rfl
  · rw [WordArray.words, Region.take_put, take_overlay_elems]

theorem mutate_none (ha : a.WellFormed) {idx : ℕ} (h : a.cap ≤ idx) :
    a.mutate memory idx f = none := by
  have hlen : (allocate memory a.cap).length = a.cap := length_allocate ha.cap_lt
  have hwrite := Region.write_of_le (b := (allocate memory a.cap).overlay a.elems.place a.size)
    (hlen.trans_le h) f
  rw [WordArray.mutate, copy_elems ha ha.size_le ha.cap_lt, Option.bind_eq_bind,
    Option.bind_some, hwrite]
  rfl

/-- **`mutate_add`**, in a block of the right size. -/
theorem mutateAdd_holds (ha : a.WellFormed) (h : a.size < a.cap ∨ 0 < a.cap ∧ a.cap < 2 ^ 60) :
    ∃ b, a.mutateAdd memory f = some b ∧ Holds b a.type (a.words ++ [f]) := by
  obtain ⟨cap, hcap⟩ : ∃ cap, cap = if a.size = a.cap then 2 * a.cap % 2 ^ 64 else a.cap := ⟨_, rfl⟩
  have hsize := ha.size_le
  have hlt := ha.cap_lt
  have hroom : a.size < cap ∧ cap < 2 ^ 61 := by
    split at hcap <;> omega
  have hlen : (allocate memory cap).length = cap := length_allocate hroom.2
  have hwrite := Region.write_of_lt (b := (allocate memory cap).overlay a.elems.place a.size)
    (hroom.1.trans_eq hlen.symm) f
  refine ⟨⟨a.type, cap, a.size + 1,
      ((allocate memory cap).overlay a.elems.place a.size).put a.size f⟩, ?_,
    ⟨hroom.1, hroom.2, hlen⟩, rfl, ?_⟩
  · rw [WordArray.mutateAdd, ← hcap]
    simp only [copy_elems ha hroom.1.le hroom.2, Option.bind_eq_bind, Option.bind_some, hwrite]
    rfl
  · rw [WordArray.words, Region.take_put_self, take_overlay_elems]

/-- **A full array** that has no room, or whose room cannot be doubled. -/
theorem mutateAdd_none (ha : a.WellFormed)
    (h : ¬ (a.size < a.cap ∨ 0 < a.cap ∧ a.cap < 2 ^ 60)) : a.mutateAdd memory f = none := by
  have hfull : a.size = a.cap := by
    have := ha.size_le
    omega
  rw [WordArray.mutateAdd, if_pos hfull]
  rcases Nat.eq_zero_or_pos a.cap with hzero | hpos
  · have hwrite := Region.write_of_le (b := (allocate memory 0).overlay a.elems.place a.size)
      (i := a.size) (Nat.zero_le _) f
    simp only [hzero, Nat.mul_zero, Nat.zero_mod,
      copy_elems ha (hfull.trans hzero).le (show 0 < 2 ^ 61 by decide), Option.bind_eq_bind,
      Option.bind_some, hwrite]
    rfl
  · have hlarge : 2 ^ 60 ≤ a.size := by omega
    rw [Nat.mul_comm, ← hfull]
    simp only [Region.copy_of_lt (length_allocate_lt hlarge)]
    rfl

/-- **`array::add`**. -/
theorem add_holds (ha : a.WellFormed) (h : a.size < a.cap) :
    ∃ b, a.add f = some b ∧ Holds b a.type (a.words ++ [f]) := by
  refine ⟨{ a with size := a.size + 1, elems := a.elems.put a.size f }, ?_,
    ⟨h, ha.cap_lt, ha.length_eq⟩, rfl, ?_⟩
  · rw [WordArray.add, if_neg (Nat.ne_of_lt h), Region.write_of_lt (ha.length_eq.symm ▸ h)]
    rfl
  · rw [WordArray.words, Region.take_put_self]
    rfl

theorem add_none (ha : a.WellFormed) (h : ¬ a.size < a.cap) : a.add f = none :=
  if_pos (Nat.le_antisymm ha.size_le (Nat.le_of_not_lt h))

/-- **The loop of `array::exists`**. -/
theorem existsLoop_eq_some_iff (ha : a.WellFormed) (size left : ℕ) {i : ℕ} (hi : i ≤ a.cap)
    (b : Bool) :
    a.existsLoop f size i left = some b ↔
      (i + left ≤ a.cap ∨
        ∃ j < a.cap, (i ≤ j ∧ j < i + left) ∧ sameBytes size f (a.elems.place j) = true) ∧
      (b = true ↔
        ∃ j < a.cap, (i ≤ j ∧ j < i + left) ∧ sameBytes size f (a.elems.place j) = true) := by
  induction left generalizing i with
  | zero =>
    have hnone : ¬ ∃ j < a.cap, (i ≤ j ∧ j < i) ∧ sameBytes size f (a.elems.place j) = true := by
      rintro ⟨j, -, hj, -⟩
      omega
    rw [WordArray.existsLoop, Option.some.injEq, Nat.add_zero, iff_false_right hnone,
      and_iff_right (Or.inl hi)]
    cases b <;> simp
  | succ left ih =>
    rw [WordArray.existsLoop, Region.read, ha.length_eq]
    rcases Nat.lt_or_ge i a.cap with hlt | hge
    · rw [if_pos hlt]
      simp only [Option.bind_eq_bind, Option.bind_some]
      by_cases hsame : sameBytes size f (a.elems.place i) = true
      · have hfound : ∃ j < a.cap, (i ≤ j ∧ j < i + (left + 1)) ∧
            sameBytes size f (a.elems.place j) = true := ⟨i, hlt, by omega, hsame⟩
        rw [if_pos hsame, Option.some.injEq, iff_true_right hfound, and_iff_right (Or.inr hfound)]
        exact eq_comm
      · have hbehind : (∃ j < a.cap, (i ≤ j ∧ j < i + (left + 1)) ∧
              sameBytes size f (a.elems.place j) = true) ↔
            ∃ j < a.cap, (i + 1 ≤ j ∧ j < i + 1 + left) ∧
              sameBytes size f (a.elems.place j) = true := by
          refine exists_congr fun j => and_congr_right fun _ => and_congr_left fun hj => ?_
          have hne : j ≠ i := fun heq => hsame (heq ▸ hj)
          omega
        rw [if_neg hsame, ih hlt, hbehind, Nat.add_comm left 1, ← Nat.add_assoc]
    · rw [if_neg (Nat.not_lt.2 hge)]
      refine iff_of_false nofun fun h => ?_
      rcases h.1 with hend | ⟨j, hj, hle, -⟩ <;> omega

end Words

/-! ## Runs -/

section Runs

variable {ν : Type*} {V : FieldValues ν}

/-- The sequences that a program has made. -/
def values (V : FieldValues ν) (arrays : List WordArray) : List (FieldType × List ν) :=
  arrays.map (WordArray.values V)

theorem Holds.values_eq {a : WordArray} {t : FieldType} {ws : List Field} (h : Holds a t ws) :
    a.values V = (t, ws.map (V.value t)) := by
  rw [WordArray.values, h.type_eq, h.words_eq]

theorem getElem?_values (arrays : List WordArray) (k : ℕ) :
    (values V arrays)[k]? = arrays[k]?.map (WordArray.values V) :=
  List.getElem?_map ..

/-- A call that makes an array, if it does not fail exactly under the condition `P`. -/
theorem new_iff (arrays : List WordArray) {o : Option WordArray} {t : FieldType} {ws : List Field}
    {P : Prop} (hsome : P → ∃ a, o = some a ∧ Holds a t ws) (hnone : ¬ P → o = none) :
    (o.map fun a => (ArrayResult.array, arrays ++ [a])).map (Prod.map id (values V)) =
        some (ArrayResult.array, values V arrays ++ [(t, ws.map (V.value t))]) ↔ P := by
  by_cases hP : P
  · obtain ⟨a, rfl, ha⟩ := hsome hP
    refine iff_of_true ?_ hP
    show some (ArrayResult.array, values V (arrays ++ [a])) = _
    rw [values, List.map_append, List.map_singleton, ha.values_eq]
    rfl
  · rw [hnone hP]
    exact iff_of_false nofun hP

/-- A call that is given an array. -/
theorem given_iff {arrays : List WordArray} {k : ℕ}
    {F : WordArray → Option (ArrayResult × List WordArray)}
    {G : FieldType × List ν → ArrayResult × List (FieldType × List ν)} {P : WordArray → Prop}
    (h : ∀ a ∈ arrays, (F a).map (Prod.map id (values V)) = some (G (a.values V)) ↔ P a) :
    (arrays[k]?.bind F).map (Prod.map id (values V)) = (values V arrays)[k]?.map G ↔
      ∀ a, arrays[k]? = some a → P a := by
  rw [getElem?_values]
  cases hk : arrays[k]? with
  | none => exact iff_of_true rfl nofun
  | some a =>
    rw [Option.bind_some, Option.map_some, Option.map_some, h a (List.mem_of_getElem? hk)]
    exact ⟨fun hP b hb => Option.some.inj hb ▸ hP, fun hP => hP a rfl⟩

open Classical in
theorem exists_iff {a : WordArray} (ha : a.WellFormed) (f : Field) :
    a.exists f = some (decide (V.value a.type f ∈ a.words.map (V.value a.type))) ↔
      a.ExistsFits V f := by
  have hmem : V.value a.type f ∈ a.words.map (V.value a.type) ↔
      ∃ i < a.size, V.value a.type (a.elems.place i) = V.value a.type f := by
    simp only [WordArray.words, List.mem_map, Region.mem_take]
    constructor
    · rintro ⟨_, ⟨i, hi, rfl⟩, heq⟩
      exact ⟨i, hi, heq⟩
    · rintro ⟨i, hi, heq⟩
      exact ⟨_, ⟨i, hi, rfl⟩, heq⟩
  have hb := hmem.symm.trans (decide_eq_true_iff (p := V.value a.type f ∈ _)).symm
  rw [WordArray.exists, WordArray.ExistsFits]
  cases a.type.lookupTypeSize with
  | none => exact iff_of_false nofun nofun
  | some size =>
    have hloop := existsLoop_eq_some_iff (f := f) ha size size (Nat.zero_le _)
      (decide (V.value a.type f ∈ a.words.map (V.value a.type)))
    simp only [Nat.zero_add, Nat.zero_le, true_and] at hloop
    have hsame : (∃ i < size, i < a.cap ∧ sameBytes size f (a.elems.place i) = true) ↔
        ∃ i < a.cap, i < size ∧ sameBytes size f (a.elems.place i) = true := by
      refine exists_congr fun i => ?_
      tauto
    rw [Option.bind_eq_bind, Option.bind_some, hloop, ← hb]
    simp only [Option.some.injEq, exists_eq_left', hsame]
    exact and_congr_right' iff_comm

/-- **One call**. -/
theorem step_iff {arrays : List WordArray} (hok : ∀ a ∈ arrays, a.WellFormed) (op : ArrayOp) :
    (arrayExternals.step arrays op).map (Prod.map id (values V)) =
        (valueArrays V).step (values V arrays) op ↔
      StaysInBlock V arrays op := by
  cases op with
  | init memory size item t =>
    have hholds : 0 ≤ size.toInt → ∃ a, arrayInit memory size item t = some a ∧
        Holds a t (List.replicate size.toInt.toNat item) := arrayInit_holds
    have hnew := new_iff (V := V) arrays hholds arrayInit_none
    rw [List.map_replicate] at hnew
    exact hnew
  | fromList memory ls t =>
    exact new_iff arrays arrayFromList_holds fun h => arrayFromList_none (Nat.le_of_not_lt h)
  | mutateAdd memory k f =>
    refine given_iff fun a ha => ?_
    have hholds : a.size < a.cap ∨ 0 < a.cap ∧ a.cap < 2 ^ 60 →
        ∃ b, a.mutateAdd memory f = some b ∧ Holds b a.type (a.words ++ [f]) :=
      mutateAdd_holds (hok a ha)
    have hnew := new_iff (V := V) arrays hholds (mutateAdd_none (hok a ha))
    rw [List.map_append] at hnew
    exact hnew
  | mutate memory k idx f =>
    refine given_iff fun a ha => ?_
    have hholds : idx.toNat < a.cap → ∃ b, a.mutate memory idx.toNat f = some b ∧
        Holds b a.type (a.words.set idx.toNat f) := mutate_holds (hok a ha)
    have hnew := new_iff (V := V) arrays hholds fun h =>
      mutate_none (hok a ha) (Nat.le_of_not_lt h)
    rw [List.map_set] at hnew
    exact hnew
  | add k f =>
    refine given_iff fun a ha => ?_
    by_cases hroom : a.size < a.cap
    · obtain ⟨b, hb, hholds⟩ := add_holds (f := f) (hok a ha) hroom
      refine iff_of_true ?_ hroom
      rw [hb]
      show some (ArrayResult.done, values V (arrays.set k b)) = _
      rw [values, List.map_set, hholds.values_eq, List.map_append]
      rfl
    · rw [add_none (hok a ha) hroom]
      exact iff_of_false nofun hroom
  | «exists» k f =>
    refine given_iff fun a ha => ?_
    rw [← exists_iff (hok a ha) f]
    cases a.exists f with
    | none => exact iff_of_false nofun nofun
    | some b =>
      show some (ArrayResult.bool b, values V arrays) = some (ArrayResult.bool _, _) ↔ _
      simp only [Option.some.injEq, Prod.mk.injEq, ArrayResult.bool.injEq, and_true]
      exact Iff.rfl

theorem forall_mem_concat {p : WordArray → Prop} {arrays : List WordArray} {b : WordArray}
    (h : ∀ a ∈ arrays, p a) (hb : p b) : ∀ a ∈ arrays ++ [b], p a := by
  intro a ha
  rcases List.mem_append.1 ha with ha | ha
  · exact h a ha
  · exact List.mem_singleton.1 ha ▸ hb

/-- A call that makes an array. -/
theorem new_wellFormed {arrays : List WordArray} (hok : ∀ a ∈ arrays, a.WellFormed)
    {o : Option WordArray} {t : FieldType} {ws : List Field} (ho : ∃ a, o = some a ∧ Holds a t ws)
    {r : ArrayResult × List WordArray}
    (hr : (o.map fun a => (ArrayResult.array, arrays ++ [a])) = some r) :
    ∀ a ∈ r.2, a.WellFormed := by
  obtain ⟨b, rfl, hb⟩ := ho
  obtain rfl := Option.some.inj hr
  exact forall_mem_concat hok hb.toWellFormed

/-- **The invariant after one call**. -/
theorem step_wellFormed {arrays : List WordArray} (hok : ∀ a ∈ arrays, a.WellFormed)
    {op : ArrayOp} (hop : StaysInBlock V arrays op) {r : ArrayResult × List WordArray}
    (hr : arrayExternals.step arrays op = some r) : ∀ a ∈ r.2, a.WellFormed := by
  cases op with
  | init memory size item t => exact new_wellFormed hok (arrayInit_holds hop) hr
  | fromList memory ls t => exact new_wellFormed hok (arrayFromList_holds hop) hr
  | mutateAdd memory k f =>
    obtain ⟨a, ha, hr⟩ := Option.bind_eq_some_iff.1 hr
    exact new_wellFormed hok (mutateAdd_holds (hok a (List.mem_of_getElem? ha)) (hop a ha)) hr
  | mutate memory k idx f =>
    obtain ⟨a, ha, hr⟩ := Option.bind_eq_some_iff.1 hr
    exact new_wellFormed hok (mutate_holds (hok a (List.mem_of_getElem? ha)) (hop a ha)) hr
  | add k f =>
    obtain ⟨a, ha, hr⟩ := Option.bind_eq_some_iff.1 hr
    obtain ⟨b, hb, hholds⟩ := add_holds (f := f) (hok a (List.mem_of_getElem? ha)) (hop a ha)
    rw [hb] at hr
    obtain rfl := Option.some.inj hr
    intro c hc
    rcases List.mem_or_eq_of_mem_set hc with hc | rfl
    · exact hok c hc
    · exact hholds.toWellFormed
  | «exists» k f =>
    obtain ⟨a, ha, hr⟩ := Option.bind_eq_some_iff.1 hr
    obtain ⟨b, -, rfl⟩ := Option.map_eq_some_iff.1 hr
    exact hok

end Runs

/-- **The arrays of a program** are the sequences that it asks for, after every part of its calls
and with what each returns, and none has more elements than its block has room for, exactly if
every call stays in its block. -/
theorem array_operations_iff {ν : Type*} (V : FieldValues ν) (ops : List ArrayOp) :
    (Machine.Agrees arrayExternals (valueArrays V) (values V) [] ops ∧
      ∀ n r, arrayExternals.run [] (ops.take n) = some r → ∀ a ∈ r.2, a.size ≤ a.cap) ↔
      arrayExternals.Along (StaysInBlock V) [] ops := by
  have hnil : ∀ a ∈ ([] : List WordArray), a.WellFormed := nofun
  have hok : ∀ (s : List WordArray) op r, (∀ a ∈ s, a.WellFormed) → StaysInBlock V s op →
      arrayExternals.step s op = some r → ∀ a ∈ r.2, a.WellFormed :=
    fun _ _ _ hs hop hr => step_wellFormed hs hop hr
  have hiff : Machine.Agrees arrayExternals (valueArrays V) (values V) [] ops ↔
      arrayExternals.Along (StaysInBlock V) [] ops :=
    Machine.agrees_iff (fun s op hs => step_iff hs op) hok [] hnil ops
  rw [hiff]
  exact and_iff_left_of_imp fun hall n r hr a ha => (hall.invariant hok hnil hr a ha).size_le

/-- **An array of no elements**: the first one that is added is written behind its block. -/
theorem not_agrees_empty :
    ¬ Machine.Agrees arrayExternals (valueArrays FieldValues.addresses)
      (values FieldValues.addresses) []
      [.init (fun _ => 0) 0 1 .int, .mutateAdd (fun _ => 0) 0 1] :=
  fun h => absurd (h 2) nofun

/-! ## With reference counts -/

section Counts

open Containers

variable (M : RuntimeObjs) {memory : ℕ → Field} {a b : WordArray} {A A' : RuntimeArray}
  {s s' : RefCount.Counts ℕ} {f : Field}

/-- The capacity and the elements of an array with reference counts. -/
structure Same (a : WordArray) (A : RuntimeArray) : Prop where
  type_eq : A.type = a.type
  cap_eq : A.cap = a.cap
  elems_eq : A.elems = a.words.map BitVec.toNat

end Counts

end Arrays
end Meld
