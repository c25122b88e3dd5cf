import Meld.Lib.Ieee
import Meld.Vm.Types

/-!
# Words and the values they hold

A `tuple_field` is a word of 8 bytes that is read as one of several types.  An `int` is only the
lower half, and writing one leaves the upper half as it was: in a field that has just been declared
it is anything.

* `Field`: the word, with the ways to read it.
* `toIntVal`: a size as an `int`.
* `buildFromInt`: the word of an `int`, with what the unused bytes hold.
* `FieldType.used`: a word without its unused bytes.
* `FieldValues`: what the words of a type are the values of.
-/

namespace Meld

/-- `tuple_field`. -/
abbrev Field := BitVec 64

namespace Field

/-- `FIELD_INT`. -/
def int (f : Field) : BitVec 32 := f.setWidth 32

/-- `FIELD_FLOAT`: the bits. -/
def float (f : Field) : BitVec 64 := f

/-- `FIELD_NODE`. -/
def node (f : Field) : BitVec 64 := f

end Field

/-- `build_from_int`, in a field whose upper half holds `unused`. -/
def buildFromInt (unused : BitVec 32) (v : BitVec 32) : Field := unused ++ v

/-- `build_from_float`. -/
def buildFromFloat (v : BitVec 64) : Field := v

/-- `build_from_node`. -/
def buildFromNode (v : BitVec 64) : Field := v

/-- `build_from_field`. -/
def buildFromField (v : Field) : Field := v

/-- A conversion to `int_val`. -/
def toIntVal (n : ℕ) : ℤ := (BitVec.ofNat 32 n).toInt

theorem toIntVal_of_lt {k : ℕ} (h : k < 2 ^ 31) : toIntVal k = k := by
  rw [toIntVal, BitVec.toInt_ofNat', Int.bmod_eq_of_le] <;> omega

/-- The `int` of a size that is `v` in truth. -/
theorem toIntVal_eq_iff {n v : ℕ} (h : v ≤ n) :
    toIntVal n = v ↔ v < 2 ^ 31 ∧ 2 ^ 32 ∣ n - v := by
  rw [toIntVal, BitVec.toInt_ofNat', Int.bmod]
  split <;> omega

@[simp] theorem int_buildFromInt (unused v : BitVec 32) : (buildFromInt unused v).int = v := by
  rw [buildFromInt, Field.int]
  exact BitVec.setWidth_append_eq_right

/-- The word of a type, with zeros for the bytes that the type does not use. -/
def FieldType.used : FieldType → Field → Field
  | .int, f => f.int.setWidth 64
  | .bool, f => (f.setWidth 8).setWidth 64
  | _, f => f

theorem FieldType.used_int_inj {f g : Field} :
    FieldType.int.used f = FieldType.int.used g ↔ f.int = g.int := by
  refine ⟨fun h => ?_, fun h => congrArg (BitVec.setWidth 64) h⟩
  have hlow := congrArg (BitVec.setWidth 32) h
  rwa [used, used, BitVec.setWidth_setWidth_of_le _ (by decide),
    BitVec.setWidth_setWidth_of_le _ (by decide), BitVec.setWidth_eq, BitVec.setWidth_eq] at hlow

/-- The values that words hold, by type.  Numbers are equal if they compare so, where the bits of a
NaN stand for themselves; whether a reference is an address or what is there is left open. -/
structure FieldValues (ν : Type*) where
  value : FieldType → Field → ν
  int_iff : ∀ f g : Field, value .int f = value .int g ↔ f.int = g.int
  float_iff : ∀ f g : Field, value .float f = value .float g ↔
    f = g ∨ Ieee.isZero f.float = true ∧ Ieee.isZero g.float = true

/-- A reference is an address. -/
def FieldValues.addresses : FieldValues Field where
  value
    | .float, f => if Ieee.isZero f.float then 0 else f
    | t, f => t.used f
  int_iff _ _ := FieldType.used_int_inj
  float_iff f g := by
    show (if Ieee.isZero f.float then 0 else f) = (if Ieee.isZero g.float then 0 else g) ↔ _
    have hzero : Ieee.isZero (0 : Field).float = true := rfl
    by_cases hf : Ieee.isZero f.float = true <;> by_cases hg : Ieee.isZero g.float = true
    · simp [hf, hg]
    · rw [if_pos hf, if_neg hg]
      refine ⟨fun h => absurd (h ▸ hzero) hg, ?_⟩
      rintro (rfl | ⟨-, h⟩)
      · exact absurd hf hg
      · exact absurd h hg
    · rw [if_neg hf, if_pos hg]
      refine ⟨fun h => absurd (h ▸ hzero) hf, ?_⟩
      rintro (rfl | ⟨h, -⟩)
      · exact absurd hg hf
      · exact absurd h hf
    · simp [hf, hg]

end Meld
