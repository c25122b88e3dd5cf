import Mathlib.Data.BitVec

/-!
# Comparing floating point numbers

`==` of two numbers with 64 bits does not compare the bits: the zeros of both signs are equal, and a
NaN is not equal to anything.  The other numbers are ordered by their bits without the sign, in
reverse if the sign is set.

* `isNaN`, `isZero`, `eq`: what the bits say.
* `eq_iff`: equal numbers are no NaN, and have the same bits or are zeros.
* `key`, `le`, `lt`: the order.
* `toUInt64`: the conversion to an unsigned integer.
-/

namespace Meld
namespace Ieee

/-- All bits of the exponent are set, and some bit of the fraction. -/
def isNaN (x : BitVec 64) : Bool :=
  x.extractLsb' 52 11 == 0x7ff#11 && x.extractLsb' 0 52 != 0#52

/-- Zero, of any sign. -/
def isZero (x : BitVec 64) : Bool := x.extractLsb' 0 63 == 0#63

/-- `==`. -/
def eq (x y : BitVec 64) : Bool := !isNaN x && !isNaN y && (x == y || isZero x && isZero y)

variable {x y z : BitVec 64}

theorem eq_iff : eq x y = true ↔
    isNaN x = false ∧ isNaN y = false ∧ (x = y ∨ isZero x = true ∧ isZero y = true) := by
  unfold eq
  simp [and_assoc]

theorem eq_comm (x y : BitVec 64) : eq x y = eq y x := by
  rw [Bool.eq_iff_iff, eq_iff, eq_iff]
  constructor
  · rintro ⟨hx, hy, h⟩
    exact ⟨hy, hx, h.imp Eq.symm And.symm⟩
  · rintro ⟨hy, hx, h⟩
    exact ⟨hx, hy, h.imp Eq.symm And.symm⟩

theorem eq_trans (hxy : eq x y = true) (hyz : eq y z = true) : eq x z = true := by
  rw [eq_iff] at *
  obtain ⟨hx, -, hxy⟩ := hxy
  obtain ⟨-, hz, hyz⟩ := hyz
  refine ⟨hx, hz, ?_⟩
  rcases hxy with rfl | ⟨hx0, hy0⟩
  · exact hyz
  · rcases hyz with rfl | ⟨-, hz0⟩
    · exact Or.inr ⟨hx0, hy0⟩
    · exact Or.inr ⟨hx0, hz0⟩

/-- The two zeros. -/
theorem isZero_iff : isZero x = true ↔ x = 0#64 ∨ x = 0x8000000000000000#64 := by
  unfold isZero
  rw [beq_iff_eq]
  constructor
  · intro h
    have hmod : x.toNat % 2 ^ 63 = 0 := by
      have := congrArg BitVec.toNat h
      simpa [BitVec.extractLsb'_toNat] using this
    have hlt := x.isLt
    have hnat : x.toNat = 0 ∨ x.toNat = 2 ^ 63 := by omega
    exact hnat.imp (fun h => BitVec.eq_of_toNat_eq h) (fun h => BitVec.eq_of_toNat_eq h)
  · rintro (rfl | rfl) <;> rfl

/-! ## The order -/

/-- The place of a number that is not a NaN in the order. -/
def key (x : BitVec 64) : ℤ :=
  if x.msb then -(x.extractLsb' 0 63).toNat else (x.extractLsb' 0 63).toNat

/-- `<=`. -/
def le (x y : BitVec 64) : Bool := !isNaN x && !isNaN y && decide (key x ≤ key y)

/-- `<`. -/
def lt (x y : BitVec 64) : Bool := !isNaN x && !isNaN y && decide (key x < key y)

theorem le_iff : le x y = true ↔ isNaN x = false ∧ isNaN y = false ∧ key x ≤ key y := by
  simp [le, and_assoc]

theorem lt_iff (hx : isNaN x = false) (hy : isNaN y = false) :
    lt x y = decide (key x < key y) := by
  simp [lt, hx, hy]

/-! ## Conversion -/

/-- The conversion to `uint64_t`: the fraction is cut off.  It is `none` for a number that is out of
the range then, and for a NaN. -/
def toUInt64 (x : BitVec 64) : Option (BitVec 64) :=
  let e := (x.extractLsb' 52 11).toNat
  let m := 2 ^ 52 + (x.extractLsb' 0 52).toNat
  if e < 1023 then some 0
  else if x.msb ∨ e ≥ 1087 then none
  else some (BitVec.ofNat 64 (if e ≤ 1075 then m >>> (1075 - e) else m <<< (e - 1075)))

example : toUInt64 0x4014000000000000#64 = some 5 := by decide

/-- A small word is the bits of a number below one. -/
theorem toUInt64_of_lt (hx : x.toNat < 2 ^ 61) : toUInt64 x = some 0 := by
  have he : (x.extractLsb' 52 11).toNat < 1023 := by
    rw [BitVec.extractLsb'_toNat, Nat.shiftRight_eq_div_pow]
    omega
  rw [toUInt64]
  exact if_pos he

end Ieee
end Meld
