import Mathlib.Algebra.GroupWithZero.Nat
import Mathlib.Data.List.Basic
import Mathlib.Data.Nat.Notation

/-!
# Numbers as bytes

Fixed-width little-endian words, and copies into and out of a buffer at a position.

* `ofBytes_toBytes`: the bytes of a number below `256 ^ k` give it back.
* `toBytes_ofBytes`: the number of some bytes has them as its bytes.
* `writeAt_append`, `readAt_append`: a copy at the end of what was written so far.
-/

namespace Bytes

/-- The lowest `k` bytes of a number, the low byte first. -/
def toBytes : ℕ → ℕ → List (BitVec 8)
  | 0, _ => []
  | k + 1, n => BitVec.ofNat 8 n :: toBytes k (n / 256)

/-- The number whose bytes these are. -/
def ofBytes : List (BitVec 8) → ℕ
  | [] => 0
  | b :: bs => b.toNat + 256 * ofBytes bs

@[simp] theorem length_toBytes (k n : ℕ) : (toBytes k n).length = k := by
  induction k generalizing n with
  | zero => rfl
  | succ k ih => rw [toBytes, List.length_cons, ih]

theorem ofBytes_toBytes {k n : ℕ} (h : n < 256 ^ k) : ofBytes (toBytes k n) = n := by
  induction k generalizing n with
  | zero => exact (Nat.lt_one_iff.1 h).symm
  | succ k ih =>
    have hrest : n / 256 < 256 ^ k := by
      rw [Nat.div_lt_iff_lt_mul (by decide), ← Nat.pow_succ]
      exact h
    rw [toBytes, ofBytes, ih hrest, BitVec.toNat_ofNat]
    exact Nat.mod_add_div n 256

theorem ofBytes_lt {bs : List (BitVec 8)} {k : ℕ} (h : bs.length = k) : ofBytes bs < 256 ^ k := by
  subst h
  induction bs with
  | nil => exact Nat.one_pos
  | cons b bs ih =>
    rw [ofBytes, List.length_cons, Nat.pow_succ]
    have hb := b.isLt
    omega

/-- The number of some bytes has them as its bytes. -/
theorem toBytes_ofBytes {bs : List (BitVec 8)} {k : ℕ} (h : bs.length = k) :
    toBytes k (ofBytes bs) = bs := by
  subst h
  induction bs with
  | nil => rfl
  | cons b bs ih =>
    have hb := b.isLt
    have hrest : (b.toNat + 256 * ofBytes bs) / 256 = ofBytes bs := by omega
    have hlow : BitVec.ofNat 8 (b.toNat + 256 * ofBytes bs) = b := by
      apply BitVec.eq_of_toNat_eq
      rw [BitVec.toNat_ofNat]
      omega
    rw [List.length_cons, ofBytes, toBytes, hrest, ih, hlow]

variable {α : Type*}

/-- `memcpy` into a buffer. -/
def writeAt (buf : List α) (pos : ℕ) (data : List α) : List α :=
  buf.take pos ++ data ++ buf.drop (pos + data.length)

/-- `memcpy` of `n` bytes out of a buffer. -/
def readAt (buf : List α) (pos n : ℕ) : List α := (buf.drop pos).take n

theorem writeAt_append (done rest data : List α) :
    writeAt (done ++ rest) done.length data = done ++ data ++ rest.drop data.length := by
  rw [writeAt, List.take_left, ← List.drop_drop, List.drop_left]

theorem length_writeAt {buf data : List α} {pos : ℕ} (h : pos + data.length ≤ buf.length) :
    (writeAt buf pos data).length = buf.length := by
  simp only [writeAt, List.length_append, List.length_take, List.length_drop]
  omega

theorem readAt_append (done data rest : List α) :
    readAt (done ++ (data ++ rest)) done.length data.length = data := by
  rw [readAt, List.drop_left, List.take_left]

end Bytes
