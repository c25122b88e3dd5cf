import Meld.Db.HashTable
import Meld.Lib.HashTree
import Meld.Lib.Ieee

/-!
# Hashing fields of every type

`hash_field` and `same_field0` once more, now on the values of all types a predicate can be hashed
by, with floats among them.  Floats are compared as numbers and hashed by their bits: the two zeros
count as the same and have different hashes.  The first digit of these is the same, the second is
not, so it is a matter of the other keys whether the zeros are in one chain.

* `StoredField`, `getStored`: the fields of a stored tuple.
* `hashStored`, `sameStored`: the two functions.
* `tableScheme`: the hash table, as a tree of buckets.
* `hash_eq_of_same`: equal keys have one hash, zeros apart.
* `leads_zero_iff`: where the digits of a zero lead that has the other sign.
-/

namespace Meld

open HashTree

/-- A `tuple_field` of a stored tuple.  A field of a type that no predicate is hashed by is a
word. -/
inductive StoredField where
  | int (i : BitVec 32)
  | float (x : BitVec 64)
  | node (n : BitVec 64)
  | nil
  | cons (head tail : StoredField)
  | other (w : BitVec 64)
  deriving DecidableEq

/-- `get_field`, from the fields of a tuple in order. -/
def getStored (field : ℕ) (tpl : List StoredField) : StoredField := tpl.getD field .nil

/-- `hash_field`, whose result is a `uint_val`.  It aborts on other types. -/
def hashStored : StoredField → ℕ
  | .int i => ((fnv1Hash (bytesOf i)).setWidth 32).toNat
  | .float x => ((fnv1Hash (floatBytes x)).setWidth 32).toNat
  | .node n => ((fnv1Hash (bytesOf ((n + 8#64).setWidth 32))).setWidth 32).toNat
  | .nil => 0
  | .cons _ _ => 1
  | .other _ => 0

/-- `same_field0`. -/
def sameStored : StoredField → StoredField → Bool
  | .int i, .int j => i == j
  | .float x, .float y => Ieee.eq x y
  | .node m, .node n => m == n
  | .nil, .nil => true
  | .cons _ _, .cons _ _ => true
  | _, _ => false

/-- The hash table of a predicate.  A hash is cut into digits of five bits, and `mod_hash` maps a
digit to a slot. -/
def tableScheme : Scheme StoredField where
  hash := hashStored
  same := sameStored
  width := Hash.prime
  slot id := Hash.modHash (id &&& Hash.subhashMask)
  slot_lt := Hash.digit_lt
  rest id := id >>> Hash.subhashShift
  threshold := Hash.createHashtableThreshold
  levels := Hash.maxLevels
  counter := 2 ^ 16

/-- A zero of either sign. -/
def isZeroField : StoredField → Bool
  | .float x => Ieee.isZero x
  | _ => false

variable {u v w : StoredField}

theorem symm_tableScheme : Symm tableScheme := by
  intro v w
  show sameStored v w = sameStored w v
  cases v <;> cases w <;> first | rfl | exact BEq.comm | exact Ieee.eq_comm _ _

/-- Two keys that count as the same are equal, or floats, or lists that are not null. -/
theorem sameStored_cases (h : sameStored v w = true) :
    v = w ∨ (∃ x y, v = .float x ∧ w = .float y ∧ Ieee.eq x y = true) ∨
      ∃ x xs y ys, v = .cons x xs ∧ w = .cons y ys := by
  cases v with
  | int i =>
    cases w with
    | int j => exact Or.inl (congrArg _ (eq_of_beq h))
    | _ => cases h
  | float x =>
    cases w with
    | float y => exact Or.inr (Or.inl ⟨x, y, rfl, rfl, h⟩)
    | _ => cases h
  | node m =>
    cases w with
    | node n => exact Or.inl (congrArg _ (eq_of_beq h))
    | _ => cases h
  | nil =>
    cases w with
    | nil => exact Or.inl rfl
    | _ => cases h
  | cons x xs =>
    cases w with
    | cons y ys => exact Or.inr (Or.inr ⟨x, xs, y, ys, rfl, rfl⟩)
    | _ => cases h
  | other => cases h

theorem trans_tableScheme : Trans tableScheme := by
  intro u v w huv hvw
  rcases sameStored_cases huv with rfl | ⟨x, y, rfl, rfl, hxy⟩ | ⟨x, xs, y, ys, rfl, rfl⟩
  · exact hvw
  · cases w with
    | float z => exact Ieee.eq_trans hxy hvw
    | _ => cases hvw
  · cases w with
    | cons z zs => rfl
    | _ => cases hvw

/-- **Keys that count as the same** have one hash, if they are not zeros with different signs. -/
theorem hash_eq_of_same (h : sameStored v w = true) :
    v = w ∨ hashStored v = hashStored w ∨ (isZeroField v = true ∧ isZeroField w = true) := by
  rcases sameStored_cases h with rfl | ⟨x, y, rfl, rfl, hxy⟩ | ⟨x, xs, y, ys, rfl, rfl⟩
  · exact Or.inl rfl
  · obtain ⟨-, -, rfl | hzero⟩ := Ieee.eq_iff.1 hxy
    · exact Or.inl rfl
    · exact Or.inr (Or.inr hzero)
  · exact Or.inr (Or.inl rfl)

theorem eq_zero_of_isZeroField (h : isZeroField v = true) :
    v = .float 0#64 ∨ v = .float 0x8000000000000000#64 := by
  cases v with
  | float x => exact (Ieee.isZero_iff.1 h).imp (congrArg _) (congrArg _)
  | _ => cases h

/-! ## Where the zeros are -/

/-- The hashes of the zeros have their first digit in common. -/
theorem digit_zero (h : isZeroField v = true) : tableScheme.digit 0 v = 5 := by
  rcases eq_zero_of_isZeroField h with rfl | rfl <;> decide +kernel

theorem digit_one_ne (hv : isZeroField v = true) (hw : isZeroField w = true) (hne : v ≠ w) :
    tableScheme.digit 1 w ≠ tableScheme.digit 1 v := by
  rcases eq_zero_of_isZeroField hv with rfl | rfl <;>
    rcases eq_zero_of_isZeroField hw with rfl | rfl
  · exact absurd rfl hne
  · decide +kernel
  · decide +kernel
  · exact absurd rfl hne

/-- `is_subhash` of the slot that the first digit of a key selects. -/
def slotIsTable {α : Type} (t : Tree StoredField α) (v : StoredField) : Bool :=
  match t with
  | .table slots => !isChain (slots (tableScheme.digit 0 v))
  | .chain _ => false

/-- **The zeros** are in one chain as long as their slot is not a table. -/
theorem leads_zero_iff {α : Type} {t : Tree StoredField α} (hv : isZeroField v = true)
    (hw : isZeroField w = true) (hne : v ≠ w) :
    Leads tableScheme t (hashStored v) 0 w ↔ slotIsTable t v = false := by
  cases t with
  | chain bs => exact iff_of_true trivial rfl
  | table slots =>
    have hfirst : tableScheme.digit 0 w = tableScheme.digit 0 v := by
      rw [digit_zero hv, digit_zero hw]
    show (tableScheme.digit 0 w = tableScheme.digit 0 v ∧
      Leads tableScheme (slots (tableScheme.digit 0 v)) _ 1 w) ↔
        (!isChain (slots (tableScheme.digit 0 v))) = false
    rw [and_iff_right hfirst]
    cases slots (tableScheme.digit 0 v) with
    | chain bs => exact iff_of_true trivial rfl
    | table slots' => exact iff_of_false (fun h => digit_one_ne hv hw hne h.1) Bool.noConfusion

end Meld
