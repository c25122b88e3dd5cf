import Meld.Vm.Types
import Mathlib.Data.List.Basic

/-!
# Tuples

The values of the fields that all of the database can handle (integers, floats, node addresses and
nested lists of these), the tuples made of them, and the types they have.
-/

namespace Meld

/-- A `double` that is no NaN, up to the sign of zero: what `==` tells apart. -/
structure FloatNumber where
  bits : BitVec 64
  notNaN : ¬ (bits.extractLsb' 52 11 = 0x7ff#11 ∧ bits.extractLsb' 0 52 ≠ 0#52)
  notNegZero : bits ≠ 0x8000000000000000#64
  deriving DecidableEq

/-- A `tuple_field` of type int, float, node or list.  A list is a chain of `cons` cells. -/
inductive Value where
  | int (i : BitVec 32)
  | float (x : FloatNumber)
  | node (n : BitVec 64)
  | nil
  | cons (head tail : Value)
  deriving DecidableEq

/-- `vm::tuple`: its fields in order. -/
abbrev Tuple := List Value

/-- `get_field`: the value of one field. -/
def getField (field : ℕ) (tpl : Tuple) : Value := tpl.getD field .nil

/-- `get_int`. -/
def getInt (field : ℕ) (tpl : Tuple) : BitVec 32 :=
  match getField field tpl with
  | .int i => i
  | _ => 0

/-- `set_int`. -/
def setInt (field : ℕ) (i : BitVec 32) (tpl : Tuple) : Tuple := tpl.set field (.int i)

/-- `derivation_direction`. -/
inductive Direction where
  | positive
  | negative
  deriving DecidableEq

/-- `vm::full_tuple`: a tuple on its way to the database.  `isAggregate` is the tag bit of the
predicate pointer. -/
structure FullTuple where
  data : Tuple
  pred : ℕ
  dir : Direction
  depth : ℕ
  isAggregate : Bool
  deriving DecidableEq

/-- The value is of the type. -/
inductive HasType : Value → FieldType → Prop where
  | int (i : BitVec 32) : HasType (.int i) .int
  | float (x : FloatNumber) : HasType (.float x) .float
  | node (n : BitVec 64) : HasType (.node n) .node
  | nil (t : FieldType) : HasType .nil (.list t)
  | cons {head tail : Value} {t : FieldType} (hhead : HasType head t)
      (htail : HasType tail (.list t)) : HasType (.cons head tail) (.list t)

/-- The fields of the tuple have the types of a predicate's fields. -/
def TupleHasType (tpl : Tuple) (fields : List FieldType) : Prop :=
  List.Forall₂ HasType tpl fields

/-- The tuples of a predicate with the given field types. -/
def TypedTuple (fields : List FieldType) : Type := {tpl : Tuple // TupleHasType tpl fields}

end Meld
