import Mathlib.Algebra.GroupWithZero.Nat
import Mathlib.Data.Nat.Notation

/-!
# Field types

The types a field of a predicate, a register or an element of a list can have.  A program holds a
table of them and refers to its entries by number.
-/

namespace Meld

/-- `vm::type`: the kinds of `field_type`, with the subtypes that the classes `list_type`,
`struct_type`, `array_type` and `set_type` carry. -/
inductive FieldType where
  | int
  | float
  | node
  | list (subType : FieldType)
  | struct (types : List FieldType)
  | bool
  | thread
  | array (base : FieldType)
  | set (base : FieldType)
  | string
  | any

/-- `reference_type`: the values are addresses of objects with a reference count. -/
def FieldType.referenceType : FieldType → Bool
  | .list _ | .struct _ | .string | .node | .array _ | .set _ => true
  | _ => false

/-- What decoding an instruction reads of `vm::program`: the table of types and, for every
predicate, the types of its fields. -/
structure ProgramTypes where
  types : List FieldType
  predicateFields : List (List FieldType)

namespace ProgramTypes

/-- `program::get_type`. -/
def getType (P : ProgramTypes) (n : ℕ) : Option FieldType := P.types[n]?

/-- The field types of `program::get_predicate`. -/
def getPredicate (P : ProgramTypes) (n : ℕ) : Option (List FieldType) := P.predicateFields[n]?

end ProgramTypes

end Meld
