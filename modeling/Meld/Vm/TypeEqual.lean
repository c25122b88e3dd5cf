import Meld.Vm.Types
import Mathlib.Tactic.Common

/-!
# Equality of field types

`type::equal` is virtual.  The class `type` compares the kinds, and each composed type compares the
kinds first and then what it is composed of: a list after a cast without a check, the other ones
after a `dynamic_cast`.  The loop of `struct_type::equal` leaves the function when two components
differ, but behind it there is no `return true`.

* `equal`: the function.
* `equal_eq_true_iff`: equal types are the same, and no structure occurs in them.
* `structural_iff`: where `equal` is the equality of trees.
-/

namespace Meld

/-- `field_type`. -/
inductive FieldKind where
  | int
  | float
  | node
  | list
  | struct
  | bool
  | thread
  | array
  | set
  | string
  | any
  deriving DecidableEq

namespace FieldType

/-- `get_type`. -/
def getType : FieldType → FieldKind
  | .int => .int
  | .float => .float
  | .node => .node
  | .list _ => .list
  | .struct _ => .struct
  | .bool => .bool
  | .thread => .thread
  | .array _ => .array
  | .set _ => .set
  | .string => .string
  | .any => .any

/-- `type::equal`, which the classes of the composed types override. -/
def baseEqual (t other : FieldType) : Bool := t.getType = other.getType

mutual

/-- `equal`. -/
def equal : FieldType → FieldType → Bool
  | .list subType, other =>
    if ¬ (FieldType.list subType).baseEqual other then false
    else
      match other with
      | .list subType' => subType.equal subType'
      | _ => false
  | .struct types, other =>
    if ¬ (FieldType.struct types).baseEqual other then false
    else
      match other with
      | .struct types' =>
        if types.length ≠ types'.length then false
        else if ¬ equalComponents types types' then false
        -- the function goes on behind the loop, to the same line as for another class
        else false
      | _ => false
  | .set base, other =>
    if ¬ (FieldType.set base).baseEqual other then false
    else
      match other with
      | .set base' => base.equal base'
      | _ => false
  | .array base, other =>
    if ¬ (FieldType.array base).baseEqual other then false
    else
      match other with
      | .array base' => base.equal base'
      | _ => false
  | t, other => t.baseEqual other

/-- The loop of `struct_type::equal`: it comes to its end. -/
def equalComponents : List FieldType → List FieldType → Bool
  | t :: types, other :: types' => t.equal other && equalComponents types types'
  | _, _ => true

end

/-- No `struct_type` occurs in the type. -/
def noStruct : FieldType → Bool
  | .struct _ => false
  | .list t | .array t | .set t => t.noStruct
  | _ => true

/-- **Equal types** are the same type, without a structure in it. -/
theorem equal_eq_true_iff : ∀ t u : FieldType, t.equal u = true ↔ t.noStruct = true ∧ t = u
  | .list t, u => by
    cases u <;> simp [equal, baseEqual, getType, noStruct, equal_eq_true_iff t]
  | .array t, u => by
    cases u <;> simp [equal, baseEqual, getType, noStruct, equal_eq_true_iff t]
  | .set t, u => by
    cases u <;> simp [equal, baseEqual, getType, noStruct, equal_eq_true_iff t]
  | .struct types, u => by
    cases u <;> simp [equal, noStruct]
  | .int, u | .float, u | .node, u | .bool, u | .thread, u | .string, u | .any, u => by
    cases u <;> simp [equal, baseEqual, getType, noStruct]

/-- **Where `equal` is structural equality**: on two types it is, exactly if the first one has no
structure in it or the two are not the same.  So it is reflexive exactly on the types without a
structure; it is symmetric and transitive on all. -/
theorem structural_iff (t u : FieldType) :
    ((t.equal u = true ↔ t = u) ↔ t.noStruct = true ∨ t ≠ u) ∧
      (t.equal t = true ↔ t.noStruct = true) ∧
      (t.equal u = true → u.equal t = true) ∧
      ∀ v : FieldType, t.equal u = true → u.equal v = true → t.equal v = true := by
  refine ⟨?_, ?_, fun h => ?_, fun v htu huv => ?_⟩
  · rw [equal_eq_true_iff]
    by_cases heq : t = u <;> simp [heq]
  · simp [equal_eq_true_iff]
  · obtain ⟨hstruct, rfl⟩ := (equal_eq_true_iff t u).1 h
    exact h
  · obtain ⟨hstruct, rfl⟩ := (equal_eq_true_iff t u).1 htu
    exact huv

/-- A list of integers is equal to itself. -/
theorem structural_listInt : (FieldType.list .int).equal (.list .int) = true :=
  (structural_iff (.list .int) .int).2.1.2 rfl

/-- **A structure is not equal to itself.** -/
theorem not_forall_structural : ¬ ∀ t u : FieldType, t.equal u = true ↔ t = u := by
  intro h
  have hequal := (h (.struct [.int]) (.struct [.int])).2 rfl
  rw [equal_eq_true_iff] at hequal
  exact Bool.false_ne_true hequal.1

end FieldType

end Meld
