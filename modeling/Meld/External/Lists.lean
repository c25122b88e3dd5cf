import Meld.Runtime.Fields

/-!
# The list externals

A list of the runtime is given here by its elements.  A function that returns a new list goes
through a stack or a vector of values, and one of the conversions of `runtime/list.hpp` makes the
list from it.  Every cell is put in front of the ones made before, so that the order depends on
which end the conversion begins with.  Most functions have a case for each type of elements, and
abort for the types that have none.

* `fromStackToList`, `fromStackToReverseList`, `fromVectorToReverseList`: the conversions.
* `Library`: what the functions leave to the memory and to the standard library.
* `lexistss`, `intlistdiff`, `lremove`, `intlistsub`, `lappend`, `lsort`, `lremoveduplicates`,
  `lreverse`, `demergemessages`: the functions.
-/

namespace Meld
namespace External

/-- How a function ends without a result: it aborts, or what it does is undefined. -/
inductive Fault where
  | abort
  | undefined
  deriving DecidableEq

/-- The result of a function. -/
abbrev Result (α : Type) := Except Fault α

/-! ## Conversions

A stack has its top first.  The number that `conv` is given counts the cells that have been made. -/

section Conversions

variable {α : Type}

/-- `from_stack_to_list`, with the list made so far. -/
def fromStackToList (conv : ℕ → α → Field) : List α → List Field → List Field
  | [], ptr => ptr
  | top :: stk, ptr => fromStackToList conv stk (conv ptr.length top :: ptr)

/-- The loop of `from_stack_to_reverse_list`. -/
def moveStack : List α → List α → List α
  | [], stk2 => stk2
  | top :: stk, stk2 => moveStack stk (top :: stk2)

/-- `from_stack_to_reverse_list`. -/
def fromStackToReverseList (conv : ℕ → α → Field) (stk : List α) : List Field :=
  fromStackToList conv (moveStack stk []) []

/-- `from_vector_to_reverse_list`, with the list made so far. -/
def fromVectorToReverseList (conv : ℕ → α → Field) : List α → List Field → List Field
  | [], ptr => ptr
  | elem :: vec, ptr => fromVectorToReverseList conv vec (conv ptr.length elem :: ptr)

end Conversions

/-- The word of an `int` in the cell with the given number, where `unused` tells what the unused
bytes hold. -/
def intConv (unused : ℕ → BitVec 32) (i : ℕ) (v : BitVec 32) : Field := buildFromInt (unused i) v

/-- `from_int_stack_to_list`. -/
def fromIntStackToList (unused : ℕ → BitVec 32) (stk : List (BitVec 32)) : List Field :=
  fromStackToList (intConv unused) stk []

/-- `from_int_stack_to_reverse_list`. -/
def fromIntStackToReverseList (unused : ℕ → BitVec 32) (stk : List (BitVec 32)) : List Field :=
  fromStackToReverseList (intConv unused) stk

/-- `from_node_stack_to_list`. -/
def fromNodeStackToList (stk : List (BitVec 64)) : List Field :=
  fromStackToList (fun _ => buildFromNode) stk []

/-- `from_general_stack_to_list`. -/
def fromGeneralStackToList (stk : List Field) : List Field :=
  fromStackToList (fun _ => buildFromField) stk []

/-- `from_int_vector_to_reverse_list`. -/
def fromIntVectorToReverseList (unused : ℕ → BitVec 32) (vec : List (BitVec 32)) : List Field :=
  fromVectorToReverseList (intConv unused) vec []

/-- `from_float_vector_to_reverse_list`. -/
def fromFloatVectorToReverseList (vec : List (BitVec 64)) : List Field :=
  fromVectorToReverseList (fun _ => buildFromFloat) vec []

/-! ## What is not in the source -/

/-- `std::sort`, which orders a list by a comparison of keys and leaves open what it does for any
other comparison, the order in which an unordered set is gone through, the unused bytes of new
words, and the numbers of the nodes. -/
structure Library where
  sort : {α : Type} → (α → α → Bool) → List α → List α
  sort_perm : ∀ {α : Type} (lt : α → α → Bool) (key : α → ℤ) (l : List α),
    (∀ a ∈ l, ∀ b ∈ l, lt a b = decide (key a < key b)) → (sort lt l).Perm l
  sort_pairwise : ∀ {α : Type} (lt : α → α → Bool) (key : α → ℤ) (l : List α),
    (∀ a ∈ l, ∀ b ∈ l, lt a b = decide (key a < key b)) →
      (sort lt l).Pairwise fun a b => key a ≤ key b
  order : List (BitVec 32) → List (BitVec 32)
  order_perm : ∀ l, (order l).Perm l
  unused : ℕ → BitVec 32
  getId : BitVec 64 → ℕ

/-! ## The functions -/

/-- A loop that pushes what it reads of the elements that it keeps. -/
def pushKept {α : Type} (keep : Field → Bool) (read : Field → α) : List Field → List α → List α
  | [], s => s
  | p :: ls, s => pushKept keep read ls (if keep p then read p :: s else s)

/-- The loop of `lexistss` over the second list. -/
def existsLoop (ls : List Field) (ty : FieldType) : List Field → Result Bool
  | [] => .ok false
  | head :: x =>
    match ty with
    | .int => if ls.any fun p => p.int == head.int then .ok true else existsLoop ls ty x
    | .float => if ls.any fun p => Ieee.eq p.float head.float then .ok true else existsLoop ls ty x
    | .node =>
      -- the word is read as a number, which is converted
      match Ieee.toUInt64 head.float with
      | none => .error .undefined
      | some i => if ls.any fun p => p.node == i then .ok true else existsLoop ls ty x
    | _ => .error .abort

/-- `lexistss`. -/
def lexistss (ls other : List Field) (ty : FieldType) : Result Bool :=
  if ls.isEmpty then .ok false
  else if other.isEmpty then .ok false
  else existsLoop ls ty other

/-- `has_value`. -/
def hasValue (l : List Field) (v : BitVec 32) : Bool := l.any fun p => p.int == v

/-- The loop of `intlistdiff`. -/
def diffLoop (ls2 : List Field) : List Field → List (BitVec 32) → List (BitVec 32) :=
  pushKept (fun p => !hasValue ls2 p.int) Field.int

/-- `intlistdiff`. -/
def intlistdiff (L : Library) (ls1 ls2 : List Field) : List Field :=
  fromIntStackToList L.unused (diffLoop ls2 ls1 [])

/-- The loop of `lremove` for `int`s.  What is pushed is read as a node and converted. -/
def removeInts (n : BitVec 32) : List Field → List (BitVec 32) → List (BitVec 32) :=
  pushKept (fun p => p.int ≠ n) fun p => p.node.setWidth 32

/-- The loop of `lremove` for nodes. -/
def removeNodes (n : BitVec 64) : List Field → List (BitVec 64) → List (BitVec 64) :=
  pushKept (fun p => p.node ≠ n) Field.node

/-- `lremove`. -/
def lremove (L : Library) (ls : List Field) (n : Field) (ty : FieldType) : Result (List Field) :=
  if ls.isEmpty then .ok ls
  else
    match ty with
    | .int => .ok (fromIntStackToList L.unused (removeInts n.int ls []))
    | .node => .ok (fromNodeStackToList (removeNodes n.node ls []))
    | _ => .error .abort

/-- The first loop of `intlistsub`.  The counter stays at or below `a`. -/
def skipLoop (a : ℤ) : List Field → ℤ → List Field × ℤ
  | [], ctn => ([], ctn)
  | p :: ls, ctn => if ctn < a then skipLoop a ls (ctn + 1) else (p :: ls, ctn)

/-- The second loop of `intlistsub`: the stack.  The counter stays at or below `b`. -/
def subLoop (b : ℤ) : List Field → ℤ → List (BitVec 32) → List (BitVec 32)
  | [], _, s => s
  | p :: ls, ctn, s => if ctn < b then subLoop b ls (ctn + 1) (p.int :: s) else s

/-- `intlistsub`. -/
def intlistsub (L : Library) (p : List Field) (a b : BitVec 32) : List Field :=
  let r := skipLoop a.toInt p 0
  fromIntStackToList L.unused (subLoop b.toInt r.1 r.2 [])

/-- The two loops of `lappend`. -/
def pushAll : List Field → List Field → List Field := pushKept (fun _ => true) id

/-- `lappend`. -/
def lappend (ls1 ls2 : List Field) : List Field :=
  if ls1.isEmpty ∧ ls2.isEmpty then []
  else fromGeneralStackToList (pushAll ls2 (pushAll ls1 []))

/-- `lsort`.  The vector of nodes is not used. -/
def lsort (L : Library) (ls : List Field) (ty : FieldType) : Result (List Field) :=
  if ls.isEmpty then .ok ls
  else
    match ty with
    | .int =>
      let vec := L.sort (fun a1 a2 => a2.slt a1) (ls.map Field.int)
      .ok (fromIntVectorToReverseList L.unused vec)
    | .float =>
      let vec := L.sort (fun a1 a2 => Ieee.lt a2 a1) (ls.map Field.float)
      .ok (fromFloatVectorToReverseList vec)
    | .node =>
      let _vec := L.sort (fun a1 a2 => L.getId a2 < L.getId a1) (ls.map Field.node)
      .ok []
    | _ => .error .abort

/-- The first loop of `lremoveduplicates`: the elements of the set, in the order in which they
came. -/
def distinctLoop : List Field → List (BitVec 32) → List (BitVec 32)
  | [], set => set
  | p :: ls, set => distinctLoop ls (if p.int ∈ set then set else set ++ [p.int])

/-- The second loop of `lremoveduplicates`. -/
def createAll (unused : ℕ → BitVec 32) : List (BitVec 32) → List Field → List Field
  | [], nl => nl
  | v :: set, nl => createAll unused set (intConv unused nl.length v :: nl)

/-- `lremoveduplicates`. -/
def lremoveduplicates (L : Library) (ls : List Field) (ty : FieldType) : Result (List Field) :=
  if ls.isEmpty then .ok ls
  else
    match ty with
    | .int => .ok (createAll L.unused (L.order (distinctLoop ls [])) [])
    | _ => .error .abort

/-- The loop of `lreverse`. -/
def reverseLoop : List Field → List Field → List Field
  | [], nl => nl
  | p :: ls, nl => reverseLoop ls (p :: nl)

/-- `lreverse`. -/
def lreverse (ls : List Field) : List Field := if ls.isEmpty then ls else reverseLoop ls []

/-- The loop of `demergemessages`: the stack.  The assertion fails if the second list ends before
the first one. -/
def mergeLoop : List Field → List Field → List (BitVec 32) → Result (List (BitVec 32))
  | [], _, s => .ok s
  | _ :: _, [], _ => .error .abort
  | p1 :: ls1, p2 :: ls2, s => mergeLoop ls1 ls2 ((p1.int ||| p2.int) :: s)

/-- `demergemessages`. -/
def demergemessages (unused : ℕ → BitVec 32) (v1 v2 : List Field) : Result (List Field) := do
  let s ← mergeLoop v1 v2 []
  .ok (fromIntStackToReverseList unused s)

end External
end Meld
