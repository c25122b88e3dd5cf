import Mathlib.Data.List.Basic
import Mathlib.Logic.Function.Basic
import Meld.Vm.Types

/-!
# The match object of an iterate

An iterate instruction with match operands looks for the tuples that agree with a pattern.  The
pattern is kept in a match object: a `match_field` for every field of the predicate, with lists as
pointers to a pair of further match fields.  The object is built when the instruction is executed
for the first time, one copy for every thread, and its address is stored in the instruction.  In
later executions `retrieve_match_object` only writes the values that come from registers, from
fields of tuples or from the node, and finds them through a table of templates that was filled when
the object was built.

A word of memory is a natural number; an `int` is its lower half.  The match fields have addresses:
a field of the object of a thread in some block of memory, or the head or tail of a list pattern.

* `MatchOperand`, `accepted`: the operands, and the forms that `build_match_element` accepts for a
  field type.
* `MatchBuild`, `buildMatchElement`, `countVarMatchElement`: building an object, and counting the
  entries of its table.
* `MatchInstruction`: an instruction, with what is required of it.
* `MatchMemory`, `retrieveMatchObject`: the objects of one instruction and their use.
* `MatchPattern`, `Reads`: the pattern that a match field denotes.
-/

namespace Meld

/-- What a `variable_match_template` reads: `MATCH_REG`, `MATCH_FIELD` or `MATCH_HOST`. -/
inductive MatchSource where
  | reg (reg : ℕ)
  | field (reg num : ℕ)
  | host
  deriving DecidableEq

/-- What a match object depends on: the registers, the fields of the tuples they point to, and the
node. -/
structure MatchState where
  getReg : ℕ → ℕ
  getField : ℕ → ℕ → ℕ
  host : ℕ

/-- The word that the source has. -/
def MatchSource.value (st : MatchState) : MatchSource → ℕ
  | reg r => st.getReg r
  | field r num => st.getField r num
  | host => st.host

/-- A match operand, as the instruction encodes it. -/
inductive MatchOperand where
  | reg (reg : ℕ)
  | field (reg num : ℕ)
  | host
  | int (i : ℕ)
  | float (x : ℕ)
  | node (n : ℕ)
  | any
  | nil
  | nonNil
  | list (head tail : MatchOperand)
  deriving DecidableEq

namespace MatchOperand

/-- `val_is_any`. -/
def isAny : MatchOperand → Bool
  | any => true
  | _ => false

/-- The source of an operand that is no constant. -/
def source? : MatchOperand → Option MatchSource
  | reg r => some (.reg r)
  | field r num => some (.field r num)
  | host => some .host
  | _ => none

/-- The forms that `build_match_element` accepts for a field of the type. -/
def accepted : MatchOperand → FieldType → Bool
  | reg _, .int => true
  | field _ _, .int => true
  | int _, .int => true
  | field _ _, .float => true
  | float _, .float => true
  | reg _, .node => true
  | field _ _, .node => true
  | host, .node => true
  | node _, .node => true
  | any, .list _ => true
  | nil, .list _ => true
  | nonNil, .list _ => true
  | list head tail, .list sub =>
    (head.isAny || head.accepted sub) && (tail.isAny || tail.accepted (.list sub))
  | _, _ => false

/-- The number of registers, fields and hosts in an operand. -/
def numVariables : MatchOperand → ℕ
  | list head tail => head.numVariables + tail.numVariables
  | op => op.source?.toList.length

end MatchOperand

/-! ## Memory -/

/-- The address of a `match_field`. -/
inductive MatchLoc where
  /-- a field of the object of a thread in a block -/
  | field (block thread num : ℕ)
  | head (lm : ℕ)
  | tail (lm : ℕ)
  deriving DecidableEq

/-- `match_field`. -/
structure MatchCell where
  exact : Bool
  ty : FieldType
  field : ℕ

/-- `variable_match_template`. -/
structure MatchTemplate where
  loc : MatchLoc
  source : MatchSource
  deriving DecidableEq

/-- `FIELD_INT`, `FIELD_FLOAT`, `FIELD_NODE`: the value of a word at a type. -/
def valueAt : FieldType → ℕ → ℕ
  | .int, w => w % 2 ^ 32
  | _, w => w

/-- `SET_FIELD_INT`, `SET_FIELD_FLOAT`, `SET_FIELD_NODE`: the word after a value was stored in
it. -/
def setValue : FieldType → ℕ → ℕ → ℕ
  | .int, w, v => w / 2 ^ 32 * 2 ^ 32 + v % 2 ^ 32
  | _, _, v => v

/-- A match object that is being built: the match fields, the next free `list_match`, and the header
and table of the object. -/
structure MatchBuild where
  cells : MatchLoc → MatchCell
  fresh : ℕ
  anyExact : Bool
  varSize : ℕ
  vmt : List MatchTemplate

namespace MatchBuild

/-- The common body of `match_int`, `match_float` and `match_node`. -/
def matchValue (b : MatchBuild) (ty : FieldType) (mf : MatchLoc) (val : ℕ) : MatchBuild :=
  let m := b.cells mf
  { b with
    cells := Function.update b.cells mf ⟨true, m.ty, setValue ty m.field val⟩
    anyExact := true }

/-- `match_int`. -/
def matchInt (b : MatchBuild) (mf : MatchLoc) (val : ℕ) : MatchBuild := b.matchValue .int mf val

/-- `match_float`. -/
def matchFloat (b : MatchBuild) (mf : MatchLoc) (val : ℕ) : MatchBuild := b.matchValue .float mf val

/-- `match_node`. -/
def matchNode (b : MatchBuild) (mf : MatchLoc) (val : ℕ) : MatchBuild := b.matchValue .node mf val

/-- `SET_FIELD_PTR` of an exact field, whose type is written too. -/
def matchPtr (b : MatchBuild) (mf : MatchLoc) (ty : FieldType) (p : ℕ) : MatchBuild :=
  { b with cells := Function.update b.cells mf ⟨true, ty, p⟩, anyExact := true }

/-- `match_nil`. -/
def matchNil (b : MatchBuild) (mf : MatchLoc) : MatchBuild := b.matchPtr mf (b.cells mf).ty 0

/-- `match_non_nil`. -/
def matchNonNil (b : MatchBuild) (mf : MatchLoc) : MatchBuild := b.matchPtr mf (b.cells mf).ty 1

/-- `match_list`. -/
def matchList (b : MatchBuild) (mf : MatchLoc) (lm : ℕ) (t : FieldType) : MatchBuild :=
  b.matchPtr mf t lm

/-- `mf->exact = false`. -/
def matchAny (b : MatchBuild) (mf : MatchLoc) : MatchBuild :=
  let m := b.cells mf
  { b with cells := Function.update b.cells mf ⟨false, m.ty, m.field⟩ }

/-- A new `list_match` and its `init`; the values of its fields are whatever the memory held. -/
def newList (b : MatchBuild) (sub : FieldType) : MatchBuild :=
  let lm := b.fresh
  let cells := Function.update b.cells (.head lm) ⟨false, sub, (b.cells (.head lm)).field⟩
  { b with
    cells := Function.update cells (.tail lm) ⟨false, .list sub, (b.cells (.tail lm)).field⟩
    fresh := lm + 1 }

/-- `add_variable_match`, at the position `count`; there are `var_size` of them. -/
def addVariableMatch (b : MatchBuild) (vmt : MatchTemplate) : Option MatchBuild :=
  if b.vmt.length < b.varSize then some { b with vmt := b.vmt ++ [vmt] } else none

end MatchBuild

/-! ## Building an object -/

section Build

variable (st : MatchState)

/-- `build_match_element`.  A form that is not accepted throws. -/
def buildMatchElement : MatchOperand → FieldType → MatchLoc → MatchBuild → Option MatchBuild
  | .reg r, .int, mf, b => (b.matchInt mf (valueAt .int (st.getReg r))).addVariableMatch ⟨mf, .reg r⟩
  | .field r num, .int, mf, b =>
    (b.matchInt mf (valueAt .int (st.getField r num))).addVariableMatch ⟨mf, .field r num⟩
  | .int i, .int, mf, b => some (b.matchInt mf i)
  | .field r num, .float, mf, b =>
    (b.matchFloat mf (st.getField r num)).addVariableMatch ⟨mf, .field r num⟩
  | .float x, .float, mf, b => some (b.matchFloat mf x)
  | .reg r, .node, mf, b => (b.matchNode mf (st.getReg r)).addVariableMatch ⟨mf, .reg r⟩
  | .field r num, .node, mf, b =>
    (b.matchNode mf (st.getField r num)).addVariableMatch ⟨mf, .field r num⟩
  | .host, .node, mf, b => (b.matchNode mf st.host).addVariableMatch ⟨mf, .host⟩
  | .node n, .node, mf, b => some (b.matchNode mf n)
  | .any, .list _, mf, b => some (b.matchAny mf)
  | .nil, .list _, mf, b => some (b.matchNil mf)
  | .nonNil, .list _, mf, b => some (b.matchNonNil mf)
  | .list head tail, .list sub, mf, b => do
    let lm := b.fresh
    let b := b.newList sub
    let b ← (if head.isAny then some b else buildMatchElement head sub (.head lm) b)
    let b ← (if tail.isAny then some b else buildMatchElement tail (.list sub) (.tail lm) b)
    some (b.matchList mf lm (.list sub))
  | _, _, _, _ => none

/-- One round of the loop of `build_match_object`, for the object of a thread in a block. -/
def buildMatch (types : List FieldType) (block thread : ℕ) (b : MatchBuild)
    (x : ℕ × MatchOperand) : Option MatchBuild := do
  let t ← types[x.1]?
  buildMatchElement st x.2 t (.field block thread x.1) b

end Build

/-- `count_var_match_element`. -/
def countVarMatchElement : MatchOperand → FieldType → Option ℕ
  | .reg _, .int => some 1
  | .field _ _, .int => some 1
  | .int _, .int => some 0
  | .reg _, .float => some 1
  | .field _ _, .float => some 1
  | .float _, .float => some 0
  | .reg _, .node => some 1
  | .field _ _, .node => some 1
  | .host, .node => some 1
  | .node _, .node => some 0
  | .any, .list _ => some 0
  | .nil, .list _ => some 0
  | .nonNil, .list _ => some 0
  | .list head tail, .list sub => do
    let h ← (if head.isAny then some 0 else countVarMatchElement head sub)
    let t ← (if tail.isAny then some 0 else countVarMatchElement tail (.list sub))
    some (h + t)
  | _, _ => none

/-- `count_variable_match_elements`. -/
def countVariableMatchElements (types : List FieldType) (ops : List (ℕ × MatchOperand)) :
    Option ℕ :=
  ops.foldlM (fun n x => do
    let t ← types[x.1]?
    let k ← countVarMatchElement x.2 t
    some (n + k)) 0

/-- `match::mem_size`, with the sizes of the three structures in bytes. -/
def matchMemSize (numFields varSize : ℕ) : ℕ := 24 + numFields * 24 + varSize * 16

/-- `MATCH_OBJECT_SIZE`. -/
def matchObjectSize : ℕ := 256

/-- An iterate instruction with match operands: the field types of its predicate, the operands with
their fields, and the flag for a constant match, which is only set when no operand is a register,
a field or the host.  Its match object is not too large. -/
structure MatchInstruction where
  types : List FieldType
  ops : List (ℕ × MatchOperand)
  constant : Bool
  numThreads : ℕ
  ops_ne_nil : ops ≠ []
  numThreads_pos : 0 < numThreads
  accepted : ∀ x ∈ ops, ∃ t, types[x.1]? = some t ∧ x.2.accepted t = true
  constant_ok : constant = true → ∀ x ∈ ops, x.2.numVariables = 0
  fits : matchMemSize types.length (ops.map (·.2.numVariables)).sum ≤ matchObjectSize

/-! ## The objects of an instruction -/

/-- The header and the table of a match object. -/
structure MatchHeader where
  anyExact : Bool
  varSize : ℕ
  vmt : List MatchTemplate

/-- The memory for the match objects of one instruction.  The instruction holds the block of the
objects in use, one for every thread, or null. -/
structure MatchMemory where
  cells : MatchLoc → MatchCell
  fresh : ℕ
  headers : ℕ → ℕ → MatchHeader
  nextBlock : ℕ
  block : Option ℕ

namespace MatchInstruction

variable (I : MatchInstruction)

/-- `match::init`, on the match fields of an object. -/
def initCells (cells : MatchLoc → MatchCell) (block thread : ℕ) : MatchLoc → MatchCell
  | .field b t num =>
    if b = block ∧ t = thread then
      match I.types[num]? with
      | some ty => ⟨false, ty, (cells (.field b t num)).field⟩
      | none => cells (.field b t num)
    else cells (.field b t num)
  | loc => cells loc

/-- `init` and `build_match_object`: the object of a thread in a block. -/
def build (st : MatchState) (varSize block thread : ℕ) (mem : MatchMemory) : Option MatchMemory := do
  let b ← I.ops.foldlM (buildMatch st I.types block thread)
    ⟨I.initCells mem.cells block thread, mem.fresh, false, varSize, []⟩
  some
    { mem with
      cells := b.cells
      fresh := b.fresh
      headers := Function.update mem.headers block
        (Function.update (mem.headers block) thread ⟨b.anyExact, b.varSize, b.vmt⟩) }

/-- A new block with an object for every thread. -/
def newBlock (st : MatchState) (mem : MatchMemory) : Option MatchMemory := do
  let varSize ← countVariableMatchElements I.types I.ops
  if matchMemSize I.types.length varSize > matchObjectSize then none
  else
    (List.range I.numThreads).foldlM
      (fun mem thread => I.build st varSize mem.nextBlock thread mem) mem

/-- `tmp.match->field = …`, for one template. -/
def patchCell (st : MatchState) (cells : MatchLoc → MatchCell) (tmp : MatchTemplate) :
    MatchLoc → MatchCell :=
  let m := cells tmp.loc
  Function.update cells tmp.loc ⟨m.exact, m.ty, tmp.source.value st⟩

/-- The loop over the table of an object.  A position past the entries that were filled would be
read uninitialised. -/
def patch (st : MatchState) (h : MatchHeader) (cells : MatchLoc → MatchCell) :
    Option (MatchLoc → MatchCell) :=
  (List.range h.varSize).foldlM
    (fun cells i => (h.vmt[i]?).map (patchCell st cells)) cells

/-- **`retrieve_match_object`**, for a thread: the memory and the block of the object.  The thread
has `seen` the block of the instruction, or it has read null, maybe too early: then it builds a
block, and drops it if another thread was faster. -/
def retrieveMatchObject (thread : ℕ) (st : MatchState) (seen : Bool) (mem : MatchMemory) :
    Option (MatchMemory × ℕ) := do
  let mem ← (if mem.block.isSome && seen then some mem
    else (I.newBlock st mem).map fun new =>
      { new with nextBlock := mem.nextBlock + 1, block := mem.block.or (some mem.nextBlock) })
  let block ← mem.block
  if I.constant then some (mem, block)
  else do
    let cells ← patch st (mem.headers block thread) mem.cells
    some ({ mem with cells := cells }, block)

end MatchInstruction

/-! ## Patterns -/

/-- What a match field looks for. -/
inductive MatchPattern where
  | any
  | int (i : ℕ)
  | float (x : ℕ)
  | node (n : ℕ)
  | nil
  | nonNil
  | list (head tail : MatchPattern)
  deriving DecidableEq

/-- The pattern of a value at a type. -/
def MatchPattern.ofValue : FieldType → ℕ → MatchPattern
  | .int, w => .int (valueAt .int w)
  | .float, w => .float (valueAt .float w)
  | .node, w => .node (valueAt .node w)
  | _, _ => .any

/-- The pattern that the match field at an address denotes, for a field of the type. -/
inductive Reads (cells : MatchLoc → MatchCell) : FieldType → MatchLoc → MatchPattern → Prop where
  | any {ty : FieldType} {loc : MatchLoc} (h : (cells loc).exact = false) : Reads cells ty loc .any
  | value {ty : FieldType} {loc : MatchLoc} (h : (cells loc).exact = true)
      (hty : ty = .int ∨ ty = .float ∨ ty = .node) :
      Reads cells ty loc (.ofValue ty (cells loc).field)
  | nil {sub : FieldType} {loc : MatchLoc} (h : (cells loc).exact = true)
      (hp : (cells loc).field = 0) : Reads cells (.list sub) loc .nil
  | nonNil {sub : FieldType} {loc : MatchLoc} (h : (cells loc).exact = true)
      (hp : (cells loc).field = 1) : Reads cells (.list sub) loc .nonNil
  | list {sub : FieldType} {loc : MatchLoc} {lm : ℕ} {head tail : MatchPattern}
      (h : (cells loc).exact = true) (hp : (cells loc).field = lm) (hlm : 1 < lm)
      (hhead : Reads cells sub (.head lm) head) (htail : Reads cells (.list sub) (.tail lm) tail) :
      Reads cells (.list sub) loc (.list head tail)

/-- A match field denotes at most one pattern. -/
theorem Reads.unique {cells : MatchLoc → MatchCell} {ty : FieldType} {loc : MatchLoc}
    {p q : MatchPattern} (hp : Reads cells ty loc p) (hq : Reads cells ty loc q) : p = q := by
  induction hp generalizing q with
  | any h =>
    cases hq with
    | any => rfl
    | value h' | nil h' | nonNil h' | list h' => rw [h] at h'; cases h'
  | value h hty =>
    cases hq with
    | any h' => rw [h] at h'; cases h'
    | value => rfl
    | nil | nonNil | list => simp at hty
  | nil h hp =>
    cases hq with
    | any h' => rw [h] at h'; cases h'
    | value _ hty => simp at hty
    | nil => rfl
    | nonNil _ hp' => omega
    | list _ hp' => omega
  | nonNil h hp =>
    cases hq with
    | any h' => rw [h] at h'; cases h'
    | value _ hty => simp at hty
    | nil _ hp' => omega
    | nonNil => rfl
    | list _ hp' => omega
  | list h hp hlm _ _ ihead itail =>
    cases hq with
    | any h' => rw [h] at h'; cases h'
    | value _ hty => simp at hty
    | nil _ hp' => omega
    | nonNil _ hp' => omega
    | list _ hp' _ hhead htail =>
      subst hp hp'
      rw [ihead hhead, itail htail]

end Meld
