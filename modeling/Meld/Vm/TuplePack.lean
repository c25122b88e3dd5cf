import Meld.Lib.Bytes
import Meld.Vm.Tuple
import Mathlib.Algebra.Group.Int.Defs
import Mathlib.Data.Int.Basic
import Mathlib.Logic.Function.Basic

/-!
# Packing tuples

`tuple::pack` copies the fields of a tuple into a buffer and `tuple::unpack` makes a tuple of them
again, of which every word of a list goes into a new `cons` cell.  Three switches over the types of
the fields are involved: the size of the packed tuple, the writer and the reader.  `full_tuple` puts
the direction and the depth in front.

The position in the buffer is an `int`, the size of the buffer a `size_t`; both are numbers here,
and the conversions between them are `intOfSize` and `sizeOfInt`.  A failed assertion, a field type
the switch throws on and an access outside the buffer or to an address without an object are `none`.

* `PackBuffer.pack`, `unpack`: `utils::pack` and `utils::unpack`.
* `incrementRuntimeData`: the reference counts of what a word refers to.
* `Tuple.getStorageSize`, `packTuple`, `unpackTuple`, `packFull`, `unpackFull`.
-/

namespace Meld

namespace Packing

open Bytes

/-! ## The buffer -/

/-- `(int)n` of a `size_t`. -/
def intOfSize (n : ℕ) : ℤ :=
  if n % 2 ^ 32 < 2 ^ 31 then (n % 2 ^ 32 : ℕ) else (n % 2 ^ 32 : ℕ) - 2 ^ 32

/-- An `int` in an expression of type `size_t`. -/
def sizeOfInt (i : ℤ) : ℕ := (i % 2 ^ 64).toNat

/-- `buf` and `*pos`; `buf_size` is the length. -/
structure PackBuffer where
  bytes : List (BitVec 8)
  pos : ℤ

/-- `utils::pack`. -/
def PackBuffer.pack (data : List (BitVec 8)) (b : PackBuffer) : Option PackBuffer :=
  if 0 ≤ b.pos ∧ (sizeOfInt b.pos + data.length) % 2 ^ 64 ≤ b.bytes.length then
    some ⟨writeAt b.bytes b.pos.toNat data, intOfSize ((sizeOfInt b.pos + data.length) % 2 ^ 64)⟩
  else none

/-- `utils::unpack` of `n` bytes: these, and the new position. -/
def unpack (n : ℕ) (buf : List (BitVec 8)) (pos : ℤ) : Option (List (BitVec 8) × ℤ) :=
  if 0 ≤ pos ∧ (sizeOfInt pos + n) % 2 ^ 64 ≤ buf.length then
    some (readAt buf pos.toNat n, intOfSize ((sizeOfInt pos + n) % 2 ^ 64))
  else none

/-- `assert(*pos <= (int)buf_size)`. -/
def PackBuffer.assertLe (b : PackBuffer) : Option PackBuffer :=
  if b.pos ≤ intOfSize b.bytes.length then some b else none

/-- `assert(*pos < (int)buf_size)`. -/
def PackBuffer.assertLt (b : PackBuffer) : Option PackBuffer :=
  if b.pos < intOfSize b.bytes.length then some b else none

/-! ## Tuples -/

/-- The content of a field that can be packed.  A list is the words in its cells. -/
inductive PackValue where
  | int (i : BitVec 32)
  | float (f : BitVec 64)
  | node (n : BitVec 64)
  | list (words : List (BitVec 64))
  deriving DecidableEq

/-- The content is of the type. -/
inductive PackValue.HasType : PackValue → FieldType → Prop where
  | int (i : BitVec 32) : HasType (.int i) .int
  | float (f : BitVec 64) : HasType (.float f) .float
  | node (n : BitVec 64) : HasType (.node n) .node
  | list (words : List (BitVec 64)) (t : FieldType) : HasType (.list words) (.list t)

/-- `cons::size_list`. -/
def sizeList (words : List (BitVec 64)) : ℕ := (4 + 8 * words.length) % 2 ^ 64

/-- One field in `get_storage_size`. -/
def fieldSize : PackValue → ℕ
  | .int _ => 4
  | .float _ => 8
  | .node _ => 8
  | .list words => sizeList words

/-- `tuple::get_storage_size`. -/
def getStorageSize (tpl : List PackValue) : ℕ :=
  tpl.foldl (fun ret v => (ret + fieldSize v) % 2 ^ 64) 1

/-! ## Writing -/

/-- The loop of `cons::pack` over the cells. -/
def packCells : List (BitVec 64) → PackBuffer → Option PackBuffer
  | [], b => some b
  | w :: words, b => do
    let b ← b.pack (toBytes 8 w.toNat)
    packCells words b

/-- `cons::pack`. -/
def packCons (words : List (BitVec 64)) (b : PackBuffer) : Option PackBuffer := do
  -- the low four bytes of a `size_t`
  let b ← b.pack (toBytes 4 words.length)
  let b ← b.assertLt
  packCells words b

/-- One field in `tuple::pack`. -/
def packField : PackValue → PackBuffer → Option PackBuffer
  | .int i, b => b.pack (toBytes 4 i.toNat)
  | .float f, b => b.pack (toBytes 8 f.toNat)
  | .node n, b => b.pack (toBytes 8 n.toNat)
  | .list words, b => packCons words b

/-- The loop of `tuple::pack` over the fields. -/
def packFields : List PackValue → PackBuffer → Option PackBuffer
  | [], b => some b
  | v :: tpl, b => do
    let b ← packField v b
    let b ← b.assertLe
    packFields tpl b

/-- `tuple::pack`. -/
def packTuple (id : BitVec 8) (tpl : List PackValue) (b : PackBuffer) : Option PackBuffer := do
  let b ← b.assertLe
  let b ← b.pack (toBytes 1 id.toNat)
  let b ← b.assertLe
  packFields tpl b

/-- The enumerators of `derivation_direction`. -/
def directionCode : Direction → ℕ
  | .positive => 0
  | .negative => 1

/-- `full_tuple::storage_size`. -/
def storageSize (tpl : List PackValue) : ℕ := (4 + 4 + getStorageSize tpl) % 2 ^ 64

/-- `full_tuple::pack`. -/
def packFull (dir : Direction) (depth : BitVec 32) (id : BitVec 8) (tpl : List PackValue)
    (b : PackBuffer) : Option PackBuffer := do
  let b ← b.pack (toBytes 4 (directionCode dir))
  let b ← b.pack (toBytes 4 depth.toNat)
  packTuple id tpl b

/-! ## Objects -/

/-- A `ref_base`: an object with a reference count.  A `cons` has a head and a tail besides. -/
structure RefObject where
  refs : ℕ
  cell : Option (BitVec 64 × BitVec 64)

/-- The objects of the memory, and the addresses that the allocator gives out next. -/
structure Memory where
  objects : BitVec 64 → Option RefObject
  free : List (BitVec 64)

namespace Memory

/-- `p->refs++`. -/
def inc (m : Memory) (p : BitVec 64) : Option Memory :=
  (m.objects p).map fun o =>
    { m with objects := Function.update m.objects p (some { o with refs := o.refs + 1 }) }

/-- `do_increment_runtime`; `initial` is `is_initial_node`. -/
def doIncrementRuntime (initial : BitVec 64 → Bool) (m : Memory) (f : BitVec 64) (t : FieldType) :
    Option Memory :=
  if f = 0 then some m
  else
    match t with
    | .node => if initial f then some m else m.inc f
    | _ => m.inc f

/-- `increment_runtime_data`. -/
def incrementRuntimeData (initial : BitVec 64 → Bool) (m : Memory) (f : BitVec 64) (t : FieldType) :
    Option Memory :=
  match t with
  | .node | .string | .struct _ | .list _ => m.doIncrementRuntime initial f t
  | _ => some m

/-- `cons::inc_refs`. -/
def incCons (m : Memory) (p : BitVec 64) : Option Memory := if p = 0 then some m else m.inc p

/-- `cons::set_tail`. -/
def setTail (m : Memory) (p tail : BitVec 64) : Option Memory :=
  match m.objects p with
  | some ⟨refs, some (head, _)⟩ =>
    incCons { m with objects := Function.update m.objects p (some ⟨refs, some (head, tail)⟩) } tail
  | _ => none

/-- `cons::create` without references to it: the new cell.  The type is that of the elements. -/
def createCons (initial : BitVec 64 → Bool) (m : Memory) (tail head : BitVec 64) (t : FieldType) :
    Option (BitVec 64 × Memory) :=
  match m.free with
  | [] => none
  | c :: free => do
    let m : Memory := ⟨Function.update m.objects c (some ⟨0, some (head, 0)⟩), free⟩
    let m ← m.setTail c tail
    let m ← m.incrementRuntimeData initial head t
    return (c, m)

/-- `tuple::set_node`, less the write to the field. -/
def setNode (initial : BitVec 64 → Bool) (m : Memory) (n : BitVec 64) : Option Memory :=
  if initial n then some m else m.inc n

end Memory

/-! ## Reading -/

/-- The loop of `cons::unpack`.  `t` is what the caller gives as the type of the elements. -/
def unpackCells (initial : BitVec 64 → Bool) (t : FieldType) (buf : List (BitVec 8)) :
    ℕ → BitVec 64 → BitVec 64 → ℤ → Memory → Option (BitVec 64 × ℤ × Memory)
  | 0, _, init, pos, m => some (init, pos, m)
  | len + 1, prev, init, pos, m => do
    let (bytes, pos) ← unpack 8 buf pos
    let (n, m) ← m.createCons initial 0 (BitVec.ofNat 64 (ofBytes bytes)) t
    if prev = 0 then unpackCells initial t buf len n n pos m
    else
      let m ← m.setTail prev n
      unpackCells initial t buf len n init pos m

/-- `cons::unpack`. -/
def unpackCons (initial : BitVec 64 → Bool) (t : FieldType) (buf : List (BitVec 8)) (pos : ℤ)
    (m : Memory) : Option (BitVec 64 × ℤ × Memory) := do
  let (bytes, pos) ← unpack 4 buf pos
  unpackCells initial t buf (ofBytes bytes) 0 0 pos m

/-- One field in `tuple::load`: its word.  A list is unpacked with the type of the field, not with
that of its elements. -/
def loadField (initial : BitVec 64 → Bool) (buf : List (BitVec 8)) (pos : ℤ) (m : Memory) :
    FieldType → Option (BitVec 64 × ℤ × Memory)
  | .int => do
    let (bytes, pos) ← unpack 4 buf pos
    -- the other half of the word is zero since `tuple::create`
    return (BitVec.ofNat 64 (ofBytes bytes), pos, m)
  | .float => do
    let (bytes, pos) ← unpack 8 buf pos
    return (BitVec.ofNat 64 (ofBytes bytes), pos, m)
  | .node => do
    let (bytes, pos) ← unpack 8 buf pos
    let n := BitVec.ofNat 64 (ofBytes bytes)
    let m ← m.setNode initial n
    return (n, pos, m)
  | .list t => do
    let (p, pos, m) ← unpackCons initial (.list t) buf pos m
    let m ← m.incCons p
    return (p, pos, m)
  | _ => none

/-- `tuple::load`. -/
def load (initial : BitVec 64 → Bool) (buf : List (BitVec 8)) :
    List FieldType → ℤ → Memory → Option (List (BitVec 64) × ℤ × Memory)
  | [], pos, m => some ([], pos, m)
  | t :: fields, pos, m => do
    let (w, pos, m) ← loadField initial buf pos m t
    let (ws, pos, m) ← load initial buf fields pos m
    return (w :: ws, pos, m)

/-- `tuple::unpack`; `prog` is `get_predicate`, less everything but the types of the fields.  The
predicate, the words of the tuple, the position and the memory. -/
def unpackTuple (initial : BitVec 64 → Bool) (prog : BitVec 8 → List FieldType)
    (buf : List (BitVec 8)) (pos : ℤ) (m : Memory) :
    Option (BitVec 8 × List (BitVec 64) × ℤ × Memory) := do
  let (bytes, pos) ← unpack 1 buf pos
  let id := BitVec.ofNat 8 (ofBytes bytes)
  let (ws, pos, m) ← load initial buf (prog id) pos m
  return (id, ws, pos, m)

/-- A `derivation_direction` from its four bytes. -/
def directionOf : ℕ → Option Direction
  | 0 => some .positive
  | 1 => some .negative
  | _ => none

/-- `full_tuple::unpack`. -/
def unpackFull (initial : BitVec 64 → Bool) (prog : BitVec 8 → List FieldType)
    (buf : List (BitVec 8)) (pos : ℤ) (m : Memory) :
    Option (Direction × BitVec 32 × BitVec 8 × List (BitVec 64) × ℤ × Memory) := do
  let (bytes, pos) ← unpack 4 buf pos
  let dir ← directionOf (ofBytes bytes)
  let (bytes, pos) ← unpack 4 buf pos
  let depth := BitVec.ofNat 32 (ofBytes bytes)
  let (id, ws, pos, m) ← unpackTuple initial prog buf pos m
  return (dir, depth, id, ws, pos, m)

end Packing

end Meld
