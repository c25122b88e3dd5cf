import Meld.Lib.RefCount
import Meld.Vm.Types
import Mathlib.Data.Finset.Sort

/-!
# Arrays and sets of the runtime

`runtime::array` and `runtime::set` store words, and what the words are is a matter of the type that
comes with every call.  Whether an operation counts a reference on an element is decided three times
over: by `type::is_reference`, by the switch in `increment_runtime_data` and
`decrement_runtime_data`, or not at all.

The objects that elements refer to, and what these refer to in turn, exist before and do not change;
the state is their reference counts and the containers.  A word is a number and null is `0`.  An
access outside an array or to an object that was freed, and a count that would go below zero, is
`none`.  That the counter of an initial node is not used is left out of the assertions.

* `incrementRuntimeData`, `decrementRuntimeData`: the counts of what an element refers to.
* `RuntimeArray`, `RuntimeSet`: the containers with their operations.
* `ContainerOp`, `step`, `run`: a program that works on several of them.
-/

namespace Meld

/-- `type::is_reference`, which the classes of the composed types override. -/
def FieldType.isReference : FieldType → Bool
  | .list _ | .struct _ | .array _ | .set _ => true
  | _ => false

/-- The cases of the switch in `increment_runtime_data` and in `decrement_runtime_data`. -/
def FieldType.runtimeData : FieldType → Bool
  | .node | .string | .struct _ | .list _ => true
  | _ => false

namespace Containers

open RefCount

/-- An object that a word can refer to. -/
inductive RuntimeObj where
  | node
  | string
  | cons (subType : FieldType) (head tail : ℕ)
  | struct (types : List FieldType) (fields : List ℕ)
  | array (base : FieldType)
  | set (base : FieldType)

/-- The objects, and `is_initial_node`. -/
structure RuntimeObjs where
  obj : ℕ → RuntimeObj
  isInitialNode : ℕ → Bool

namespace RuntimeObjs

variable (M : RuntimeObjs)

/-- The word is the address of an object with a count that is used: initial nodes have none. -/
def counted (t : FieldType) (f : ℕ) : Bool :=
  t.referenceType && f != 0 &&
    match t with
    | .node => !M.isInitialNode f
    | _ => true

/-- The reference that `increment_runtime_data` takes and `decrement_runtime_data` gives back. -/
def dataRefs (t : FieldType) (f : ℕ) : List ℕ :=
  if t.runtimeData && M.counted t f then [f] else []

/-- What the destruction of an object gives back: `cons::destroy` and `struct1::destroy`, whose test
is `simple_composed_type`.  An array or set that is an element is never given back. -/
def refersTo (a : ℕ) : List ℕ :=
  match M.obj a with
  | .cons t head tail => (if tail = 0 then [] else [tail]) ++ M.dataRefs t head
  | .struct types fields =>
    if types.all fun t => !t.referenceType then []
    else (types.zip fields).flatMap fun p => M.dataRefs p.1 p.2
  | _ => []

/-- A node without references is a candidate for garbage collection, and stays until then. -/
def kept (a : ℕ) : Bool :=
  match M.obj a with
  | .node => true
  | _ => false

/-- `do_increment_runtime`. -/
def doIncrementRuntime (f : ℕ) (t : FieldType) (s : Counts ℕ) : Option (Counts ℕ) :=
  if f = 0 then some s
  else
    match t with
    | .node => if M.isInitialNode f then some s else take f s
    | _ => take f s

/-- `do_decrement_runtime`, in the cases that `decrement_runtime_data` leaves. -/
def doDecrementRuntime (f : ℕ) (t : FieldType) (s : Counts ℕ) : Option (Counts ℕ) :=
  if f = 0 then some s
  else
    match t with
    | .node => if M.isInitialNode f then some s else giveBack M.refersTo M.kept f s
    | _ => giveBack M.refersTo M.kept f s

/-- `increment_runtime_data`. -/
def incrementRuntimeData (f : ℕ) (t : FieldType) (s : Counts ℕ) : Option (Counts ℕ) :=
  if t.runtimeData then M.doIncrementRuntime f t s else some s

/-- `decrement_runtime_data`. -/
def decrementRuntimeData (f : ℕ) (t : FieldType) (s : Counts ℕ) : Option (Counts ℕ) :=
  if t.runtimeData then M.doDecrementRuntime f t s else some s

/-- The loop at the end of `create_fill`, `create_from_vector`, `mutate` and `mutate_add`. -/
def incrementElems (t : FieldType) (elems : List ℕ) (s : Counts ℕ) : Option (Counts ℕ) :=
  if t.isReference then elems.foldlM (fun s f => M.incrementRuntimeData f t s) s else some s

/-- The loop of `array::destroy` and of `set::destroy`. -/
def decrementElems (t : FieldType) (elems : List ℕ) (s : Counts ℕ) : Option (Counts ℕ) :=
  if t.isReference then elems.foldlM (fun s f => M.decrementRuntimeData f t s) s else some s

end RuntimeObjs

/-- `runtime::array`.  The elements are the words up to `size`; the type is the one that all calls
for this array come with. -/
structure RuntimeArray where
  type : FieldType
  cap : ℕ
  elems : List ℕ

/-- `runtime::set`: a `std::set` of words. -/
structure RuntimeSet where
  type : FieldType
  data : Finset ℕ

/-- The words of a set, in the order of the iterator. -/
def RuntimeSet.elems (S : RuntimeSet) : List ℕ := S.data.sort (· ≤ ·)

namespace RuntimeArray

variable (M : RuntimeObjs)

/-- `array::create_empty`. -/
def createEmpty (t : FieldType) (initCap : ℕ) : RuntimeArray := ⟨t, initCap, []⟩

/-- `array::create_fill`. -/
def createFill (t : FieldType) (size f : ℕ) (s : Counts ℕ) : Option (RuntimeArray × Counts ℕ) :=
  let a : RuntimeArray := ⟨t, size * 2, List.replicate size f⟩
  (M.incrementElems t a.elems s).map fun s => (a, s)

/-- `array::create_from_vector`. -/
def createFromVector (t : FieldType) (v : List ℕ) (s : Counts ℕ) :
    Option (RuntimeArray × Counts ℕ) :=
  let a : RuntimeArray := ⟨t, v.length * 2, v⟩
  (M.incrementElems t a.elems s).map fun s => (a, s)

/-- `array::mutate`.  A word between `size` and `cap` is written and not used. -/
def mutate (old : RuntimeArray) (idx f : ℕ) (s : Counts ℕ) : Option (RuntimeArray × Counts ℕ) :=
  if idx < old.cap then
    let a : RuntimeArray := { old with elems := old.elems.set idx f }
    (M.incrementElems a.type a.elems s).map fun s => (a, s)
  else none

/-- `array::mutate_add`. -/
def mutateAdd (old : RuntimeArray) (f : ℕ) (s : Counts ℕ) : Option (RuntimeArray × Counts ℕ) :=
  let cap := if old.elems.length = old.cap then 2 * old.cap else old.cap
  if old.elems.length < cap then
    let a : RuntimeArray := ⟨old.type, cap, old.elems ++ [f]⟩
    (M.incrementElems a.type a.elems s).map fun s => (a, s)
  else none

/-- `array::add`.  When the array is full, the block that is given back to the allocator is the new
one, and the element is written to it afterwards. -/
def add (a : RuntimeArray) (f : ℕ) (s : Counts ℕ) : Option (RuntimeArray × Counts ℕ) :=
  if a.elems.length = a.cap then none
  else
    (M.incrementRuntimeData f a.type s).map fun s => ({ a with elems := a.elems ++ [f] }, s)

/-- `array::set_index`: the old element is given back before the new one is counted. -/
def setIndex (a : RuntimeArray) (i f : ℕ) (s : Counts ℕ) : Option (RuntimeArray × Counts ℕ) := do
  let old ← a.elems[i]?
  let s ← M.decrementRuntimeData old a.type s
  let s ← M.incrementRuntimeData f a.type s
  return ({ a with elems := a.elems.set i f }, s)

/-- `array::destroy`. -/
def destroy (a : RuntimeArray) (s : Counts ℕ) : Option (Counts ℕ) :=
  M.decrementElems a.type a.elems s

end RuntimeArray

namespace RuntimeSet

variable (M : RuntimeObjs)

/-- `set::create_empty`. -/
def createEmpty (t : FieldType) : RuntimeSet := ⟨t, ∅⟩

/-- `set::add`. -/
def add (S : RuntimeSet) (f : ℕ) (s : Counts ℕ) : Option (RuntimeSet × Counts ℕ) :=
  (M.incrementRuntimeData f S.type s).map fun s => ({ S with data := insert f S.data }, s)

/-- The loop of `set::create_from_vector`. -/
def addAll (S : RuntimeSet) : List ℕ → Counts ℕ → Option (RuntimeSet × Counts ℕ)
  | [], s => some (S, s)
  | f :: v, s => do
    let (S, s) ← S.add M f s
    addAll S v s

/-- `set::create_from_vector`. -/
def createFromVector (t : FieldType) (v : List ℕ) (s : Counts ℕ) :
    Option (RuntimeSet × Counts ℕ) :=
  if t.isReference then (createEmpty t).addAll M v s else some (createEmpty t, s)

/-- `set::mutate_add`: the words are copied without a look at the counts, and the new one is
added. -/
def mutateAdd (old : RuntimeSet) (f : ℕ) (s : Counts ℕ) : Option (RuntimeSet × Counts ℕ) :=
  let a : RuntimeSet := ⟨old.type, old.data⟩
  a.add M f s

/-- `set::destroy`. -/
def destroy (S : RuntimeSet) (s : Counts ℕ) : Option (Counts ℕ) :=
  M.decrementElems S.type S.elems s

end RuntimeSet

/-- The containers that are not destroyed, with the reference counts. -/
structure RuntimeState where
  counts : Counts ℕ
  arrays : List RuntimeArray
  sets : List RuntimeSet

/-- A call, with the place of the container among the arrays or among the sets. -/
inductive ContainerOp where
  | arrayCreateEmpty (t : FieldType) (initCap : ℕ)
  | arrayCreateFill (t : FieldType) (size f : ℕ)
  | arrayCreateFromVector (t : FieldType) (v : List ℕ)
  | arrayMutate (k idx f : ℕ)
  | arrayMutateAdd (k f : ℕ)
  | arrayAdd (k f : ℕ)
  | arraySetIndex (k i f : ℕ)
  | arrayDestroy (k : ℕ)
  | setCreateEmpty (t : FieldType)
  | setCreateFromVector (t : FieldType) (v : List ℕ)
  | setMutateAdd (k f : ℕ)
  | setAdd (k f : ℕ)
  | setDestroy (k : ℕ)

namespace RuntimeState

variable (M : RuntimeObjs)

/-- A new array. -/
def newArray (st : RuntimeState) (r : RuntimeArray × Counts ℕ) : RuntimeState :=
  { st with counts := r.2, arrays := st.arrays ++ [r.1] }

/-- An array after a call that changes it. -/
def setArray (st : RuntimeState) (k : ℕ) (r : RuntimeArray × Counts ℕ) : RuntimeState :=
  { st with counts := r.2, arrays := st.arrays.set k r.1 }

/-- A new set. -/
def newSet (st : RuntimeState) (r : RuntimeSet × Counts ℕ) : RuntimeState :=
  { st with counts := r.2, sets := st.sets ++ [r.1] }

/-- A set after a call that changes it. -/
def setSet (st : RuntimeState) (k : ℕ) (r : RuntimeSet × Counts ℕ) : RuntimeState :=
  { st with counts := r.2, sets := st.sets.set k r.1 }

/-- One call. -/
def step (st : RuntimeState) : ContainerOp → Option RuntimeState
  | .arrayCreateEmpty t initCap => some (st.newArray (.createEmpty t initCap, st.counts))
  | .arrayCreateFill t size f => (RuntimeArray.createFill M t size f st.counts).map st.newArray
  | .arrayCreateFromVector t v => (RuntimeArray.createFromVector M t v st.counts).map st.newArray
  | .arrayMutate k idx f => do
    let a ← st.arrays[k]?
    (a.mutate M idx f st.counts).map st.newArray
  | .arrayMutateAdd k f => do
    let a ← st.arrays[k]?
    (a.mutateAdd M f st.counts).map st.newArray
  | .arrayAdd k f => do
    let a ← st.arrays[k]?
    (a.add M f st.counts).map (st.setArray k)
  | .arraySetIndex k i f => do
    let a ← st.arrays[k]?
    (a.setIndex M i f st.counts).map (st.setArray k)
  | .arrayDestroy k => do
    let a ← st.arrays[k]?
    let s ← a.destroy M st.counts
    return { st with counts := s, arrays := st.arrays.eraseIdx k }
  | .setCreateEmpty t => some (st.newSet (.createEmpty t, st.counts))
  | .setCreateFromVector t v => (RuntimeSet.createFromVector M t v st.counts).map st.newSet
  | .setMutateAdd k f => do
    let S ← st.sets[k]?
    (S.mutateAdd M f st.counts).map st.newSet
  | .setAdd k f => do
    let S ← st.sets[k]?
    (S.add M f st.counts).map (st.setSet k)
  | .setDestroy k => do
    let S ← st.sets[k]?
    let s ← S.destroy M st.counts
    return { st with counts := s, sets := st.sets.eraseIdx k }

/-- A sequence of calls. -/
def run (ops : List ContainerOp) (st : RuntimeState) : Option RuntimeState :=
  ops.foldlM (fun st op => st.step M op) st

end RuntimeState

end Containers

end Meld
