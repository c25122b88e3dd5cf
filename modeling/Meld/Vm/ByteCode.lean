import Meld.Lib.Format
import Meld.Vm.RuleMatcher

/-!
# The byte-code loader

`program::program` reads a byte-code file from front to end and builds the tables that the virtual
machine works with: the types, the predicates with the layout of their fields, the rules with the
predicates they depend on, all code, and the places in the code where the address of a node has to
be written once the node exists.

The reader is modelled section by section, in the order of the source.  A pointer to a type, a
predicate or a rule is its number.  The build is one that checks its assertions, so that a false one
rejects the file; the release build leaves them out and goes on.  Where the source runs into
behaviour that C++ leaves open (it reads behind the end of the file, uses an entry of a table that
does not exist, or looks for the end of a name that has none), the reader fails with `undefined`.

* `LoadError`: what ends the loading of a file.
* `TypeEntry`, `readType`: the table of types.
* `Predicate`, `readPredicate`: what a file says of a predicate.
* `Program`, `Program.addPredicate`, `Program.cacheInfo`, `Program.setRule`: the tables.
* `load`: the constructor.
-/

namespace Meld.ByteCode

open Bytes Format

/-! ## Reading -/

/-- What ends the loading of a file. -/
inductive LoadError where
  /-- The exception `load_file_error`. -/
  | loadFile (reason : String)
  | assertion
  | abort
  /-- Behaviour that the language leaves open. -/
  | undefined
  deriving DecidableEq, Repr

/-- The text of the exception `load_file_error`. -/
def loadFileError (filename reason : String) : String :=
  "unable to load byte-code file " ++ filename ++ ": " ++ reason

/-- A reader of byte code, `code_reader`. -/
abbrev CodeReader (α : Type) := Reader LoadError α

/-- `read_type<byte>`. -/
def readByte : CodeReader ℕ := readWord .undefined 1

/-- `read_type<uint32_t>`. -/
def readUint : CodeReader ℕ := readWord .undefined 4

/-- `read_type` of a value of eight bytes. -/
def readWide : CodeReader ℕ := readWord .undefined 8

/-- `read_any`. -/
def readAny (size : ℕ) : CodeReader (List (BitVec 8)) := readBytes .undefined size

/-- The string that begins at the front of a buffer. -/
def cString (buf : List (BitVec 8)) : List (BitVec 8) := buf.takeWhile (· ≠ 0)

/-- The bytes of a string literal. -/
def text (s : String) : List (BitVec 8) := s.toList.map fun c => BitVec.ofNat 8 c.toNat

/-- A string with its length in front.  It is read into `char buf[size + 1]`, and the length of that
array is computed in 32 bits. -/
def readString : CodeReader (List (BitVec 8)) := do
  let size ← readUint
  check (size + 1 < 2 ^ 32) .undefined
  let buf ← readAny size
  pure (cString buf)

/-- A number of entries, and the entries. -/
def readTable {α : Type} (read : CodeReader α) : CodeReader (List α) := do
  let size ← readUint
  readMany read size

/-! ## The header -/

/-- `major_version` and `minor_version`. -/
structure Version where
  major : ℕ
  minor : ℕ
  deriving DecidableEq, Repr

/-- `VERSION_AT_LEAST`. -/
def Version.AtLeast (v : Version) (major minor : ℕ) : Prop :=
  v.major > major ∨ (v.major = major ∧ v.minor ≥ minor)

instance instDecidableAtLeast (v : Version) (major minor : ℕ) : Decidable (v.AtLeast major minor) :=
  inferInstanceAs (Decidable (_ ∨ _))

/-- `MAGIC1` and `MAGIC2`. -/
def magic1 : ℕ := 0x646c656d
def magic2 : ℕ := 0x6c696620

/-- The magic number and the version. -/
def readHeader : CodeReader Version := do
  let m1 ← readUint
  let m2 ← readUint
  check (m1 = magic1 ∧ m2 = magic2) (.loadFile "not a meld byte code file")
  let major ← readUint
  let minor ← readUint
  check ((Version.mk major minor).AtLeast 0 11) (.loadFile "unsupported byte code version")
  check (¬(Version.mk major minor).AtLeast 0 15) (.loadFile "unsupported byte code version")
  pure ⟨major, minor⟩

/-- `database::node_size`: an entry of the table of nodes is a pair of numbers. -/
def nodeSize : ℕ := 16

/-! ## Types -/

/-- `vm::type`, with the numbers of the types it is made of.  The subtype of a list is a null
pointer if that entry of the table was not there yet. -/
inductive TypeEntry where
  | int
  | float
  | node
  | list (subType : Option ℕ)
  | struct (types : List ℕ) (simple : Bool)
  | bool
  | thread
  | array (base : ℕ)
  | set (base : ℕ)
  | string
  deriving DecidableEq, Repr

namespace TypeEntry

/-- `reference_type`. -/
def referenceType : TypeEntry → Bool
  | list _ | struct _ _ | string | node | array _ | set _ => true
  | _ => false

/-- `field_type_size`. -/
def size : TypeEntry → ℕ
  | bool => 1
  | int => 4
  | float | node | string | list _ | struct _ _ | array _ | thread | set _ => 8

end TypeEntry

/-- `program::get_type` while the table is being filled: the entries behind `types` are null
pointers. -/
def getType (numTypes : ℕ) (types : List TypeEntry) (id : ℕ) : CodeReader (Option ℕ) := do
  check (id < numTypes) .assertion
  pure (if id < types.length then some id else none)

/-- The number of a type that is there: what is done with the pointer does not allow null. -/
def readLoadedType (numTypes : ℕ) (types : List TypeEntry) (null : LoadError) : CodeReader ℕ := do
  let id ← readByte
  let ptr ← getType numTypes types id
  check (ptr = some id) null
  pure id

/-- `struct_type::set_type` for all fields: whether none of them is a reference. -/
def simpleTypes (types : List TypeEntry) (ids : List ℕ) : Bool :=
  ids.all fun id => !(types.getD id .int).referenceType

/-- `read_type_from_reader`, with the entries of the table in front of this one. -/
def readType (numTypes : ℕ) (types : List TypeEntry) : CodeReader TypeEntry := do
  let f ← readByte
  match f with
  | 0 => pure .int
  | 1 => pure .float
  | 2 => pure .node
  | 3 => do
    let id ← readByte
    let sub ← getType numTypes types id
    pure (.list sub)
  | 4 => do
    let size ← readByte
    -- the type of a field is looked at when it is set
    let ids ← readMany (readLoadedType numTypes types .undefined) size
    pure (.struct ids (simpleTypes types ids))
  | 5 => pure .bool
  | 6 => pure .thread
  | 7 => do
    -- the constructor asserts that there is a base
    let base ← readLoadedType numTypes types .assertion
    pure (.array base)
  | 8 => do
    let base ← readLoadedType numTypes types .assertion
    pure (.set base)
  | 9 => pure .string
  | _ => throw .assertion

/-- `read_type_id_from_reader`, when the table is complete. -/
def readTypeId (numTypes : ℕ) : CodeReader ℕ := do
  let pos ← readByte
  check (pos < numTypes) .assertion
  pure pos

/-! ## Names, rules and strings -/

/-- `vm::import`. -/
structure Import where
  imp : List (BitVec 8)
  as : List (BitVec 8)
  file : List (BitVec 8)
  deriving DecidableEq, Repr

def readImport : CodeReader Import := do
  let imp ← readString
  let as ← readString
  let file ← readString
  pure ⟨imp, as, file⟩

/-- The text of a rule. -/
def readRuleString : CodeReader (List (BitVec 8)) := do
  let len ← readUint
  check (len > 0) .assertion
  check (len + 1 < 2 ^ 32) .undefined
  let str ← readAny len
  pure (cString str)

/-! ## Code -/

/-- The node at a place in the code, `pcounter_node`. -/
def pcounterNode (code : List (BitVec 8)) (place : ℕ) : ℕ := ofBytes (readAt code place 8)

/-- `const_read_node_references`: the nodes with their places. -/
def constReadNodeReferences (code : List (BitVec 8)) : CodeReader (List (ℕ × ℕ)) := do
  let pos ← readTable readUint
  check (∀ place ∈ pos, place + 8 ≤ code.length) .undefined
  pure (pos.map fun place => (pcounterNode code place, place))

/-- The constant code, with the nodes that it refers to. -/
def readConstCode : CodeReader (List (BitVec 8) × List (ℕ × ℕ)) := do
  let size ← readUint
  let code ← readAny size
  let refs ← constReadNodeReferences code
  pure (code, refs)

/-- What `read_node_references` reads: the nodes with their places.  There is a list of references
for each of the `numNodes` nodes. -/
def readNodeReferences (numNodes : ℕ) (code : List (BitVec 8)) : CodeReader (List (ℕ × ℕ)) :=
  readTable do
    let place ← readUint
    check (place + 8 ≤ code.length) .undefined
    check (pcounterNode code place < numNodes) .undefined
    pure (pcounterNode code place, place)

/-- Code with its length in front and the references behind it. -/
def readCode (numNodes : ℕ) : CodeReader (List (BitVec 8) × List (ℕ × ℕ)) := do
  let size ← readUint
  let code ← readAny size
  let refs ← readNodeReferences numNodes code
  pure (code, refs)

/-! ## External functions -/

/-- `external_function`, as `register_custom_external_function` makes it. -/
structure ExternalFunction where
  name : List (BitVec 8)
  ptr : ℕ
  ret : ℕ
  args : List ℕ
  deriving DecidableEq, Repr

/-- A buffer of a fixed length with a string in it. -/
def readBuffer (size : ℕ) : CodeReader (List (BitVec 8)) := do
  let buf ← readAny size
  check (0 ∈ buf) .undefined
  pure (cString buf)

/-- An external function.  `getFunctionPointer` opens the library and looks for the name in it. -/
def readExternal (getFunctionPointer : List (BitVec 8) → List (BitVec 8) → ℕ) (numTypes : ℕ) :
    CodeReader ExternalFunction := do
  let _ ← readUint
  let name ← readBuffer 256
  let filename ← readBuffer 1024
  let _ ← readWide
  let numArgs ← readUint
  let ret ← readTypeId numTypes
  let args ← readMany (readTypeId numTypes) numArgs
  -- there is a constructor for up to three arguments
  check (numArgs ≤ 3) .assertion
  pure ⟨name, getFunctionPointer filename name, ret, args⟩

/-! ## Predicates -/

/-- `aggregate_safeness`. -/
inductive AggregateSafeness where
  | locallyGenerated
  | neighborhood
  | neighborhoodAndSelf
  | immediate
  | aggUnsafe
  deriving DecidableEq, Repr

/-- `aggregate_info`.  What is not set is `none`. -/
structure AggregateInfo where
  field : ℕ
  type : ℕ
  safeness : AggregateSafeness
  localLevel : Option ℕ
  remotePredId : Option ℕ
  remotePred : Option ℕ
  deriving DecidableEq, Repr

/-- `vm::predicate`.  `hashArgument` is the field of a predicate that is stored as a hash table. -/
structure Predicate where
  id : ℕ
  id2 : ℕ
  name : List (BitVec 8)
  level : ℕ
  types : List ℕ
  fieldsSize : List ℕ
  fieldsOffset : List ℕ
  tupleSize : ℕ
  aggInfo : Option AggregateInfo
  isRoute : Bool
  isLinear : Bool
  isReverseRoute : Bool
  isAction : Bool
  isReused : Bool
  isCycle : Bool
  isThread : Bool
  isCompact : Bool
  hasCode : Bool
  affectedRules : List ℕ
  linearRules : List ℕ
  hashArgument : Option ℕ
  argumentPosition : ℕ
  deriving DecidableEq, Repr

namespace Predicate

variable (p : Predicate)

/-- `is_route_pred`. -/
def isRoutePred : Bool := p.isRoute || p.isReverseRoute

/-- `num_fields`. -/
def numFields : ℕ := p.types.length

/-- `is_unsafe_agg`, of a predicate that is aggregated. -/
def isUnsafeAgg : Bool :=
  match p.aggInfo with
  | some info => info.safeness = .aggUnsafe || info.safeness = .immediate
  | none => false

end Predicate

/-- The bits of the first byte of properties. -/
def predAgg : ℕ := 0x01
def predRoute : ℕ := 0x02
def predReverseRoute : ℕ := 0x04
def predLinear : ℕ := 0x08
def predAction : ℕ := 0x10
def predReused : ℕ := 0x20
def predCycle : ℕ := 0x40
def predThread : ℕ := 0x80

/-- The bit of the second one. -/
def predCompact : ℕ := 0x01

/-- A bit is set. -/
def hasProp (prop bit : ℕ) : Bool := prop &&& bit != 0

/-- A signed byte as a `strat_level`. -/
def charLevel (b : ℕ) : ℕ := if b < 128 then b else 2 ^ 64 - 256 + b

/-- What the byte `agg` and the 32 bytes of aggregate information say. -/
def aggregateInfo (agg : ℕ) (buf : List (BitVec 8)) : AggregateInfo :=
  let info : AggregateInfo := ⟨agg % 16, agg / 16, .aggUnsafe, none, none, none⟩
  let next := (buf.getD 1 0).toNat
  match (buf.getD 0 0).toNat with
  | 0x01 => { info with safeness := .locallyGenerated, localLevel := some (charLevel next) }
  | 0x02 => { info with safeness := .neighborhood, remotePredId := some next }
  | 0x04 => { info with safeness := .neighborhoodAndSelf, remotePredId := some next }
  | 0x08 => { info with safeness := .immediate }
  | _ => info

/-- The predicate of what was read.  The fields that are set later have the values of the
constructor, or zero. -/
def makePredicate (id prop compact agg level fieldIndex : ℕ) (types : List ℕ)
    (name buf : List (BitVec 8)) : Predicate :=
  { id
    id2 := 0
    name
    level
    types
    fieldsSize := []
    fieldsOffset := []
    tupleSize := 0
    aggInfo := if hasProp prop predAgg then some (aggregateInfo agg buf) else none
    isRoute := hasProp prop predRoute
    isLinear := hasProp prop predLinear
    isReverseRoute := hasProp prop predReverseRoute
    isAction := hasProp prop predAction
    isReused := hasProp prop predReused
    isCycle := hasProp prop predCycle
    isThread := hasProp prop predThread
    isCompact := hasProp compact predCompact
    hasCode := true
    affectedRules := []
    linearRules := []
    hashArgument := if fieldIndex ≠ 0 then some (fieldIndex - 1) else none
    argumentPosition := 0 }

/-- A byte that only newer versions have, and that is zero before. -/
def readByteIf (c : Prop) [Decidable c] : CodeReader ℕ := if c then readByte else pure 0

/-- The types of the fields of a predicate. -/
def readFieldTypes (numTypes : ℕ) : CodeReader (List ℕ) := do
  let nfields ← readByte
  readMany (readTypeId numTypes) nfields

/-- `make_predicate_from_reader`, with the size of the code of the predicate. -/
def readPredicate (v : Version) (numTypes id : ℕ) : CodeReader (Predicate × ℕ) := do
  let codeSize ← readUint
  let prop ← readByte
  let compact ← readByteIf (v.AtLeast 0 13)
  let agg ← readByte
  let level ← readByte
  let fieldIndex ← readByteIf (v.AtLeast 0 12)
  let types ← readFieldTypes numTypes
  let name ← readBuffer 32
  let buf ← readAny 32
  pure (makePredicate id prop compact agg level fieldIndex types name buf, codeSize)

/-! ## The program -/

/-- The code that a reference is in. -/
inductive CodeId where
  | function (i : ℕ)
  | predicate (i : ℕ)
  | rule (i : ℕ)
  deriving DecidableEq, Repr

/-- A place in the code of a program. -/
structure Place where
  code : CodeId
  offset : ℕ
  deriving DecidableEq, Repr

/-- The predicates that the virtual machine fills itself, `special_facts`. -/
inductive SpecialFact where
  | justMoved
  | threadList
  | otherThread
  | leaderThread
  deriving DecidableEq, Repr

/-- The special fact of a name. -/
def specialFact (name : List (BitVec 8)) : Option SpecialFact :=
  if name = text "just-moved" then some .justMoved
  else if name = text "thread-list" then some .threadList
  else if name = text "other-thread" then some .otherThread
  else if name = text "leader-thread" then some .leaderThread
  else none

/-- `vm::rule`, `none` for code that is not set. -/
structure Rule where
  id : ℕ
  str : List (BitVec 8)
  code : Option (List (BitVec 8))
  predicates : List ℕ
  deriving DecidableEq, Repr

inductive PriorityType where
  | asc
  | desc
  deriving DecidableEq, Repr

/-- The bits of `numeric_limits<double>::max()` and of `lowest()`. -/
def maxDouble : ℕ := 0x7fefffffffffffff
def lowestDouble : ℕ := 0xffefffffffffffff

/-- `max_priority_value0`. -/
def maxPriorityValue0 (desc : Bool) : ℕ := if desc then maxDouble else lowestDouble

/-- `no_priority_value0`. -/
def noPriorityValue0 (desc : Bool) : ℕ := maxPriorityValue0 (!desc)

/-- `initial_priority_value0(true)`: half of the highest value is the value with the exponent one
less. -/
def initialPriorityValue : ℕ := maxDouble - 2 ^ 52

/-- `vm::program`.  Priorities are the bits of a `double`, `none` if they are not set.
`nodeReferences` has a list for each node.  `externals` are the functions that the file adds to the
table of external functions. -/
structure Program where
  version : Version
  numNodes : ℕ
  types : List TypeEntry
  importedPredicates : List Import
  exportedPredicates : List (List (BitVec 8))
  numArgs : ℕ
  rules : List Rule
  defaultStrings : List (List (BitVec 8))
  constTypes : List ℕ
  constCode : List (BitVec 8)
  constNodeReferences : List (ℕ × ℕ)
  functions : List (List (BitVec 8))
  externals : List ExternalFunction
  predicates : List Predicate
  codeSize : List ℕ
  code : List (Option (List (BitVec 8)))
  linearPredicates : List ℕ
  persistentPredicates : List ℕ
  routePredicates : List ℕ
  threadPredicates : List ℕ
  threadPredicatesMap : Bitmap
  special : SpecialFact → Option ℕ
  maxStratLevel : ℕ
  totalArguments : ℕ
  hasAggregatesFlag : Bool
  safe : Bool
  isDataFile : Bool
  priorityOrder : PriorityType
  priorityStatic : Bool
  initialPriority : ℕ
  defaultPriority : Option ℕ
  noPriority : Option ℕ
  nodeReferences : List (List Place)

namespace Program

/-- The program when everything in front of the predicates but the functions has been read. -/
def create (version : Version) (numPreds numNodes : ℕ) (types : List TypeEntry)
    (importedPredicates : List Import) (exportedPredicates : List (List (BitVec 8))) (numArgs : ℕ)
    (ruleStrings defaultStrings : List (List (BitVec 8))) (constTypes : List ℕ)
    (const : List (BitVec 8) × List (ℕ × ℕ)) (externals : List ExternalFunction) : Program :=
  { version
    numNodes
    types
    importedPredicates
    exportedPredicates
    numArgs
    rules := ruleStrings.mapIdx fun i str => ⟨i, str, none, []⟩
    defaultStrings
    constTypes
    constCode := const.1
    constNodeReferences := const.2
    functions := []
    externals
    predicates := []
    codeSize := []
    code := []
    linearPredicates := []
    persistentPredicates := []
    routePredicates := []
    threadPredicates := []
    threadPredicatesMap := .create (Meld.Program.nextUint numPreds)
    special := fun _ => none
    maxStratLevel := 0
    totalArguments := 0
    hasAggregatesFlag := false
    safe := true
    isDataFile := false
    priorityOrder := .desc
    priorityStatic := false
    initialPriority := initialPriorityValue
    defaultPriority := none
    noPriority := none
    nodeReferences := List.replicate numNodes [] }

variable (P : Program)

/-- The pushes of `read_node_references`. -/
def pushReferences (id : CodeId) (refs : List (ℕ × ℕ)) : Program :=
  { P with
    nodeReferences :=
      refs.foldl (fun table r => table.modify r.1 (· ++ [⟨id, r.2⟩])) P.nodeReferences }

/-- One function and its references. -/
def addFunction (c : List (BitVec 8) × List (ℕ × ℕ)) : Program :=
  { P with functions := P.functions ++ [c.1] }.pushReferences (.function P.functions.length) c.2

/-- A predicate that was read, with what the constructor sets of it. -/
def numbered (pred : Predicate) (size : ℕ) : Predicate :=
  { pred with
    id2 := if pred.isLinear then P.linearPredicates.length else P.persistentPredicates.length
    hasCode := size > 0
    argumentPosition := P.totalArguments }

/-- What the constructor does with a predicate that was read. -/
def addPredicate (pred : Predicate) (size : ℕ) : Program :=
  { P with
    predicates := P.predicates ++ [P.numbered pred size]
    codeSize := P.codeSize ++ [size]
    special :=
      match specialFact pred.name with
      | some f => Function.update P.special f (some pred.id)
      | none => P.special
    maxStratLevel := max (pred.level + 1) P.maxStratLevel
    routePredicates :=
      if pred.isRoutePred then P.routePredicates ++ [pred.id] else P.routePredicates
    threadPredicates :=
      if pred.isThread then P.threadPredicates ++ [pred.id] else P.threadPredicates
    threadPredicatesMap :=
      if pred.isThread then P.threadPredicatesMap.setBit pred.id else P.threadPredicatesMap
    totalArguments := P.totalArguments + pred.numFields
    linearPredicates :=
      if pred.isLinear then P.linearPredicates ++ [pred.id] else P.linearPredicates
    persistentPredicates :=
      if pred.isLinear then P.persistentPredicates else P.persistentPredicates ++ [pred.id] }

/-- The loop of `build_field_info` over the sizes of the fields, with the offset so far: the offsets
of the fields, and the size of the tuple. -/
def fieldOffsets : ℕ → List ℕ → List ℕ × ℕ
  | offset, [] => ([], offset)
  | offset, size :: sizes =>
    let rest := fieldOffsets (offset + size) sizes
    (offset :: rest.1, rest.2)

/-- `predicate::build_field_info`. -/
def buildFieldInfo (pred : Predicate) : Predicate :=
  let sizes := pred.types.map fun t => (P.types.getD t .int).size
  { pred with
    fieldsSize := sizes
    fieldsOffset := (fieldOffsets 0 sizes).1
    tupleSize := (fieldOffsets 0 sizes).2 }

/-- `build_aggregate_info`: the pointer to the remote predicate. -/
def buildAggregateInfo (info : AggregateInfo) : AggregateInfo :=
  match info.safeness with
  | .neighborhood | .neighborhoodAndSelf => { info with remotePred := info.remotePredId }
  | _ => info

/-- `predicate::cache_info`. -/
def cacheInfo (pred : Predicate) : Predicate :=
  { P.buildFieldInfo pred with aggInfo := pred.aggInfo.map buildAggregateInfo }

/-- The remote predicate of an aggregate is one of the program.  The table is read without a
check. -/
def RemoteKnown (pred : Predicate) : Prop :=
  ∀ info ∈ pred.aggInfo, ∀ id ∈ info.remotePredId, id < P.predicates.length

instance instDecidableRemoteKnown (pred : Predicate) : Decidable (P.RemoteKnown pred) :=
  inferInstanceAs (Decidable (∀ info ∈ pred.aggInfo, ∀ id ∈ info.remotePredId, _))

/-- The loop that completes the predicates. -/
def cachePredicates : Program :=
  { P with
    predicates := P.predicates.map P.cacheInfo
    hasAggregatesFlag := P.predicates.any fun pred => pred.aggInfo.isSome
    safe := !P.predicates.any fun pred => pred.isUnsafeAgg }

/-- The priorities that a file gives.  `values` are the default one and the one of no priority. -/
def setPriorities (order : PriorityType) (isStatic : Bool) (initial : ℕ) (values : List ℕ) :
    Program :=
  { P with
    priorityOrder := order
    priorityStatic := isStatic
    initialPriority := initial
    defaultPriority := values[0]?
    noPriority := values[1]? }

/-- The size of the code of the next predicate. -/
def nextCodeSize : ℕ := P.codeSize.getD P.code.length 0

/-- The code of the next predicate. -/
def addCode (c : Option (List (BitVec 8) × List (ℕ × ℕ))) : Program :=
  { P with code := P.code ++ [c.map Prod.fst] }.pushReferences (.predicate P.code.length)
    ((c.map Prod.snd).getD [])

/-- `add_linear_affected_rule` for a predicate of a rule. -/
def addAffected (i id : ℕ) : Program :=
  { P with
    predicates := P.predicates.modify id fun pred =>
      { pred with
        affectedRules := pred.affectedRules ++ [i]
        linearRules := pred.linearRules ++ [i] } }

/-- The code of rule `i`, and the predicates it depends on. -/
def setRule (i : ℕ) (c : List (BitVec 8) × List (ℕ × ℕ)) (ids : List ℕ) : Program :=
  let P := P.pushReferences (.rule i) c.2
  ids.foldl (fun P id => P.addAffected i id)
    { P with
      rules := P.rules.modify i fun rule =>
        { rule with code := some c.1, predicates := rule.predicates ++ ids } }

end Program

/-! ## Priorities -/

/-- The default priority and the one of no priority.  Older versions do not have them. -/
def readPriorityValues (v : Version) (desc : Bool) : CodeReader (List ℕ) :=
  if v.AtLeast 0 14 then readMany readWide 2 else pure (List.replicate 2 (noPriorityValue0 desc))

/-- The global priority information. -/
def readGlobalInfo (P : Program) : CodeReader Program := do
  let globalInfo ← readByte
  match globalInfo with
  | 0x01 => throw .abort
  | 0x02 => do
    let type ← readByte
    check (type = 0x01) .assertion
    let ascDesc ← readByte
    let initial ← readWide
    let values ← readPriorityValues P.version !hasProp ascDesc 0x01
    pure (P.setPriorities (if hasProp ascDesc 0x01 then .asc else .desc) (hasProp ascDesc 0x02)
      initial values)
  | 0x03 => pure { P with isDataFile := true }
  | _ => pure P

/-! ## The constructor -/

/-- The tables in front of the predicates. -/
def readTables (getFunctionPointer : List (BitVec 8) → List (BitVec 8) → ℕ) (v : Version)
    (numPreds : ℕ) : CodeReader Program := do
  let numNodes ← readUint
  skip (numNodes * nodeSize)
  let numTypes ← readByte
  let types ← readLoop (fun types => do
    let type ← readType numTypes types
    pure (types ++ [type])) numTypes []
  let importedPredicates ← readTable readImport
  let exportedPredicates ← readTable readString
  let numArgs ← readByte
  let ruleStrings ← readTable readRuleString
  let defaultStrings ← readTable readString
  let constTypes ← readTable (readTypeId numTypes)
  let const ← readConstCode
  let functions ← readTable (readCode numNodes)
  let externals ← readTable (readExternal getFunctionPointer numTypes)
  pure (functions.foldl Program.addFunction
    (.create v numPreds numNodes types importedPredicates exportedPredicates numArgs ruleStrings
      defaultStrings constTypes const externals))

/-- The predicates. -/
def readPredicates (v : Version) (numTypes numPreds : ℕ) (P : Program) : CodeReader Program := do
  let P ← readLoop (fun P => do
    let pred ← readPredicate v numTypes P.predicates.length
    pure (P.addPredicate pred.1 pred.2)) numPreds P
  check (∀ pred ∈ P.predicates, P.RemoteKnown pred) .undefined
  pure P.cachePredicates

/-- The code of the next predicate, if it has code. -/
def readPredicateCode (P : Program) : CodeReader Program :=
  if 0 < P.nextCodeSize then do
    let code ← readAny P.nextCodeSize
    let refs ← readNodeReferences P.numNodes code
    pure (P.addCode (some (code, refs)))
  else pure (P.addCode none)

/-- The number of a predicate in the list of a rule.  The table is read without a check. -/
def readPredicateId (numPreds : ℕ) : CodeReader ℕ := do
  let id ← readByte
  check (id < numPreds) .undefined
  pure id

/-- The code of a rule, and the predicates it depends on. -/
def readRuleCode (numNodes numPreds : ℕ) :
    CodeReader ((List (BitVec 8) × List (ℕ × ℕ)) × List ℕ) := do
  let c ← readCode numNodes
  let size ← readUint
  check (size < 10) .assertion
  let ids ← readMany (readPredicateId numPreds) size
  pure (c, ids)

/-- The code of the rules. -/
def readRules (P : Program) : CodeReader Program := do
  let numRulesCode ← readUint
  check (numRulesCode = P.rules.length) .assertion
  let rules ← readMany (readRuleCode P.numNodes P.predicates.length) numRulesCode
  pure (rules.zipIdx.foldl (fun P r => P.setRule r.2 r.1.1 r.1.2) P)

/-- `program::program`. -/
def load (getFunctionPointer : List (BitVec 8) → List (BitVec 8) → ℕ) : CodeReader Program := do
  let v ← readHeader
  let numPreds ← readByte
  let P ← readTables getFunctionPointer v numPreds
  let P ← readPredicates P.version P.types.length numPreds P
  let P ← readGlobalInfo P
  let P ← readLoop readPredicateCode numPreds P
  readRules P

end Meld.ByteCode
