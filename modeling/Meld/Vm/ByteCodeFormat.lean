import Meld.Vm.ByteCode

/-!
# The byte-code format

What a byte-code file is: an image, with the data that the file holds, the conditions under which
the loader accepts them, and the bytes that stand for them.  Each section of the loader reads
exactly the bytes of the valid data of its section.

* `reads_readTable`, `reads_readString`: tables and strings.
* `TypeImage`, `ExternalImage`, `PredicateImage`, `CodeImage`, `RuleImage`: entries of the tables.
* `reads_readType`, `reads_readExternal`, `reads_readPredicate`, `reads_readCode`,
  `reads_readRuleCode`: what the loader reads of them.
-/

namespace Meld.ByteCode

open Bytes Format

variable {numTypes numNodes : ℕ}

/-! ## Numbers, strings and tables -/

/-- A table has its length in front. -/
def tableBytes {ι : Type} (bytes : ι → List (BitVec 8)) (xs : List ι) : List (BitVec 8) :=
  toBytes 4 xs.length ++ xs.flatMap bytes

theorem reads_readTable {ι α : Type} {read : CodeReader α} {valid : ι → Prop}
    {bytes : ι → List (BitVec 8)} {value : ι → α} (h : Reads read valid bytes value) :
    Reads (readTable read) (fun xs : List ι => xs.length < 256 ^ 4 ∧ ∀ x ∈ xs, valid x)
      (tableBytes bytes) fun xs => xs.map value :=
  Reads.tagged List.length (fun xs => ∀ x ∈ xs, valid x) (fun t _ => h.readMany t) _

/-- A string has its length in front. -/
def stringBytes (s : List (BitVec 8)) : List (BitVec 8) := toBytes 4 s.length ++ s

/-- The length of a string, with the end of the string, fits 32 bits. -/
def StringFits (s : List (BitVec 8)) : Prop := s.length + 1 < 2 ^ 32

theorem reads_readString : Reads readString StringFits stringBytes cString := by
  refine (Reads.tagged List.length StringFits (fun t _ => ?_) _).congr
    (fun s => ?_) (fun _ _ => rfl) fun _ _ => rfl
  · refine (Reads.check (fun _ => (reads_readBytes _ t).map cString) _).congr (fun s => ?_)
      (fun _ _ => rfl) fun _ _ => rfl
    constructor
    · rintro ⟨rfl, h⟩
      exact ⟨h, rfl⟩
    · rintro ⟨h, rfl⟩
      exact ⟨rfl, h⟩
  · rw [StringFits]
    exact ⟨fun h => ⟨by omega, h⟩, fun h => h.2⟩

theorem reads_readRuleString :
    Reads readRuleString (fun s => 0 < s.length ∧ StringFits s) stringBytes cString := by
  refine (Reads.tagged List.length (fun s => 0 < s.length ∧ StringFits s) (fun t _ => ?_) _).congr
    (fun s => ?_) (fun _ _ => rfl) fun _ _ => rfl
  · refine (Reads.check (fun _ => Reads.check (fun _ =>
      (reads_readBytes _ t).map cString) _) _).congr (fun s => ?_) (fun _ _ => rfl) fun _ _ => rfl
    constructor
    · rintro ⟨rfl, h⟩
      exact ⟨h.1, h.2, rfl⟩
    · rintro ⟨hpos, h, rfl⟩
      exact ⟨rfl, hpos, h⟩
  · rw [StringFits]
    exact ⟨fun h => ⟨by omega, h⟩, fun h => h.2⟩

/-- A buffer of `size` bytes with a string in it. -/
def BufferFits (size : ℕ) (buf : List (BitVec 8)) : Prop := buf.length = size ∧ 0 ∈ buf

theorem reads_readBuffer (size : ℕ) : Reads (readBuffer size) (BufferFits size) id cString :=
  (reads_readBytes _ size).filter (0 ∈ ·) _ cString

theorem reads_readByte : Reads readByte (fun b => b < 256) (toBytes 1) id := reads_readWord _ 1

theorem reads_readUint : Reads readUint (fun n => n < 256 ^ 4) (toBytes 4) id := reads_readWord _ 4

theorem reads_readWide : Reads readWide (fun n => n < 256 ^ 8) (toBytes 8) id := reads_readWord _ 8

theorem reads_readTypeId :
    Reads (readTypeId numTypes) (fun t => t < 256 ∧ t < numTypes) (toBytes 1) id :=
  reads_readByte.filter (· < numTypes) _ id

theorem reads_readPredicateId (numPreds : ℕ) :
    Reads (readPredicateId numPreds) (fun p => p < 256 ∧ p < numPreds) (toBytes 1) id :=
  reads_readByte.filter (· < numPreds) _ id

/-! ## Imports -/

namespace Import

variable (i : Import)

def Fits : Prop := StringFits i.imp ∧ StringFits i.as ∧ StringFits i.file

def bytes : List (BitVec 8) := stringBytes i.imp ++ (stringBytes i.as ++ stringBytes i.file)

/-- The import with the strings up to their ends. -/
def cut : Import := ⟨cString i.imp, cString i.as, cString i.file⟩

end Import

theorem reads_readImport : Reads readImport Import.Fits Import.bytes Import.cut := by
  refine (reads_readString.bind fun imp _ => reads_readString.bind fun as _ =>
    reads_readString.map fun file => (⟨cString imp, cString as, file⟩ : Import)).via
      (fun x => ⟨x.1, x.2.1, x.2.2⟩) (fun i => ?_) (fun _ _ => rfl) fun _ _ => rfl
  constructor
  · exact fun h => ⟨(i.imp, i.as, i.file), h, rfl⟩
  · rintro ⟨x, h, rfl⟩
    exact h

/-! ## Types -/

/-- A type as a file has it, with the numbers of the types it is made of. -/
inductive TypeImage where
  | int
  | float
  | node
  | list (id : ℕ)
  | struct (ids : List ℕ)
  | bool
  | thread
  | array (id : ℕ)
  | set (id : ℕ)
  | string
  deriving DecidableEq, Repr

namespace TypeImage

/-- The values of `field_type`. -/
def tag : TypeImage → ℕ
  | int => 0
  | float => 1
  | node => 2
  | list _ => 3
  | struct _ => 4
  | bool => 5
  | thread => 6
  | array _ => 7
  | set _ => 8
  | string => 9

/-- What stands behind the tag. -/
def body : TypeImage → List (BitVec 8)
  | list id | array id | set id => toBytes 1 id
  | struct ids => toBytes 1 ids.length ++ ids.flatMap (toBytes 1)
  | _ => []

def bytes (t : TypeImage) : List (BitVec 8) := toBytes 1 t.tag ++ t.body

/-- The conditions for entry `n` of a table: the types that a structure, an array or a set is made
of stand in front of it.  The type of the elements of a list may stand anywhere in the table. -/
def Fits (numTypes n : ℕ) : TypeImage → Prop
  | list id => id < 256 ∧ id < numTypes
  | struct ids => ids.length < 256 ∧ ∀ id ∈ ids, id < 256 ∧ id < numTypes ∧ id < n
  | array id | set id => id < 256 ∧ id < numTypes ∧ id < n
  | _ => True

/-- The entry of the table, behind `types`. -/
def entry (types : List TypeEntry) : TypeImage → TypeEntry
  | int => .int
  | float => .float
  | node => .node
  | list id => .list (if id < types.length then some id else none)
  | struct ids => .struct ids (simpleTypes types ids)
  | bool => .bool
  | thread => .thread
  | array id => .array id
  | set id => .set id
  | string => .string

end TypeImage

section Types

variable {types : List TypeEntry}

/-- A kind without anything behind its tag. -/
theorem reads_kind (kind : TypeImage) (hbody : kind.body = [])
    (h : ∀ t : TypeImage, t.tag = kind.tag ∧ t.Fits numTypes types.length ↔ kind = t) :
    Reads (pure (kind.entry types) : CodeReader TypeEntry)
      (fun t => t.tag = kind.tag ∧ t.Fits numTypes types.length) TypeImage.body
      (TypeImage.entry types) :=
  (reads_pure _).via (fun _ => kind) (fun t => by simp [h]) (fun _ _ => hbody) fun _ _ => rfl

theorem reads_getType (id : ℕ) :
    Reads (getType numTypes types id) (fun _ : Unit => id < numTypes) (fun _ => []) fun _ =>
      if id < types.length then some id else none :=
  (Reads.check (fun _ => reads_pure _) _).congr (fun _ => by simp) (fun _ _ => rfl) fun _ _ => rfl

/-- The number of a type in front of this one. -/
theorem reads_readLoadedType (null : LoadError) :
    Reads (readLoadedType numTypes types null)
      (fun id => id < 256 ∧ id < numTypes ∧ id < types.length) (toBytes 1) id := by
  refine (reads_readByte.bind fun id _ => (reads_getType id).filter (· = some id) null fun _ => id).via
    Prod.fst (fun id => ?_) ?_ fun _ _ => rfl
  · constructor
    · exact fun h => ⟨(id, ()), by simpa using h, rfl⟩
    · rintro ⟨x, h, rfl⟩
      simpa using h
  · exact fun x _ => (List.append_nil _).symm

theorem reads_readType : Reads (readType numTypes types) (TypeImage.Fits numTypes types.length)
    TypeImage.bytes (TypeImage.entry types) := by
  refine (Reads.tagged TypeImage.tag (TypeImage.Fits numTypes types.length) (fun t _ => ?_) _).congr
    (fun t => ?_) (fun _ _ => rfl) fun _ _ => rfl
  · match t with
    | 0 => exact reads_kind .int rfl fun t => by cases t <;> simp [TypeImage.tag, TypeImage.Fits]
    | 1 => exact reads_kind .float rfl fun t => by cases t <;> simp [TypeImage.tag, TypeImage.Fits]
    | 2 => exact reads_kind .node rfl fun t => by cases t <;> simp [TypeImage.tag, TypeImage.Fits]
    | 3 =>
      refine (reads_readByte.bind fun id _ => (reads_getType id).map TypeEntry.list).via
        (fun x => .list x.1) (fun t => ?_) (fun x _ => (List.append_nil _).symm) fun _ _ => rfl
      cases t <;> simp [TypeImage.tag, TypeImage.Fits]
    | 4 =>
      refine (Reads.tagged List.length (fun ids => ∀ id ∈ ids, _) (fun n _ =>
        ((reads_readLoadedType _).readMany n).map fun ids =>
          TypeEntry.struct ids (simpleTypes types ids)) _).via .struct (fun t => ?_)
        (fun _ _ => rfl) fun ids _ => ?_
      · cases t <;> simp [TypeImage.tag, TypeImage.Fits]
      · rw [List.map_id]
        rfl
    | 5 => exact reads_kind .bool rfl fun t => by cases t <;> simp [TypeImage.tag, TypeImage.Fits]
    | 6 => exact reads_kind .thread rfl fun t => by cases t <;> simp [TypeImage.tag, TypeImage.Fits]
    | 7 =>
      refine ((reads_readLoadedType _).map TypeEntry.array).via .array (fun t => ?_)
        (fun _ _ => rfl) fun _ _ => rfl
      cases t <;> simp [TypeImage.tag, TypeImage.Fits]
    | 8 =>
      refine ((reads_readLoadedType _).map TypeEntry.set).via .set (fun t => ?_)
        (fun _ _ => rfl) fun _ _ => rfl
      cases t <;> simp [TypeImage.tag, TypeImage.Fits]
    | 9 => exact reads_kind .string rfl fun t => by cases t <;> simp [TypeImage.tag, TypeImage.Fits]
    | n + 10 =>
      refine (reads_throw _).congr (fun t => ?_) (fun _ _ => rfl) fun _ _ => rfl
      cases t <;> simp [TypeImage.tag]
  · cases t <;> simp [TypeImage.tag]

end Types

/-! ## Code -/

/-- A place in the code where the number of a node stands. -/
def PlaceFits (numNodes : ℕ) (code : List (BitVec 8)) (place : ℕ) : Prop :=
  place < 256 ^ 4 ∧ place + 8 ≤ code.length ∧ pcounterNode code place < numNodes

/-- The nodes at some places in the code, with the places. -/
def nodesAt (code : List (BitVec 8)) (places : List ℕ) : List (ℕ × ℕ) :=
  places.map fun place => (pcounterNode code place, place)

theorem reads_readNodeReferences (code : List (BitVec 8)) :
    Reads (readNodeReferences numNodes code)
      (fun places => places.length < 256 ^ 4 ∧ ∀ place ∈ places, PlaceFits numNodes code place)
      (tableBytes (toBytes 4)) (nodesAt code) := by
  refine reads_readTable ((reads_readUint.bind fun place _ => Reads.check (fun _ =>
    Reads.check (fun _ => reads_pure (pcounterNode code place, place)) _) _).via Prod.fst
      (fun place => ?_) ?_ fun _ _ => rfl)
  · constructor
    · exact fun h => ⟨(place, ()), ⟨h.1, h.2.1, h.2.2, trivial⟩, rfl⟩
    · rintro ⟨x, h, rfl⟩
      exact ⟨h.1, h.2.1, h.2.2.1⟩
  · exact fun x _ => (List.append_nil _).symm

theorem reads_constReadNodeReferences (code : List (BitVec 8)) :
    Reads (constReadNodeReferences code)
      (fun places => (places.length < 256 ^ 4 ∧ ∀ place ∈ places, place < 256 ^ 4) ∧
        ∀ place ∈ places, place + 8 ≤ code.length)
      (tableBytes (toBytes 4)) (nodesAt code) := by
  refine ((reads_readTable reads_readUint).filter
    (fun pos => ∀ place ∈ pos, place + 8 ≤ code.length) _ (nodesAt code)).congr
      (fun places => ?_) (fun _ _ => rfl) fun places _ => ?_
  · rw [List.map_id]
  · rw [List.map_id]

/-- Code with the places that refer to nodes. -/
structure CodeImage where
  code : List (BitVec 8)
  places : List ℕ
  deriving DecidableEq, Repr

namespace CodeImage

/-- The places fit the code. -/
def PlacesFit (numNodes : ℕ) (c : CodeImage) : Prop :=
  c.places.length < 256 ^ 4 ∧ ∀ place ∈ c.places, PlaceFits numNodes c.code place

def Fits (numNodes : ℕ) (c : CodeImage) : Prop :=
  c.code.length < 256 ^ 4 ∧ c.PlacesFit numNodes

/-- The code and the places, without the length of the code. -/
def body (c : CodeImage) : List (BitVec 8) := c.code ++ tableBytes (toBytes 4) c.places

def bytes (c : CodeImage) : List (BitVec 8) := toBytes 4 c.code.length ++ c.body

/-- The code and the nodes that it refers to. -/
def value (c : CodeImage) : List (BitVec 8) × List (ℕ × ℕ) := (c.code, nodesAt c.code c.places)

end CodeImage

/-- Code of a known size, with its references. -/
theorem reads_codeBody {α : Type} (size : ℕ) (f : List (BitVec 8) × List (ℕ × ℕ) → α) :
    Reads (do
        let code ← readAny size
        let refs ← readNodeReferences numNodes code
        pure (f (code, refs)))
      (fun c : CodeImage => c.code.length = size ∧ c.PlacesFit numNodes) CodeImage.body
      fun c => f c.value := by
  refine ((reads_readBytes _ size).bind fun code _ => (reads_readNodeReferences code).map fun refs =>
    f (code, refs)).via (fun x => ⟨x.1, x.2⟩) (fun c => ?_) (fun _ _ => rfl) fun _ _ => rfl
  constructor
  · exact fun h => ⟨(c.code, c.places), h, rfl⟩
  · rintro ⟨x, h, rfl⟩
    exact h

theorem reads_readCode :
    Reads (readCode numNodes) (CodeImage.Fits numNodes) CodeImage.bytes CodeImage.value :=
  Reads.tagged (fun c : CodeImage => c.code.length) (CodeImage.PlacesFit numNodes)
    (fun size _ => reads_codeBody size id) _

/-! ## External functions -/

/-- An external function as a file has it, with two buffers and two numbers that are not used. -/
structure ExternalImage where
  id : ℕ
  name : List (BitVec 8)
  filename : List (BitVec 8)
  ptr : ℕ
  ret : ℕ
  args : List ℕ
  deriving DecidableEq, Repr

namespace ExternalImage

def Fits (numTypes : ℕ) (x : ExternalImage) : Prop :=
  x.id < 256 ^ 4 ∧ BufferFits 256 x.name ∧ BufferFits 1024 x.filename ∧ x.ptr < 256 ^ 8 ∧
    x.args.length ≤ 3 ∧ (x.ret < 256 ∧ x.ret < numTypes) ∧
      ∀ arg ∈ x.args, arg < 256 ∧ arg < numTypes

/-- The types, with the number of arguments in front. -/
def signature (x : ExternalImage) : List (BitVec 8) :=
  toBytes 4 x.args.length ++ (toBytes 1 x.ret ++ x.args.flatMap (toBytes 1))

def bytes (x : ExternalImage) : List (BitVec 8) :=
  toBytes 4 x.id ++ (x.name ++ (x.filename ++ (toBytes 8 x.ptr ++ x.signature)))

/-- The function that is registered. -/
def value (getFunctionPointer : List (BitVec 8) → List (BitVec 8) → ℕ) (x : ExternalImage) :
    ExternalFunction :=
  ⟨cString x.name, getFunctionPointer (cString x.filename) (cString x.name), x.ret, x.args⟩

end ExternalImage

/-- The types of an external function. -/
theorem reads_signature {α : Type} (f : ℕ → List ℕ → α) :
    Reads (do
        let numArgs ← readUint
        let ret ← readTypeId numTypes
        let args ← readMany (readTypeId numTypes) numArgs
        check (numArgs ≤ 3) .assertion
        pure (f ret args))
      (fun x : ℕ × List ℕ => x.2.length < 256 ^ 4 ∧ (x.1 < 256 ∧ x.1 < numTypes) ∧
        (∀ arg ∈ x.2, arg < 256 ∧ arg < numTypes) ∧ x.2.length ≤ 3)
      (fun x => toBytes 4 x.2.length ++ (toBytes 1 x.1 ++ x.2.flatMap (toBytes 1)))
      fun x => f x.1 x.2 := by
  refine Reads.tagged (fun x : ℕ × List ℕ => x.2.length) _ (fun n _ => ?_) _
  refine (reads_readTypeId.bind fun ret _ => (reads_readTypeId.readMany n).filter
    (fun _ => n ≤ 3) _ (f ret)).congr (fun x => ?_) (fun _ _ => rfl) fun x _ => ?_
  · constructor
    · rintro ⟨rfl, hret, hargs, hle⟩
      exact ⟨hret, ⟨rfl, hargs⟩, hle⟩
    · rintro ⟨hret, ⟨rfl, hargs⟩, hle⟩
      exact ⟨rfl, hret, hargs, hle⟩
  · rw [List.map_id]

theorem reads_readExternal (getFunctionPointer : List (BitVec 8) → List (BitVec 8) → ℕ) :
    Reads (readExternal getFunctionPointer numTypes) (ExternalImage.Fits numTypes)
      ExternalImage.bytes (ExternalImage.value getFunctionPointer) := by
  refine (reads_readUint.bind fun _ _ => (reads_readBuffer 256).bind fun name _ =>
    (reads_readBuffer 1024).bind fun filename _ => reads_readWide.bind fun _ _ =>
      reads_signature fun ret args => ExternalFunction.mk (cString name)
        (getFunctionPointer (cString filename) (cString name)) ret args).via
    (fun x => ⟨x.1, x.2.1, x.2.2.1, x.2.2.2.1, x.2.2.2.2.1, x.2.2.2.2.2⟩) (fun x => ?_)
    (fun _ _ => rfl) fun _ _ => rfl
  constructor
  · rintro ⟨hid, hname, hfile, hptr, hle, hret, hargs⟩
    exact ⟨(x.id, x.name, x.filename, x.ptr, x.ret, x.args),
      ⟨hid, hname, hfile, hptr, by simp only; omega, hret, hargs, hle⟩, rfl⟩
  · rintro ⟨x, ⟨hid, hname, hfile, hptr, -, hret, hargs, hle⟩, rfl⟩
    exact ⟨hid, hname, hfile, hptr, hle, hret, hargs⟩

/-! ## Predicates -/

/-- A predicate as a file has it.  `compact` and `hash` are zero in the versions without them. -/
structure PredicateImage where
  codeSize : ℕ
  prop : ℕ
  compact : ℕ
  agg : ℕ
  level : ℕ
  hash : ℕ
  types : List ℕ
  name : List (BitVec 8)
  info : List (BitVec 8)
  deriving DecidableEq, Repr

section ByteIf

variable (c : Prop) [Decidable c]

def ByteIfFits (b : ℕ) : Prop := if c then b < 256 else b = 0

def byteIfBytes (b : ℕ) : List (BitVec 8) := if c then toBytes 1 b else []

theorem reads_readByteIf : Reads (readByteIf c) (ByteIfFits c) (byteIfBytes c) id := by
  by_cases hc : c
  · rw [readByteIf, if_pos hc]
    exact reads_readByte.congr (fun b => by rw [ByteIfFits, if_pos hc])
      (fun b _ => if_pos hc) fun _ _ => rfl
  · rw [readByteIf, if_neg hc]
    refine (reads_pure 0).via (fun _ => 0) (fun b => ?_) (fun _ _ => if_neg hc) fun _ _ => rfl
    rw [ByteIfFits, if_neg hc]
    exact ⟨fun h => ⟨(), trivial, h.symm⟩, fun ⟨_, _, h⟩ => h.symm⟩

end ByteIf

namespace PredicateImage

def Fits (v : Version) (numTypes : ℕ) (x : PredicateImage) : Prop :=
  x.codeSize < 256 ^ 4 ∧ x.prop < 256 ∧ ByteIfFits (v.AtLeast 0 13) x.compact ∧ x.agg < 256 ∧
    x.level < 256 ∧ ByteIfFits (v.AtLeast 0 12) x.hash ∧
      (x.types.length < 256 ∧ ∀ t ∈ x.types, t < 256 ∧ t < numTypes) ∧ BufferFits 32 x.name ∧
        x.info.length = 32

def bytes (v : Version) (x : PredicateImage) : List (BitVec 8) :=
  toBytes 4 x.codeSize ++ (toBytes 1 x.prop ++ (byteIfBytes (v.AtLeast 0 13) x.compact ++
    (toBytes 1 x.agg ++ (toBytes 1 x.level ++ (byteIfBytes (v.AtLeast 0 12) x.hash ++
      (toBytes 1 x.types.length ++ x.types.flatMap (toBytes 1) ++ (x.name ++ x.info)))))))

/-- The predicate of number `id`. -/
def predicate (id : ℕ) (x : PredicateImage) : Predicate :=
  makePredicate id x.prop x.compact x.agg x.level x.hash x.types (cString x.name) x.info

end PredicateImage

/-- The types of the fields. -/
theorem reads_readFieldTypes :
    Reads (readFieldTypes numTypes)
      (fun ts : List ℕ => ts.length < 256 ∧ ∀ t ∈ ts, t < 256 ∧ t < numTypes)
      (fun ts => toBytes 1 ts.length ++ ts.flatMap (toBytes 1)) id :=
  (Reads.tagged List.length (fun ts : List ℕ => ∀ t ∈ ts, t < 256 ∧ t < numTypes)
    (fun n _ => reads_readTypeId.readMany n) _).congr (fun _ => Iff.rfl) (fun _ _ => rfl)
      fun _ _ => (List.map_id _).symm

theorem reads_readPredicate (v : Version) (id : ℕ) :
    Reads (readPredicate v numTypes id) (PredicateImage.Fits v numTypes) (PredicateImage.bytes v)
      fun x => (x.predicate id, x.codeSize) := by
  refine (reads_readUint.bind fun codeSize _ => reads_readByte.bind fun prop _ =>
    (reads_readByteIf _).bind fun compact _ => reads_readByte.bind fun agg _ =>
      reads_readByte.bind fun level _ => (reads_readByteIf _).bind fun hash _ =>
        reads_readFieldTypes.bind fun types _ => (reads_readBuffer 32).bind fun name _ =>
          (reads_readBytes _ 32).map fun buf =>
            (makePredicate id prop compact agg level hash types (cString name) buf, codeSize)).via
    (fun x => ⟨x.1, x.2.1, x.2.2.1, x.2.2.2.1, x.2.2.2.2.1, x.2.2.2.2.2.1, x.2.2.2.2.2.2.1,
      x.2.2.2.2.2.2.2.1, x.2.2.2.2.2.2.2.2⟩) (fun x => ?_) (fun _ _ => rfl) fun _ _ => rfl
  constructor
  · exact fun h => ⟨(x.codeSize, x.prop, x.compact, x.agg, x.level, x.hash, x.types, x.name,
      x.info), h, rfl⟩
  · rintro ⟨x, h, rfl⟩
    exact h

/-! ## Rules -/

/-- The code of a rule, and the predicates it depends on. -/
structure RuleImage where
  code : CodeImage
  ids : List ℕ
  deriving DecidableEq, Repr

namespace RuleImage

def Fits (numNodes numPreds : ℕ) (x : RuleImage) : Prop :=
  x.code.Fits numNodes ∧ x.ids.length < 10 ∧ ∀ id ∈ x.ids, id < 256 ∧ id < numPreds

def bytes (x : RuleImage) : List (BitVec 8) := x.code.bytes ++ tableBytes (toBytes 1) x.ids

def value (x : RuleImage) : (List (BitVec 8) × List (ℕ × ℕ)) × List ℕ := (x.code.value, x.ids)

end RuleImage

theorem reads_readRuleCode (numPreds : ℕ) :
    Reads (readRuleCode numNodes numPreds) (RuleImage.Fits numNodes numPreds) RuleImage.bytes
      RuleImage.value := by
  have hids (c : List (BitVec 8) × List (ℕ × ℕ)) :
      Reads (readUint >>= fun size => check (size < 10) .assertion >>= fun _ =>
          readMany (readPredicateId numPreds) size >>= fun ids => pure (c, ids))
        (fun ids : List ℕ => ids.length < 256 ^ 4 ∧ ids.length < 10 ∧
          ∀ id ∈ ids, id < 256 ∧ id < numPreds)
        (tableBytes (toBytes 1)) fun ids => (c, ids) := by
    refine Reads.tagged List.length _ (fun n _ => ?_) _
    refine (Reads.check (fun _ => ((reads_readPredicateId numPreds).readMany n).map
      (Prod.mk c)) _).congr (fun ids => ?_) (fun _ _ => rfl) fun ids _ => ?_
    · constructor
      · rintro ⟨rfl, hlt, h⟩
        exact ⟨hlt, rfl, h⟩
      · rintro ⟨hlt, rfl, h⟩
        exact ⟨rfl, hlt, h⟩
    · rw [List.map_id]
  refine (reads_readCode.bind fun c _ => hids c.value).via (fun x => ⟨x.1, x.2⟩) (fun x => ?_)
    (fun _ _ => rfl) fun _ _ => rfl
  constructor
  · rintro ⟨hc, hlt, h⟩
    exact ⟨(x.code, x.ids), ⟨hc, Nat.lt_trans hlt (by decide), hlt, h⟩, rfl⟩
  · rintro ⟨x, ⟨hc, -, hlt, h⟩, rfl⟩
    exact ⟨hc, hlt, h⟩

/-! ## Global information -/

/-- The global information: priorities, the mark of a data file, or a byte without a meaning. -/
inductive GlobalImage where
  | other (b : ℕ)
  | priority (ascDesc initial : ℕ) (values : List ℕ)
  | dataFile
  deriving DecidableEq, Repr

namespace GlobalImage

def tag : GlobalImage → ℕ
  | other b => b
  | priority _ _ _ => 0x02
  | dataFile => 0x03

/-- What stands behind the tag. -/
def body : GlobalImage → List (BitVec 8)
  | priority ascDesc initial values =>
    toBytes 1 0x01 ++ (toBytes 1 ascDesc ++ (toBytes 8 initial ++ values.flatMap (toBytes 8)))
  | _ => []

def bytes (g : GlobalImage) : List (BitVec 8) := toBytes 1 g.tag ++ g.body

def Fits (v : Version) : GlobalImage → Prop
  | other b => b < 256 ∧ b ≠ 0x01 ∧ b ≠ 0x02 ∧ b ≠ 0x03
  | priority ascDesc initial values =>
    ascDesc < 256 ∧ initial < 256 ^ 8 ∧ values.length = (if v.AtLeast 0 14 then 2 else 0) ∧
      ∀ x ∈ values, x < 256 ^ 8
  | dataFile => True

/-- The program with the information. -/
def apply (P : Program) : GlobalImage → Program
  | priority ascDesc initial values =>
    P.setPriorities (if hasProp ascDesc 0x01 then .asc else .desc) (hasProp ascDesc 0x02) initial
      (if P.version.AtLeast 0 14 then values
        else List.replicate 2 (noPriorityValue0 !hasProp ascDesc 0x01))
  | dataFile => { P with isDataFile := true }
  | other _ => P

end GlobalImage

theorem reads_readPriorityValues (v : Version) (desc : Bool) :
    Reads (readPriorityValues v desc)
      (fun values => values.length = (if v.AtLeast 0 14 then 2 else 0) ∧
        ∀ x ∈ values, x < 256 ^ 8)
      (fun values => values.flatMap (toBytes 8)) fun values =>
        if v.AtLeast 0 14 then values else List.replicate 2 (noPriorityValue0 desc) := by
  by_cases hv : v.AtLeast 0 14
  · simp only [readPriorityValues, if_pos hv]
    exact (reads_readWide.readMany 2).congr (fun _ => Iff.rfl) (fun _ _ => rfl)
      fun _ _ => (List.map_id _).symm
  · simp only [readPriorityValues, if_neg hv]
    refine (reads_pure _).via (fun _ => []) (fun values => ?_) (fun _ _ => rfl) fun _ _ => rfl
    constructor
    · rintro ⟨hlen, -⟩
      exact ⟨(), trivial, (List.length_eq_zero_iff.1 hlen).symm⟩
    · rintro ⟨-, -, rfl⟩
      exact ⟨rfl, by simp⟩

theorem reads_readGlobalInfo (P : Program) :
    Reads (readGlobalInfo P) (GlobalImage.Fits P.version) GlobalImage.bytes
      (GlobalImage.apply P) := by
  have hother (n : ℕ) (hn : n ≠ 0x01 ∧ n ≠ 0x02 ∧ n ≠ 0x03) (hlt : n < 256) :
      Reads (pure P : CodeReader Program) (fun g => g.tag = n ∧ g.Fits P.version) GlobalImage.body
        (GlobalImage.apply P) := by
    refine (reads_pure P).via (fun _ => .other n) (fun g => ?_) (fun _ _ => rfl) fun _ _ => rfl
    constructor
    · rintro ⟨htag, hfits⟩
      cases g with
      | other b => exact ⟨(), trivial, congrArg _ htag.symm⟩
      | priority _ _ _ => exact absurd htag.symm hn.2.1
      | dataFile => exact absurd htag.symm hn.2.2
    · rintro ⟨-, -, rfl⟩
      exact ⟨rfl, hlt, hn⟩
  refine (Reads.tagged GlobalImage.tag (GlobalImage.Fits P.version) (fun t ht => ?_) _).congr
    (fun g => ?_) (fun _ _ => rfl) fun _ _ => rfl
  · match t with
    | 0 => exact hother 0 (by decide) ht
    | 1 =>
      refine (reads_throw _).congr (fun g => ?_) (fun _ _ => rfl) fun _ _ => rfl
      cases g <;> simp +contextual [GlobalImage.tag, GlobalImage.Fits]
    | 2 =>
      refine (reads_readByte.bind fun type _ => Reads.check (fun _ =>
        reads_readByte.bind fun ascDesc _ => reads_readWide.bind fun initial _ =>
          (reads_readPriorityValues _ _).map fun values =>
            P.setPriorities (if hasProp ascDesc 0x01 then .asc else .desc) (hasProp ascDesc 0x02)
              initial values) _).via
        (fun x => .priority x.2.1 x.2.2.1 x.2.2.2) (fun g => ?_) ?_ fun _ _ => rfl
      · constructor
        · rintro ⟨htag, hfits⟩
          cases g with
          | other b => exact absurd htag hfits.2.2.1
          | priority ascDesc initial values =>
            exact ⟨(0x01, ascDesc, initial, values), ⟨by simp, rfl, hfits⟩, rfl⟩
          | dataFile => exact absurd htag (by decide)
        · rintro ⟨x, ⟨-, -, hfits⟩, rfl⟩
          exact ⟨rfl, hfits⟩
      · rintro x ⟨-, htype, -⟩
        exact congrArg (toBytes 1 · ++ _) htype.symm
    | 3 =>
      refine (reads_pure _).via (fun _ => .dataFile) (fun g => ?_) (fun _ _ => rfl) fun _ _ => rfl
      cases g <;> simp +contextual [GlobalImage.tag, GlobalImage.Fits]
    | n + 4 => exact hother (n + 4) (by omega) ht
  · cases g <;> simp +contextual [GlobalImage.tag, GlobalImage.Fits]

end Meld.ByteCode
