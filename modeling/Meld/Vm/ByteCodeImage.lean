import Meld.Vm.ByteCodeFormat

/-!
# Byte-code files

The image of a whole file, and the loader on it: the loader accepts a file exactly if the file
begins with the bytes of a valid image, and then builds the program of the image.  So what is
accepted is well formed, and every valid image can be loaded.

* `Image`: the data of a file, `Image.Fits` the conditions, `Image.bytes` the bytes,
  `Image.program` the program.
* `load_iff`: the loader and the format.
-/

namespace Meld.ByteCode

open Bytes Format

/-! ## The tables in front of the predicates -/

/-- The tables in front of the predicates. -/
structure TablesImage where
  nodes : List (ℕ × ℕ)
  types : List TypeImage
  imports : List Import
  exports : List (List (BitVec 8))
  numArgs : ℕ
  ruleStrings : List (List (BitVec 8))
  defaultStrings : List (List (BitVec 8))
  constTypes : List ℕ
  const : CodeImage
  functions : List CodeImage
  externals : List ExternalImage
  deriving DecidableEq, Repr

/-- A node is the pair of its two numbers. -/
def nodeBytes (n : ℕ × ℕ) : List (BitVec 8) := toBytes 8 n.1 ++ toBytes 8 n.2

def NodeFits (n : ℕ × ℕ) : Prop := n.1 < 256 ^ 8 ∧ n.2 < 256 ^ 8

/-- Sixteen bytes for each node are the table of nodes. -/
theorem length_nodes_iff (n : ℕ) (raw : List (BitVec 8)) : raw.length = n * nodeSize ↔
    ∃ nodes : List (ℕ × ℕ), (nodes.length = n ∧ ∀ node ∈ nodes, NodeFits node) ∧
      nodes.flatMap nodeBytes = raw := by
  induction n generalizing raw with
  | zero =>
    rw [Nat.zero_mul, List.length_eq_zero_iff]
    constructor
    · rintro rfl
      exact ⟨[], ⟨rfl, by simp⟩, rfl⟩
    · rintro ⟨nodes, ⟨hlen, -⟩, rfl⟩
      rw [List.length_eq_zero_iff.1 hlen, List.flatMap_nil]
  | succ n ih =>
    constructor
    · intro hraw
      rw [nodeSize] at hraw
      obtain ⟨first, tail, rfl, hfirst⟩ : ∃ u v, u ++ v = raw ∧ u.length = 8 :=
        ⟨raw.take 8, raw.drop 8, List.take_append_drop .., List.length_take_of_le (by omega)⟩
      rw [List.length_append] at hraw
      obtain ⟨second, tail, rfl, hsecond⟩ : ∃ u v, u ++ v = tail ∧ u.length = 8 :=
        ⟨tail.take 8, tail.drop 8, List.take_append_drop .., List.length_take_of_le (by omega)⟩
      rw [List.length_append] at hraw
      obtain ⟨nodes, ⟨hlen, hfits⟩, rfl⟩ := (ih tail).1 (by rw [nodeSize]; omega)
      refine ⟨(ofBytes first, ofBytes second) :: nodes, ⟨congrArg (· + 1) hlen, ?_⟩, ?_⟩
      · exact List.forall_mem_cons.2 ⟨⟨ofBytes_lt hfirst, ofBytes_lt hsecond⟩, hfits⟩
      · rw [List.flatMap_cons, nodeBytes, toBytes_ofBytes hfirst, toBytes_ofBytes hsecond,
          List.append_assoc]
    · rintro ⟨nodes, ⟨hlen, hfits⟩, rfl⟩
      obtain ⟨node, nodes, rfl⟩ := List.exists_cons_of_length_eq_add_one hlen
      have hrest := (ih _).2 ⟨nodes, ⟨Nat.succ.inj hlen, (List.forall_mem_cons.1 hfits).2⟩, rfl⟩
      rw [List.flatMap_cons, List.length_append, hrest, nodeBytes, List.length_append,
        length_toBytes, length_toBytes, nodeSize]
      omega

/-- A table whose entries all fit. -/
def TableFits {ι : Type} (fits : ι → Prop) (xs : List ι) : Prop :=
  xs.length < 256 ^ 4 ∧ ∀ x ∈ xs, fits x

/-- The constant code, whose places are looked up only when it is about to run. -/
def CodeImage.ConstFits (c : CodeImage) : Prop :=
  c.code.length < 256 ^ 4 ∧ TableFits (· < 256 ^ 4) c.places ∧
    ∀ place ∈ c.places, place + 8 ≤ c.code.length

namespace TablesImage

def Fits (x : TablesImage) : Prop :=
  TableFits NodeFits x.nodes ∧
    (x.types.length < 256 ∧ ∀ n (t : TypeImage), x.types[n]? = some t → t.Fits x.types.length n) ∧
    TableFits Import.Fits x.imports ∧ TableFits StringFits x.exports ∧ x.numArgs < 256 ∧
    TableFits (fun s => 0 < s.length ∧ StringFits s) x.ruleStrings ∧
    TableFits StringFits x.defaultStrings ∧
    TableFits (fun t => t < 256 ∧ t < x.types.length) x.constTypes ∧ x.const.ConstFits ∧
    TableFits (CodeImage.Fits x.nodes.length) x.functions ∧
    TableFits (ExternalImage.Fits x.types.length) x.externals

/-- The table of types: its length has one byte. -/
def typesBytes (types : List TypeImage) : List (BitVec 8) :=
  toBytes 1 types.length ++ types.flatMap TypeImage.bytes

def bytes (x : TablesImage) : List (BitVec 8) :=
  tableBytes nodeBytes x.nodes ++ (typesBytes x.types ++ (tableBytes Import.bytes x.imports ++
    (tableBytes stringBytes x.exports ++ (toBytes 1 x.numArgs ++
      (tableBytes stringBytes x.ruleStrings ++ (tableBytes stringBytes x.defaultStrings ++
        (tableBytes (toBytes 1) x.constTypes ++ (x.const.bytes ++
          (tableBytes CodeImage.bytes x.functions ++
            tableBytes ExternalImage.bytes x.externals)))))))))

/-- The table of types, each entry made behind the ones in front of it. -/
def entries (types : List TypeImage) : List TypeEntry :=
  types.foldl (fun es t => es ++ [t.entry es]) []

variable (getFunctionPointer : List (BitVec 8) → List (BitVec 8) → ℕ)

/-- The program with these tables. -/
def program (v : Version) (numPreds : ℕ) (x : TablesImage) : Program :=
  (x.functions.map CodeImage.value).foldl Program.addFunction
    (.create v numPreds x.nodes.length (entries x.types) (x.imports.map Import.cut)
      (x.exports.map cString) x.numArgs (x.ruleStrings.map cString) (x.defaultStrings.map cString)
      x.constTypes x.const.value (x.externals.map (ExternalImage.value getFunctionPointer)))

end TablesImage

theorem length_entries (types : List TypeImage) :
    (TablesImage.entries types).length = types.length := by
  have h (es : List TypeEntry) :
      (types.foldl (fun es t => es ++ [t.entry es]) es).length = es.length + types.length := by
    induction types generalizing es with
    | nil => rfl
    | cons t types ih =>
      rw [List.foldl_cons, ih, List.length_append, List.length_cons]
      simp only [List.length_cons, List.length_nil]
      omega
  rw [TablesImage.entries, h, List.length_nil, Nat.zero_add]

/-- The table of types. -/
theorem reads_types (numTypes : ℕ) :
    Reads (readLoop (fun types => do
        let type ← readType numTypes types
        pure (types ++ [type])) numTypes [])
      (fun types : List TypeImage => types.length = numTypes ∧
        ∀ n (t : TypeImage), types[n]? = some t → t.Fits numTypes n)
      (fun types => types.flatMap TypeImage.bytes) TablesImage.entries := by
  refine (Reads.readLoop (fun types => reads_readType.map fun type => types ++ [type])
    numTypes []).congr (fun types => ?_) (fun _ _ => rfl) fun _ _ => rfl
  refine and_congr_right fun _ => ?_
  rw [validAlong_index (fun _ => ()) List.length (fun _ => TypeImage.Fits numTypes)
    (fun _ _ => rfl) fun types t => by simp]
  simp

theorem reads_readConstCode :
    Reads readConstCode CodeImage.ConstFits CodeImage.bytes CodeImage.value := by
  refine Reads.tagged (fun c : CodeImage => c.code.length) (fun c =>
    TableFits (· < 256 ^ 4) c.places ∧ ∀ place ∈ c.places, place + 8 ≤ c.code.length)
    (fun size _ => ?_) _
  refine ((reads_readBytes _ size).bind fun code _ =>
    (reads_constReadNodeReferences code).map (Prod.mk code)).via (fun x => ⟨x.1, x.2⟩) (fun c => ?_)
      (fun _ _ => rfl) fun _ _ => rfl
  constructor
  · exact fun h => ⟨(c.code, c.places), h, rfl⟩
  · rintro ⟨x, h, rfl⟩
    exact h

theorem reads_readTables (getFunctionPointer : List (BitVec 8) → List (BitVec 8) → ℕ) (v : Version)
    (numPreds : ℕ) :
    Reads (readTables getFunctionPointer v numPreds) TablesImage.Fits TablesImage.bytes
      (TablesImage.program getFunctionPointer v numPreds) := by
  refine (reads_readUint.bind fun numNodes _ => Reads.skip (reads_readByte.bind fun numTypes _ =>
    (reads_types numTypes).bind fun types _ =>
    (reads_readTable reads_readImport).bind fun imports _ =>
    (reads_readTable reads_readString).bind fun exports _ => reads_readByte.bind fun numArgs _ =>
    (reads_readTable reads_readRuleString).bind fun ruleStrings _ =>
    (reads_readTable reads_readString).bind fun defaultStrings _ =>
    (reads_readTable reads_readTypeId).bind fun constTypes _ =>
    reads_readConstCode.bind fun const _ => (reads_readTable reads_readCode).bind fun functions _ =>
    (reads_readTable (reads_readExternal getFunctionPointer)).map fun externals =>
      (functions.map CodeImage.value).foldl Program.addFunction
        (.create v numPreds numNodes (TablesImage.entries types) (imports.map Import.cut)
          (exports.map cString) numArgs (ruleStrings.map cString) (defaultStrings.map cString)
          (constTypes.map id) const.value externals)) (fun x _ => ?_)
        (length_nodes_iff numNodes)).via
    (fun x => ⟨x.2.1, x.2.2.2.1, x.2.2.2.2.1, x.2.2.2.2.2.1, x.2.2.2.2.2.2.1, x.2.2.2.2.2.2.2.1,
      x.2.2.2.2.2.2.2.2.1, x.2.2.2.2.2.2.2.2.2.1, x.2.2.2.2.2.2.2.2.2.2.1,
      x.2.2.2.2.2.2.2.2.2.2.2.1, x.2.2.2.2.2.2.2.2.2.2.2.2⟩) (fun x => ?_) ?_ ?_
  · simp [toBytes]
  · constructor
    · rintro ⟨hnodes, htypes, himports, hexports, hargs, hrules, hstrings, hconsts, hconst, hfuns,
        hexts⟩
      exact ⟨(x.nodes.length, x.nodes, x.types.length, x.types, x.imports, x.exports, x.numArgs,
        x.ruleStrings, x.defaultStrings, x.constTypes, x.const, x.functions, x.externals),
        ⟨hnodes.1, ⟨rfl, hnodes.2⟩, htypes.1, ⟨rfl, htypes.2⟩, himports, hexports, hargs, hrules,
          hstrings, hconsts, hconst, hfuns, hexts⟩, rfl⟩
    · rintro ⟨⟨n, nodes, m, types, x⟩, ⟨hn, ⟨hlen, hnodes⟩, hm, ⟨hlen', htypes⟩, hx⟩, rfl⟩
      obtain rfl : nodes.length = n := hlen
      obtain rfl : types.length = m := hlen'
      exact ⟨⟨hn, hnodes⟩, ⟨hm, htypes⟩, hx⟩
  · rintro ⟨n, nodes, m, types, x⟩ ⟨-, ⟨hlen, -⟩, -, ⟨hlen', -⟩, -⟩
    obtain rfl : nodes.length = n := hlen
    obtain rfl : types.length = m := hlen'
    simp only [TablesImage.bytes, tableBytes, TablesImage.typesBytes, List.append_assoc]
  · rintro ⟨n, nodes, m, types, x⟩ ⟨-, ⟨hlen, -⟩, -⟩
    obtain rfl : nodes.length = n := hlen
    simp only [TablesImage.program, List.map_id]

/-! ## The header -/

/-- The versions that are supported. -/
def Version.Fits (v : Version) : Prop :=
  v.major < 256 ^ 4 ∧ v.minor < 256 ^ 4 ∧ v.AtLeast 0 11 ∧ ¬v.AtLeast 0 15

/-- The magic number and the version. -/
def Version.bytes (v : Version) : List (BitVec 8) :=
  toBytes 4 magic1 ++ (toBytes 4 magic2 ++ (toBytes 4 v.major ++ toBytes 4 v.minor))

theorem reads_readHeader : Reads readHeader Version.Fits Version.bytes id := by
  refine (reads_readUint.bind fun m1 _ => reads_readUint.bind fun m2 _ => Reads.check (fun _ =>
    reads_readUint.bind fun major _ => reads_readUint.bind fun minor _ => Reads.check (fun _ =>
      Reads.check (fun _ => reads_pure (Version.mk major minor)) _) _) _).via
    (fun x => ⟨x.2.2.1, x.2.2.2.1⟩) (fun v => ?_) ?_ fun _ _ => rfl
  · constructor
    · rintro ⟨hmajor, hminor, hv, hv'⟩
      have h1 : magic1 < 256 ^ 4 := by decide
      have h2 : magic2 < 256 ^ 4 := by decide
      exact ⟨(magic1, magic2, v.major, v.minor, ()), ⟨h1, h2, ⟨rfl, rfl⟩, hmajor, hminor, hv, hv',
        trivial⟩, rfl⟩
    · rintro ⟨x, ⟨-, -, -, hmajor, hminor, hv, hv', -⟩, rfl⟩
      exact ⟨hmajor, hminor, hv, hv'⟩
  · rintro ⟨m1, m2, major, minor, u⟩ ⟨-, -, ⟨h1, h2⟩, -⟩
    obtain rfl : m1 = magic1 := h1
    obtain rfl : m2 = magic2 := h2
    simp only [Version.bytes, List.append_nil]

/-! ## The predicates -/

/-- What a file says of the aggregate of a predicate. -/
def PredicateImage.aggInfo (x : PredicateImage) : Option AggregateInfo := (x.predicate 0).aggInfo

/-- The remote predicate of an aggregate is one of `numPreds`. -/
def RemoteFits (numPreds : ℕ) (info : Option AggregateInfo) : Prop :=
  ∀ i ∈ info, ∀ id ∈ i.remotePredId, id < numPreds

namespace Program

/-- The predicates of a file, one behind the other. -/
def addPredicates (P : Program) (xs : List PredicateImage) : Program :=
  xs.foldl (fun P x => P.addPredicate (x.predicate P.predicates.length) x.codeSize) P

variable (P : Program)

/-- What does not depend on the number of a predicate, or on the ones in front of it. -/
theorem map_addPredicates {α : Type} (f : Predicate → α) (g : PredicateImage → α)
    (hf : ∀ P x, f (numbered P (x.predicate P.predicates.length) x.codeSize) = g x)
    (xs : List PredicateImage) :
    (P.addPredicates xs).predicates.map f = P.predicates.map f ++ xs.map g := by
  induction xs generalizing P with
  | nil => exact (List.append_nil _).symm
  | cons x xs ih =>
    rw [addPredicates, List.foldl_cons, ← addPredicates, ih, addPredicate, List.map_append,
      List.append_assoc, List.map_singleton, hf]
    rfl

theorem aggInfo_addPredicates (xs : List PredicateImage) :
    (P.addPredicates xs).predicates.map Predicate.aggInfo =
      P.predicates.map Predicate.aggInfo ++ xs.map PredicateImage.aggInfo :=
  P.map_addPredicates _ _ (fun _ _ => rfl) xs

theorem codeSize_addPredicates (xs : List PredicateImage) :
    (P.addPredicates xs).codeSize = P.codeSize ++ xs.map PredicateImage.codeSize := by
  induction xs generalizing P with
  | nil => exact (List.append_nil _).symm
  | cons x xs ih =>
    rw [addPredicates, List.foldl_cons, ← addPredicates, ih, addPredicate, List.append_assoc]
    rfl

theorem length_addPredicates (xs : List PredicateImage) :
    (P.addPredicates xs).predicates.length = P.predicates.length + xs.length := by
  have h := congrArg List.length (P.aggInfo_addPredicates xs)
  simpa using h

/-- The remote predicates are known if there are enough predicates. -/
theorem remoteKnown_addPredicates {xs : List PredicateImage} (hP : P.predicates = []) :
    (∀ pred ∈ (P.addPredicates xs).predicates, (P.addPredicates xs).RemoteKnown pred) ↔
      ∀ x ∈ xs, RemoteFits xs.length x.aggInfo := by
  have hmap := P.aggInfo_addPredicates xs
  have hlen := P.length_addPredicates xs
  rw [hP, List.map_nil, List.nil_append] at hmap
  rw [hP, List.length_nil, Nat.zero_add] at hlen
  calc (∀ pred ∈ (P.addPredicates xs).predicates, (P.addPredicates xs).RemoteKnown pred)
      ↔ ∀ info ∈ (P.addPredicates xs).predicates.map Predicate.aggInfo,
          RemoteFits xs.length info := by
        rw [List.forall_mem_map]
        simp only [RemoteKnown, RemoteFits, hlen]
    _ ↔ ∀ x ∈ xs, RemoteFits xs.length x.aggInfo := by rw [hmap, List.forall_mem_map]

end Program

/-- The loop over the predicates. -/
theorem reads_predicates (v : Version) (numTypes numPreds : ℕ) (P : Program) :
    Reads (readLoop (fun P => do
        let pred ← readPredicate v numTypes P.predicates.length
        pure (P.addPredicate pred.1 pred.2)) numPreds P)
      (fun xs : List PredicateImage => xs.length = numPreds ∧ ∀ x ∈ xs, x.Fits v numTypes)
      (fun xs => xs.flatMap (PredicateImage.bytes v)) P.addPredicates := by
  have hbody (P : Program) := (@reads_readPredicate numTypes v P.predicates.length).map
    fun pred => P.addPredicate pred.1 pred.2
  refine (Reads.readLoop hbody numPreds P).congr (fun xs => ?_) (fun _ _ => rfl) fun _ _ => rfl
  refine and_congr_right fun _ => ?_
  rw [validAlong_const (fun _ => ()) (fun _ => PredicateImage.Fits v numTypes) fun _ _ => rfl]

theorem reads_readPredicates (v : Version) (numTypes numPreds : ℕ) {P : Program}
    (hP : P.predicates = []) :
    Reads (readPredicates v numTypes numPreds P)
      (fun xs : List PredicateImage => xs.length = numPreds ∧
        (∀ x ∈ xs, x.Fits v numTypes) ∧ ∀ x ∈ xs, RemoteFits xs.length x.aggInfo)
      (fun xs => xs.flatMap (PredicateImage.bytes v))
      fun xs => (P.addPredicates xs).cachePredicates := by
  refine ((reads_predicates v numTypes numPreds P).filter
    (fun P => ∀ pred ∈ P.predicates, P.RemoteKnown pred) _ Program.cachePredicates).congr
      (fun xs => ?_) (fun _ _ => rfl) fun _ _ => rfl
  rw [P.remoteKnown_addPredicates hP, and_assoc]

/-! ## The code of the predicates -/

namespace CodeImage

/-- The code of a predicate.  A predicate without code has no references either. -/
def predicateBytes (c : CodeImage) : List (BitVec 8) := if c.code = [] then [] else c.body

def predicateValue (c : CodeImage) : Option (List (BitVec 8) × List (ℕ × ℕ)) :=
  if c.code = [] then none else some c.value

/-- There is no place in empty code. -/
theorem PlacesFit.places_eq_nil {c : CodeImage} {numNodes : ℕ} (h : c.PlacesFit numNodes)
    (hc : c.code = []) : c.places = [] := by
  refine List.eq_nil_iff_forall_not_mem.2 fun place hplace => ?_
  have hfits := (h.2 place hplace).2.1
  rw [hc, List.length_nil] at hfits
  omega

end CodeImage

theorem reads_readPredicateCode (P : Program) :
    Reads (readPredicateCode P)
      (fun c : CodeImage => c.code.length = P.nextCodeSize ∧ c.PlacesFit P.numNodes)
      CodeImage.predicateBytes fun c => P.addCode c.predicateValue := by
  rw [readPredicateCode]
  by_cases hsize : 0 < P.nextCodeSize
  · rw [if_pos hsize]
    have hne : ∀ c : CodeImage, c.code.length = P.nextCodeSize ∧ c.PlacesFit P.numNodes →
        c.code ≠ [] := by
      rintro c ⟨hlen, -⟩ hc
      rw [hc, List.length_nil] at hlen
      omega
    refine (reads_codeBody P.nextCodeSize fun c => P.addCode (some c)).congr (fun _ => Iff.rfl)
      (fun c hc => if_neg (hne c hc)) fun c hc => ?_
    rw [CodeImage.predicateValue, if_neg (hne c hc)]
  · rw [if_neg hsize]
    refine (reads_pure _).via (fun _ => ⟨[], []⟩) (fun c => ?_) (fun _ _ => rfl) fun _ _ => rfl
    constructor
    · rintro ⟨hlen, hplaces⟩
      have hc : c.code = [] := List.length_eq_zero_iff.1 (by omega)
      refine ⟨(), trivial, ?_⟩
      cases c
      exact (CodeImage.mk.injEq ..).mpr ⟨hc.symm, (hplaces.places_eq_nil hc).symm⟩
    · rintro ⟨-, -, rfl⟩
      exact ⟨(Nat.eq_zero_of_not_pos hsize).symm, by decide, by simp⟩

/-- The code of all predicates. -/
theorem reads_predicateCodes (numPreds : ℕ) {P : Program} (hcode : P.code = [])
    (hlen : P.codeSize.length = numPreds) :
    Reads (readLoop readPredicateCode numPreds P)
      (fun cs : List CodeImage => cs.map (fun c => c.code.length) = P.codeSize ∧
        ∀ c ∈ cs, c.PlacesFit P.numNodes)
      (fun cs => cs.flatMap CodeImage.predicateBytes)
      fun cs => (cs.map CodeImage.predicateValue).foldl Program.addCode P := by
  refine (Reads.readLoop reads_readPredicateCode numPreds P).congr (fun cs => ?_) (fun _ _ => rfl)
    fun cs _ => List.foldl_map
  have halong := validAlong_index (fun P : Program => (P.codeSize, P.numNodes))
    (fun P => P.code.length)
    (fun p i (c : CodeImage) => c.code.length = p.1.getD i 0 ∧ c.PlacesFit p.2)
    (fun P c => (rfl : ((P.addCode c.predicateValue).codeSize, P.numNodes) = _))
    (fun _ _ => List.length_append) P cs
  refine Iff.trans ?_ (and_congr_right fun _ => halong.symm)
  simp only [hcode, List.length_nil, Nat.zero_add]
  constructor
  · rintro ⟨hsizes, hplaces⟩
    refine ⟨?_, fun i c hc => ⟨?_, hplaces c (List.mem_of_getElem? hc)⟩⟩
    · rw [← hlen, ← hsizes, List.length_map]
    · rw [← hsizes, List.getD_eq_getElem?_getD, List.getElem?_map, hc]
      rfl
  · rintro ⟨hcs, hall⟩
    refine ⟨List.ext_getElem? fun i => ?_, fun c hc => ?_⟩
    · rw [List.getElem?_map]
      cases hc : cs[i]? with
      | none =>
        have hle := List.getElem?_eq_none_iff.1 hc
        exact (List.getElem?_eq_none_iff.2 (by omega)).symm
      | some c =>
        have hlt := (List.getElem?_eq_some_iff.1 hc).1
        rw [Option.map_some, (hall i c hc).1, List.getD_eq_getElem?_getD,
          List.getElem?_eq_getElem (by omega), Option.getD_some]
    · obtain ⟨i, hi⟩ := List.getElem?_of_mem hc
      exact (hall i c hi).2

/-! ## The rules -/

namespace Program

/-- The code of the rules of a file. -/
def setRules (P : Program) (rules : List RuleImage) : Program :=
  (rules.map RuleImage.value).zipIdx.foldl (fun P r => P.setRule r.2 r.1.1 r.1.2) P

end Program

theorem reads_readRules (P : Program) :
    Reads (readRules P)
      (fun rules : List RuleImage => rules.length < 256 ^ 4 ∧ rules.length = P.rules.length ∧
        ∀ r ∈ rules, r.Fits P.numNodes P.predicates.length)
      (tableBytes RuleImage.bytes) P.setRules := by
  refine Reads.tagged List.length _ (fun n _ => ?_) _
  refine (Reads.check (fun _ => ((reads_readRuleCode P.predicates.length).readMany n).map
    fun rules => rules.zipIdx.foldl (fun P r => P.setRule r.2 r.1.1 r.1.2) P) _).congr
      (fun rules => ?_) (fun _ _ => rfl) fun _ _ => rfl
  constructor
  · rintro ⟨rfl, hlen, h⟩
    exact ⟨hlen, rfl, h⟩
  · rintro ⟨hlen, rfl, h⟩
    exact ⟨rfl, hlen, h⟩

/-! ## The file -/

/-- The program with the tables and the predicates, without any code of them. -/
def TablesImage.declare (getFunctionPointer : List (BitVec 8) → List (BitVec 8) → ℕ) (v : Version)
    (numPreds : ℕ) (predicates : List PredicateImage) (x : TablesImage) : Program :=
  ((x.program getFunctionPointer v numPreds).addPredicates predicates).cachePredicates

/-- The data of a byte-code file. -/
structure Image where
  version : Version
  tables : TablesImage
  predicates : List PredicateImage
  globalInfo : GlobalImage
  codes : List CodeImage
  rules : List RuleImage
  deriving DecidableEq, Repr

namespace Image

/-- The conditions under which a file can be loaded. -/
structure Fits (x : Image) : Prop where
  version : x.version.Fits
  numPreds : x.predicates.length < 256
  tables : x.tables.Fits
  predicates : ∀ p ∈ x.predicates, p.Fits x.version x.tables.types.length
  remote : ∀ p ∈ x.predicates, RemoteFits x.predicates.length p.aggInfo
  globalInfo : x.globalInfo.Fits x.version
  codeSizes : x.codes.map (fun c => c.code.length) = x.predicates.map PredicateImage.codeSize
  codes : ∀ c ∈ x.codes, c.PlacesFit x.tables.nodes.length
  numRules : x.rules.length = x.tables.ruleStrings.length
  rules : ∀ r ∈ x.rules, r.Fits x.tables.nodes.length x.predicates.length

/-- The bytes of a file. -/
def bytes (x : Image) : List (BitVec 8) :=
  x.version.bytes ++ (toBytes 1 x.predicates.length ++ (x.tables.bytes ++
    (x.predicates.flatMap (PredicateImage.bytes x.version) ++ (x.globalInfo.bytes ++
      (x.codes.flatMap CodeImage.predicateBytes ++ tableBytes RuleImage.bytes x.rules)))))

variable (getFunctionPointer : List (BitVec 8) → List (BitVec 8) → ℕ)

/-- The program of a file. -/
def program (x : Image) : Program :=
  ((x.codes.map CodeImage.predicateValue).foldl Program.addCode
    (x.globalInfo.apply (x.tables.declare getFunctionPointer x.version x.predicates.length
      x.predicates))).setRules x.rules

end Image

namespace Program

/-- What is known of a program before the predicates are read. -/
def fixed (P : Program) : Version × ℕ × List TypeEntry × ℕ :=
  (P.version, P.numNodes, P.types, P.rules.length)

theorem fixed_eq {P : Program} {v : Version} {n : ℕ} {types : List TypeEntry} {r : ℕ}
    (h : P.fixed = (v, n, types, r)) :
    P.version = v ∧ P.numNodes = n ∧ P.types = types ∧ P.rules.length = r := by
  simpa [fixed] using h

theorem fixed_addPredicates (P : Program) (xs : List PredicateImage) :
    (P.addPredicates xs).fixed = P.fixed :=
  foldl_keeps fixed (fun _ _ => by rfl) P xs

theorem code_addPredicates (P : Program) (xs : List PredicateImage) :
    (P.addPredicates xs).code = P.code :=
  foldl_keeps code (fun _ _ => by rfl) P xs

theorem fixed_apply (P : Program) (g : GlobalImage) : (g.apply P).fixed = P.fixed := by
  cases g <;> rfl

theorem predicates_apply (P : Program) (g : GlobalImage) :
    (g.apply P).predicates = P.predicates := by
  cases g <;> rfl

theorem codes_apply (P : Program) (g : GlobalImage) :
    ((g.apply P).code, (g.apply P).codeSize) = (P.code, P.codeSize) := by
  cases g <;> rfl

theorem fixed_addCodes (P : Program) (cs : List (Option (List (BitVec 8) × List (ℕ × ℕ)))) :
    (cs.foldl addCode P).fixed = P.fixed :=
  foldl_keeps fixed (fun _ _ => by rfl) P cs

theorem predicates_addCodes (P : Program)
    (cs : List (Option (List (BitVec 8) × List (ℕ × ℕ)))) :
    (cs.foldl addCode P).predicates = P.predicates :=
  foldl_keeps predicates (fun _ _ => by rfl) P cs

end Program

section Load

variable (getFunctionPointer : List (BitVec 8) → List (BitVec 8) → ℕ)

namespace TablesImage

theorem fixed_program (v : Version) (numPreds : ℕ) (x : TablesImage) :
    (x.program getFunctionPointer v numPreds).fixed =
      (v, x.nodes.length, entries x.types, x.ruleStrings.length) := by
  rw [program, foldl_keeps Program.fixed fun _ _ => by rfl]
  simp [Program.fixed, Program.create]

/-- There is nothing yet of the predicates. -/
theorem unset_program (v : Version) (numPreds : ℕ) (x : TablesImage) :
    (x.program getFunctionPointer v numPreds).predicates = [] ∧
      (x.program getFunctionPointer v numPreds).code = [] ∧
        (x.program getFunctionPointer v numPreds).codeSize = [] :=
   ⟨foldl_keeps Program.predicates (fun _ _ => by rfl) _ _,
    foldl_keeps Program.code (fun _ _ => by rfl) _ _,
    foldl_keeps Program.codeSize (fun _ _ => by rfl) _ _⟩

variable (v : Version) (numPreds : ℕ) (predicates : List PredicateImage) (x : TablesImage)

theorem fixed_declare : (x.declare getFunctionPointer v numPreds predicates).fixed =
    (v, x.nodes.length, entries x.types, x.ruleStrings.length) :=
  (Program.fixed_addPredicates _ _).trans (x.fixed_program ..)

theorem length_predicates_declare :
    (x.declare getFunctionPointer v numPreds predicates).predicates.length =
      predicates.length := by
  rw [declare, Program.cachePredicates, List.length_map, Program.length_addPredicates,
    (x.unset_program ..).1, List.length_nil, Nat.zero_add]

theorem codes_declare : ((x.declare getFunctionPointer v numPreds predicates).code,
    (x.declare getFunctionPointer v numPreds predicates).codeSize) =
      ([], predicates.map PredicateImage.codeSize) := by
  obtain ⟨-, hcode, hsize⟩ := x.unset_program getFunctionPointer v numPreds
  refine Prod.ext ((Program.code_addPredicates _ _).trans hcode) ?_
  refine (Program.codeSize_addPredicates _ _).trans ?_
  rw [hsize, List.nil_append]

/-- With the global information. -/
theorem apply_declare (g : GlobalImage) :
    let P := g.apply (x.declare getFunctionPointer v numPreds predicates)
    P.fixed = (v, x.nodes.length, entries x.types, x.ruleStrings.length) ∧
      P.predicates.length = predicates.length ∧ P.code = [] ∧
        P.codeSize = predicates.map PredicateImage.codeSize := by
  have hcodes := (Program.codes_apply _ g).trans
    (codes_declare getFunctionPointer v numPreds predicates x)
  exact ⟨(Program.fixed_apply _ g).trans (fixed_declare ..),
    (congrArg List.length (Program.predicates_apply _ g)).trans (length_predicates_declare ..),
    congrArg Prod.fst hcodes, congrArg Prod.snd hcodes⟩

end TablesImage

/-- What the sections of the loader find in the program that is built so far. -/
theorem Image.states (x : Image) :
    let P := x.tables.program getFunctionPointer x.version x.predicates.length
    let Q := x.tables.declare getFunctionPointer x.version x.predicates.length x.predicates
    let R := x.globalInfo.apply Q
    let S := (x.codes.map CodeImage.predicateValue).foldl Program.addCode R
    P.types.length = x.tables.types.length ∧ P.version = x.version ∧ Q.version = x.version ∧
      R.codeSize = x.predicates.map PredicateImage.codeSize ∧
        R.numNodes = x.tables.nodes.length ∧ S.numNodes = x.tables.nodes.length ∧
          S.rules.length = x.tables.ruleStrings.length ∧
            S.predicates.length = x.predicates.length := by
  intro P Q R S
  obtain ⟨hversion, -, htypes, -⟩ := Program.fixed_eq (x.tables.fixed_program getFunctionPointer
    x.version x.predicates.length)
  obtain ⟨hversion', -⟩ := Program.fixed_eq (x.tables.fixed_declare getFunctionPointer x.version
    x.predicates.length x.predicates)
  obtain ⟨hfixed, hpreds, -, hsizes⟩ := x.tables.apply_declare getFunctionPointer x.version
    x.predicates.length x.predicates x.globalInfo
  obtain ⟨-, hnodes, -⟩ := Program.fixed_eq hfixed
  obtain ⟨-, hnodes', -, hrules⟩ := Program.fixed_eq ((R.fixed_addCodes _).trans hfixed)
  refine ⟨?_, hversion, hversion', hsizes, hnodes, hnodes', hrules, ?_⟩
  · rw [htypes, length_entries]
  · exact (congrArg List.length (R.predicates_addCodes _)).trans hpreds

/-- The loader and the format of its files. -/
theorem reads_load : Reads (load getFunctionPointer) Image.Fits Image.bytes
    (Image.program getFunctionPointer) := by
  refine (reads_readHeader.bind fun v hv => reads_readByte.bind fun numPreds hn =>
    (reads_readTables getFunctionPointer v numPreds).bind fun tables ht =>
    (reads_readPredicates _ _ numPreds
      (tables.unset_program getFunctionPointer v numPreds).1).bind fun preds hp =>
    (reads_readGlobalInfo _).bind fun g _ =>
    (reads_predicateCodes numPreds (TablesImage.apply_declare _ v numPreds preds tables g).2.2.1 ?_).bind fun codes _ =>
      reads_readRules _).via
    (fun x => ⟨x.1, x.2.2.1, x.2.2.2.1, x.2.2.2.2.1, x.2.2.2.2.2.1, x.2.2.2.2.2.2⟩)
    (fun x => ?_) ?_ ?_
  · rw [(TablesImage.apply_declare _ v numPreds preds tables g).2.2.2, List.length_map, hp.1]
  · constructor
    · intro h
      obtain ⟨htypes, hversion, hversion', hsizes, hnodes, hnodes', hrules, hpreds⟩ :=
        x.states getFunctionPointer
      refine ⟨(x.version, x.predicates.length, x.tables, x.predicates, x.globalInfo, x.codes,
        x.rules), ⟨h.version, h.numPreds, h.tables, ⟨rfl, ?_, h.remote⟩, ?_, ⟨?_, ?_⟩, ?_, ?_, ?_⟩,
        rfl⟩
      · rw [htypes, hversion]
        exact h.predicates
      · exact (congrArg (GlobalImage.Fits · x.globalInfo) hversion').mpr h.globalInfo
      · rw [hsizes]
        exact h.codeSizes
      · rw [hnodes]
        exact h.codes
      · rw [h.numRules]
        exact h.tables.2.2.2.2.2.1.1
      · rw [hrules]
        exact h.numRules
      · rw [hnodes', hpreds]
        exact h.rules
    · rintro ⟨⟨v, n, tables, preds, g, codes, rules⟩, ⟨hv, hn, ht, ⟨hlen, hp, hr⟩, hg, ⟨hs, hc⟩, -,
        hrn, hru⟩, rfl⟩
      obtain rfl : preds.length = n := hlen
      obtain ⟨htypes, hversion, hversion', hsizes, hnodes, hnodes', hrules, hpreds⟩ :=
        Image.states getFunctionPointer ⟨v, tables, preds, g, codes, rules⟩
      rw [htypes, hversion] at hp
      replace hg := (congrArg (GlobalImage.Fits · g) hversion').mp hg
      rw [hsizes] at hs
      rw [hnodes] at hc
      rw [hrules] at hrn
      rw [hnodes', hpreds] at hru
      exact ⟨hv, hn, ht, hp, hr, hg, hs, hc, hrn, hru⟩
  · rintro ⟨v, n, tables, preds, g, codes, rules⟩ ⟨-, -, -, ⟨hlen, -⟩, -⟩
    obtain rfl : preds.length = n := hlen
    have hversion := (Program.fixed_eq (tables.fixed_program getFunctionPointer v preds.length)).1
    simp only [Image.bytes, hversion]
  · rintro ⟨v, n, tables, preds, g, codes, rules⟩ ⟨-, -, -, ⟨hlen, -⟩, -⟩
    obtain rfl : preds.length = n := hlen
    rfl

/-- The loader, with its assertions checked, accepts exactly the files that begin with the bytes of
valid data, and builds the program of the data. -/
theorem load_iff (bs rest : List (BitVec 8)) (P : Program) :
    (load getFunctionPointer).run bs = .ok (P, rest) ↔
      ∃ x : Image, x.Fits ∧ x.bytes ++ rest = bs ∧ x.program getFunctionPointer = P :=
  reads_load getFunctionPointer bs P rest

end Load

/-! ## A small file -/

/-- Code that refers to node 0 at its front. -/
def CodeImage.small : CodeImage := ⟨toBytes 8 0, [0]⟩

/-- A file with one node, a linear and a persistent predicate, and one rule. -/
def Image.small : Image where
  version := ⟨0, 14⟩
  tables :=
    { nodes := [(0, 0)]
      types := [.node, .list 0]
      imports := []
      exports := []
      numArgs := 0
      ruleStrings := [text "p(A) -o q(A)."]
      defaultStrings := []
      constTypes := []
      const := .small
      functions := []
      externals := [] }
  predicates :=
    [⟨8, predLinear, 0, 0, 0, 0, [0, 1], List.replicate 32 0, List.replicate 32 0⟩,
      ⟨0, 0, 0, 0, 1, 0, [0], List.replicate 32 0, List.replicate 32 0⟩]
  globalInfo := .dataFile
  codes := [.small, ⟨[], []⟩]
  rules := [⟨.small, [0]⟩]

theorem CodeImage.small_fits : CodeImage.small.Fits 1 := by
  have hnode : pcounterNode CodeImage.small.code 0 < 1 := by decide
  refine ⟨by decide, by decide, fun place hplace => ?_⟩
  obtain rfl := List.mem_singleton.1 hplace
  exact ⟨by decide, by decide, hnode⟩

theorem Image.small_tables_fit : Image.small.tables.Fits := by
  have hempty {ι : Type} (fits : ι → Prop) : TableFits fits ([] : List ι) :=
    ⟨(by decide : 0 < 256 ^ 4), fun x hx => absurd hx List.not_mem_nil⟩
  have hnodes : TableFits NodeFits [(0, 0)] := by
    refine ⟨by decide, fun n hn => ?_⟩
    obtain rfl := List.mem_singleton.1 hn
    exact ⟨by decide, by decide⟩
  have htypes (n : ℕ) (t : TypeImage) (ht : [TypeImage.node, .list 0][n]? = some t) :
      t.Fits 2 n := by
    match n with
    | 0 =>
      obtain rfl := Option.some.inj ht
      trivial
    | 1 =>
      obtain rfl := Option.some.inj ht
      exact ⟨by decide, by decide⟩
    | n + 2 => cases ht
  have hstring : TableFits (fun s => 0 < s.length ∧ StringFits s) [text "p(A) -o q(A)."] := by
    refine ⟨by decide, fun s hs => ?_⟩
    obtain rfl := List.mem_singleton.1 hs
    exact ⟨by decide, Nat.lt_of_lt_of_le (by decide : _ < 32) (by decide)⟩
  have hconst : CodeImage.small.ConstFits := ⟨by decide, ⟨by decide, by decide⟩, by decide⟩
  exact ⟨hnodes, ⟨by decide, htypes⟩, hempty _, hempty _, by decide, hstring, hempty _, hempty _,
    hconst, hempty _, hempty _⟩

theorem Image.small_fits : Image.small.Fits where
  version := ⟨by decide, by decide, by decide, by decide⟩
  numPreds := by decide
  tables := Image.small_tables_fit
  predicates := by
    have hbuffer : BufferFits 32 (List.replicate 32 0) := ⟨by decide, by decide⟩
    have hbyte (c : Prop) [Decidable c] (hc : c) : ByteIfFits c 0 := by
      rw [ByteIfFits, if_pos hc]
      decide
    intro p hp
    rcases List.mem_pair.1 hp with rfl | rfl
    · exact ⟨by decide, by decide, hbyte _ (by decide), by decide, by decide, hbyte _ (by decide),
        by decide, hbuffer, by decide⟩
    · exact ⟨by decide, by decide, hbyte _ (by decide), by decide, by decide, hbyte _ (by decide),
        by decide, hbuffer, by decide⟩
  remote := by
    intro p hp info hinfo
    have hnone : p.aggInfo = none := by
      rcases List.mem_pair.1 hp with rfl | rfl <;> rfl
    rw [hnone] at hinfo
    cases hinfo
  globalInfo := trivial
  codeSizes := by decide
  codes := by
    intro c hc
    rcases List.mem_pair.1 hc with rfl | rfl
    · exact CodeImage.small_fits.2
    · exact ⟨by decide, fun place hplace => absurd hplace List.not_mem_nil⟩
  numRules := by decide
  rules := by
    intro r hr
    obtain rfl := List.mem_singleton.1 hr
    exact ⟨CodeImage.small_fits, by decide, by decide⟩

/-- A system on which no library has the function. -/
def noFunction (_ _ : List (BitVec 8)) : ℕ := 0

/-- The loader on the small file. -/
theorem run_load_small : (load noFunction).run (Image.small.bytes ++ []) =
    .ok (Image.small.program noFunction, []) :=
  (reads_load noFunction).run_bytes Image.small_fits []

end Meld.ByteCode
