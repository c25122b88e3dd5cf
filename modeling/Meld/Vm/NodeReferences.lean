import Meld.Lib.Patch
import Meld.Vm.ByteCodeRules
import Meld.Vm.NodeTables

/-!
# Node references

The code of a file refers to nodes by number.  For every node the loader keeps the places with its
number; when a thread creates the node, `fix_node_address` writes the address of the node there, and
when all nodes exist, `fix_const_references` does the same for the constant code.  The threads
create their nodes side by side, so that the writes come in any order.

* `Program.codeOf`, `Program.references`: the code, and the places with the nodes.
* `mem_references_program`: the places are those that the file lists.
* `Program.fixNodeAddress`, `Program.fixPlaces`, `Program.fixConstReferences`: the writes.
* `load_relocated`: after the writes, the places hold the addresses, and the rest of the code is as
  it was.
* `readDatabase`, `load_database`: the database is made of the same file, and each of its nodes has
  a list of places.
-/

namespace Meld.ByteCode

open Bytes Format

/-! ## The places -/

namespace Program

variable (P : Program)

/-- The code that a reference is in. -/
def codeOf : CodeId → Option (List (BitVec 8))
  | .function i => P.functions[i]?
  | .predicate i => P.code[i]?.join
  | .rule i => P.rules[i]?.bind Rule.code

/-- The places of all nodes, with the nodes. -/
def references : List (ℕ × Place) :=
  P.nodeReferences.zipIdx.flatMap fun e => e.1.map fun place => (e.2, place)

theorem mem_references {r : ℕ × Place} :
    r ∈ P.references ↔ ∃ places, P.nodeReferences[r.1]? = some places ∧ r.2 ∈ places := by
  rw [references, List.mem_flatMap]
  constructor
  · rintro ⟨⟨places, n⟩, he, hr⟩
    obtain ⟨place, hplace, rfl⟩ := List.mem_map.1 hr
    exact ⟨places, List.mk_mem_zipIdx_iff_getElem?.1 he, hplace⟩
  · rintro ⟨places, hplaces, hr⟩
    exact ⟨(places, r.1), List.mk_mem_zipIdx_iff_getElem?.2 hplaces,
      List.mem_map.2 ⟨r.2, hr, rfl⟩⟩

/-- References that are put behind those that are there. -/
def pushAll (table : List (List Place)) (refs : List (ℕ × Place)) : List (List Place) :=
  refs.foldl (fun table r => table.modify r.1 (· ++ [r.2])) table

theorem pushAll_append (table : List (List Place)) (refs refs' : List (ℕ × Place)) :
    pushAll table (refs ++ refs') = pushAll (pushAll table refs) refs' :=
  List.foldl_append

theorem length_pushAll (table : List (List Place)) (refs : List (ℕ × Place)) :
    (pushAll table refs).length = table.length :=
  foldl_keeps List.length (fun _ _ => List.length_modify ..) _ _

theorem getElem?_pushAll (table : List (List Place)) (refs : List (ℕ × Place)) (n : ℕ) :
    (pushAll table refs)[n]? =
      table[n]?.map (· ++ (refs.filter fun r => r.1 = n).map Prod.snd) := by
  induction refs generalizing table with
  | nil => simp [pushAll]
  | cons r refs ih =>
    rw [pushAll, List.foldl_cons, ← pushAll, ih, List.getElem?_modify]
    by_cases hr : r.1 = n
    · rw [List.filter_cons_of_pos (by simpa using hr)]
      cases table[n]? <;> simp [hr]
    · rw [List.filter_cons_of_neg (by simpa using hr)]
      cases table[n]? <;> simp [hr]

/-- Code and the nodes that it refers to, as references. -/
def placed (id : CodeId) (refs : List (ℕ × ℕ)) : List (ℕ × Place) :=
  refs.map fun r => (r.1, ⟨id, r.2⟩)

theorem nodeReferences_pushReferences (id : CodeId) (refs : List (ℕ × ℕ)) :
    (P.pushReferences id refs).nodeReferences = pushAll P.nodeReferences (placed id refs) := by
  rw [pushReferences, pushAll, placed, List.foldl_map]

variable {P} {ι : Type}

/-- A loop whose steps push references. -/
theorem nodeReferences_foldl (next : Program → ι → Program) (refs : ι → List (ℕ × Place))
    (hnext : ∀ P x, (next P x).nodeReferences = pushAll P.nodeReferences (refs x)) (P : Program)
    (xs : List ι) :
    (xs.foldl next P).nodeReferences = pushAll P.nodeReferences (xs.flatMap refs) := by
  induction xs generalizing P with
  | nil => rfl
  | cons x xs ih => rw [List.foldl_cons, ih, hnext, List.flatMap_cons, pushAll_append]

/-- A loop that counts its steps. -/
theorem nodeReferences_foldl_index (next : Program → ι → Program) (index : Program → ℕ)
    (refs : ι → ℕ → List (ℕ × Place))
    (hnext : ∀ P x, (next P x).nodeReferences = pushAll P.nodeReferences (refs x (index P)))
    (hindex : ∀ P x, index (next P x) = index P + 1) (P : Program) (xs : List ι) :
    (xs.foldl next P).nodeReferences =
      pushAll P.nodeReferences ((xs.zipIdx (index P)).flatMap fun e => refs e.1 e.2) := by
  induction xs generalizing P with
  | nil => rfl
  | cons x xs ih =>
    rw [List.foldl_cons, ih, hnext, hindex, List.zipIdx_cons, List.flatMap_cons, pushAll_append]

end Program

/-- The references of a piece of code. -/
def CodeImage.references (id : CodeId) (c : CodeImage) : List (ℕ × Place) :=
  Program.placed id (nodesAt c.code c.places)

/-- All references of a file, in the order of the file. -/
def Image.references (x : Image) : List (ℕ × Place) :=
  (x.tables.functions.zipIdx.flatMap fun c => c.1.references (.function c.2)) ++
    (x.codes.zipIdx.flatMap fun c => c.1.references (.predicate c.2)) ++
    x.rules.zipIdx.flatMap fun r => r.1.code.references (.rule r.2)

section Loaded

variable (getFunctionPointer : List (BitVec 8) → List (BitVec 8) → ℕ) {x : Image}

theorem TablesImage.nodeReferences_program (v : Version) (numPreds : ℕ) (x : TablesImage) :
    (x.program getFunctionPointer v numPreds).nodeReferences =
      Program.pushAll (List.replicate x.nodes.length [])
        (x.functions.zipIdx.flatMap fun c => c.1.references (.function c.2)) := by
  rw [program, List.foldl_map]
  refine Program.nodeReferences_foldl_index (fun P (c : CodeImage) => P.addFunction c.value)
    (fun P => P.functions.length) (fun c i => c.references (.function i)) (fun P c => ?_)
    (fun P c => ?_) _ _
  · exact Program.nodeReferences_pushReferences ..
  · exact List.length_append

/-- The tables and the global information. -/
theorem Image.nodeReferences_declare (x : Image) :
    (x.globalInfo.apply (x.tables.declare getFunctionPointer x.version x.predicates.length
      x.predicates)).nodeReferences =
      Program.pushAll (List.replicate x.tables.nodes.length [])
        (x.tables.functions.zipIdx.flatMap fun c => c.1.references (.function c.2)) := by
  have hglobal (P : Program) (g : GlobalImage) : (g.apply P).nodeReferences = P.nodeReferences := by
    cases g <;> rfl
  rw [hglobal, ← TablesImage.nodeReferences_program getFunctionPointer x.version
    x.predicates.length]
  exact foldl_keeps Program.nodeReferences (fun _ _ => by rfl) _ x.predicates

theorem CodeImage.predicateValue_references {c : CodeImage} {numNodes : ℕ}
    (hc : c.PlacesFit numNodes) (i : ℕ) :
    Program.placed (.predicate i) ((c.predicateValue.map Prod.snd).getD []) =
      c.references (.predicate i) := by
  rw [predicateValue]
  split
  · next hcode => rw [references, hc.places_eq_nil hcode]; rfl
  · rfl

/-- The code of the predicates. -/
theorem Image.nodeReferences_unruled (hx : x.Fits) :
    (x.unruled getFunctionPointer).nodeReferences =
      Program.pushAll (x.globalInfo.apply (x.tables.declare getFunctionPointer x.version
        x.predicates.length x.predicates)).nodeReferences
        (x.codes.zipIdx.flatMap fun c => c.1.references (.predicate c.2)) := by
  have hcode := (x.tables.apply_declare getFunctionPointer x.version x.predicates.length
    x.predicates x.globalInfo).2.2.1
  rw [unruled, List.foldl_map]
  refine (Program.nodeReferences_foldl_index
    (fun P (c : CodeImage) => P.addCode c.predicateValue) (fun P => P.code.length)
    (fun c i => Program.placed (.predicate i) ((c.predicateValue.map Prod.snd).getD []))
    (fun P c => ?_) (fun P c => ?_) _ _).trans ?_
  · exact Program.nodeReferences_pushReferences ..
  · exact List.length_append
  · rw [hcode, List.length_nil]
    refine congrArg _ (List.flatMap_congr fun c hc => ?_)
    exact CodeImage.predicateValue_references (hx.codes c.1 (List.fst_mem_of_mem_zipIdx hc)) c.2

/-- The code of the rules. -/
theorem Image.nodeReferences_setRules (P : Program) (rules : List RuleImage) :
    (P.setRules rules).nodeReferences = Program.pushAll P.nodeReferences
      (rules.zipIdx.flatMap fun r => r.1.code.references (.rule r.2)) := by
  rw [Program.setRules, List.zipIdx_map, List.foldl_map]
  refine Program.nodeReferences_foldl
    (fun P (r : RuleImage × ℕ) => P.setRule r.2 r.1.value.1 r.1.value.2)
    (fun r => r.1.code.references (.rule r.2)) (fun P r => ?_) _ _
  refine (foldl_keeps Program.nodeReferences (fun _ _ => by rfl) _ _).trans ?_
  exact Program.nodeReferences_pushReferences ..

/-- Every reference of the file is put into the list of its node. -/
theorem Image.nodeReferences_program (hx : x.Fits) :
    (x.program getFunctionPointer).nodeReferences =
      Program.pushAll (List.replicate x.tables.nodes.length []) x.references := by
  rw [references, Program.pushAll_append, Program.pushAll_append,
    ← x.nodeReferences_declare getFunctionPointer, ← nodeReferences_unruled getFunctionPointer hx]
  exact nodeReferences_setRules _ x.rules

/-- The code of an image. -/
def Image.codeAt (x : Image) : CodeId → Option CodeImage
  | .function i => x.tables.functions[i]?
  | .predicate i => x.codes[i]?
  | .rule i => x.rules[i]?.map RuleImage.code

/-- The references of a table of codes. -/
theorem mem_flatMap_references {cs : List CodeImage} {id : ℕ → CodeId} {r : ℕ × Place} :
    (r ∈ cs.zipIdx.flatMap fun c => c.1.references (id c.2)) ↔
      ∃ i c, cs[i]? = some c ∧ r.2.code = id i ∧ r.2.offset ∈ c.places ∧
        r.1 = pcounterNode c.code r.2.offset := by
  rw [List.mem_flatMap]
  constructor
  · rintro ⟨⟨c, i⟩, hc, hr⟩
    rw [CodeImage.references, Program.placed, nodesAt, List.map_map] at hr
    obtain ⟨place, hplace, rfl⟩ := List.mem_map.1 hr
    exact ⟨i, c, List.mk_mem_zipIdx_iff_getElem?.1 hc, rfl, hplace, rfl⟩
  · rintro ⟨i, c, hc, hid, hplace, hnode⟩
    refine ⟨(c, i), List.mk_mem_zipIdx_iff_getElem?.2 hc, ?_⟩
    rw [CodeImage.references, Program.placed, nodesAt, List.map_map]
    exact List.mem_map.2 ⟨r.2.offset, hplace, Prod.ext hnode.symm
      ((Place.mk.injEq ..).mpr ⟨hid.symm, rfl⟩)⟩

/-- The references are the places that the file lists, with the nodes that stand there. -/
theorem Image.mem_references {r : ℕ × Place} :
    r ∈ x.references ↔ ∃ c, x.codeAt r.2.code = some c ∧ r.2.offset ∈ c.places ∧
      r.1 = pcounterNode c.code r.2.offset := by
  have hrules : (x.rules.zipIdx.flatMap fun r => r.1.code.references (.rule r.2)) =
      (x.rules.map RuleImage.code).zipIdx.flatMap fun c => c.1.references (.rule c.2) := by
    rw [List.zipIdx_map, List.flatMap_map]
    rfl
  rw [references, hrules, List.mem_append, List.mem_append, mem_flatMap_references,
    mem_flatMap_references, mem_flatMap_references]
  constructor
  · rintro ((⟨i, c, hc, hid, h⟩ | ⟨i, c, hc, hid, h⟩) | ⟨i, c, hc, hid, h⟩)
    · exact ⟨c, by rw [hid]; exact hc, h⟩
    · exact ⟨c, by rw [hid]; exact hc, h⟩
    · exact ⟨c, by rw [hid, codeAt, ← List.getElem?_map]; exact hc, h⟩
  · rintro ⟨c, hc, h⟩
    match hid : r.2.code with
    | .function i => exact Or.inl (Or.inl ⟨i, c, by rw [hid] at hc; exact hc, rfl, h⟩)
    | .predicate i => exact Or.inl (Or.inr ⟨i, c, by rw [hid] at hc; exact hc, rfl, h⟩)
    | .rule i =>
      refine Or.inr ⟨i, c, ?_, rfl, h⟩
      rw [hid, codeAt, ← List.getElem?_map] at hc
      exact hc

/-- All places of valid code are in it and hold numbers of nodes. -/
theorem Image.placesFit_codeAt (hx : x.Fits) {id : CodeId} {c : CodeImage}
    (hc : x.codeAt id = some c) : c.PlacesFit x.tables.nodes.length := by
  match id with
  | .function i =>
    obtain ⟨-, -, -, -, -, -, -, -, -, hfuns, -⟩ := hx.tables
    exact (hfuns.2 c (List.mem_of_getElem? hc)).2
  | .predicate i => exact hx.codes c (List.mem_of_getElem? hc)
  | .rule i =>
    obtain ⟨r, hr, rfl⟩ := Option.map_eq_some_iff.1 hc
    exact (hx.rules r (List.mem_of_getElem? hr)).1.2

/-- The places that the file lists are those in the table of the loaded program. -/
theorem Image.mem_references_program (hx : x.Fits) {r : ℕ × Place} :
    r ∈ (x.program getFunctionPointer).references ↔ r ∈ x.references := by
  rw [Program.mem_references, nodeReferences_program getFunctionPointer hx,
    Program.getElem?_pushAll, List.getElem?_replicate]
  have hnode : r ∈ x.references → r.1 < x.tables.nodes.length := by
    intro hr
    obtain ⟨c, hc, hplace, hnode⟩ := x.mem_references.1 hr
    rw [hnode]
    exact ((placesFit_codeAt hx hc).2 _ hplace).2.2
  constructor
  · rintro ⟨places, hplaces, hr⟩
    obtain ⟨old, hold, rfl⟩ := Option.map_eq_some_iff.1 hplaces
    obtain rfl : [] = old := by
      split at hold
      · exact Option.some.inj hold
      · cases hold
    rw [List.nil_append] at hr
    obtain ⟨r', hr', hplace⟩ := List.mem_map.1 hr
    obtain ⟨hmem, hn⟩ := List.mem_filter.1 hr'
    obtain rfl : r' = r := Prod.ext (of_decide_eq_true hn) hplace
    exact hmem
  · intro hr
    refine ⟨_, by rw [if_pos (hnode hr)]; rfl, List.mem_append_right _ ?_⟩
    exact List.mem_map.2 ⟨r, List.mem_filter.2 ⟨hr, decide_eq_true rfl⟩, rfl⟩

/-- The functions of the loaded program. -/
theorem Image.functions_program (x : Image) :
    (x.program getFunctionPointer).functions = x.tables.functions.map CodeImage.code := by
  have hadd (P : Program) (cs : List CodeImage) :
      ((cs.map CodeImage.value).foldl Program.addFunction P).functions =
        P.functions ++ cs.map CodeImage.code := by
    induction cs generalizing P with
    | nil => exact (List.append_nil _).symm
    | cons c cs ih =>
      rw [List.map_cons, List.foldl_cons, ih, Program.addFunction, Program.pushReferences,
        List.append_assoc]
      rfl
  have hglobal (P : Program) (g : GlobalImage) : (g.apply P).functions = P.functions := by
    cases g <;> rfl
  have hrule (P : Program) (r : ((List (BitVec 8) × List (ℕ × ℕ)) × List ℕ) × ℕ) :
      (P.setRule r.2 r.1.1 r.1.2).functions = P.functions :=
    foldl_keeps Program.functions (fun _ _ => by rfl) _ _
  have hpreds : (x.tables.declare getFunctionPointer x.version x.predicates.length
      x.predicates).functions = x.tables.functions.map CodeImage.code :=
    (foldl_keeps Program.functions (fun _ _ => by rfl) _ x.predicates).trans (hadd _ _)
  calc (x.program getFunctionPointer).functions
      = (x.unruled getFunctionPointer).functions := foldl_keeps Program.functions hrule _ _
    _ = _ := foldl_keeps Program.functions (fun _ _ => by rfl) _ _
    _ = _ := hglobal _ _
    _ = x.tables.functions.map CodeImage.code := hpreds

/-- The code of the predicates of the loaded program. -/
theorem Image.code_program (x : Image) :
    (x.program getFunctionPointer).code =
      x.codes.map fun c => c.predicateValue.map Prod.fst := by
  have hadd (P : Program) (cs : List CodeImage) :
      ((cs.map CodeImage.predicateValue).foldl Program.addCode P).code =
        P.code ++ cs.map fun c => c.predicateValue.map Prod.fst := by
    induction cs generalizing P with
    | nil => exact (List.append_nil _).symm
    | cons c cs ih =>
      rw [List.map_cons, List.foldl_cons, ih, Program.addCode, Program.pushReferences,
        List.append_assoc]
      rfl
  have hrule (P : Program) (r : ((List (BitVec 8) × List (ℕ × ℕ)) × List ℕ) × ℕ) :
      (P.setRule r.2 r.1.1 r.1.2).code = P.code :=
    foldl_keeps Program.code (fun _ _ => by rfl) _ _
  have hcode := (x.tables.apply_declare getFunctionPointer x.version x.predicates.length
    x.predicates x.globalInfo).2.2.1
  calc (x.program getFunctionPointer).code
      = (x.unruled getFunctionPointer).code := foldl_keeps Program.code hrule _ _
    _ = [] ++ x.codes.map fun c => c.predicateValue.map Prod.fst := by
        rw [unruled, hadd, hcode]

/-- The code of the loaded program is that of the file.  Only a predicate without code has none. -/
theorem Image.codeOf_program (hx : x.Fits) {id : CodeId} {c : CodeImage}
    (hc : x.codeAt id = some c) (hne : c.code ≠ []) :
    (x.program getFunctionPointer).codeOf id = some c.code := by
  match id with
  | .function i =>
    have hfun : x.tables.functions[i]? = some c := hc
    rw [Program.codeOf, functions_program, List.getElem?_map, hfun]
    rfl
  | .predicate i =>
    have hcode : x.codes[i]? = some c := hc
    rw [Program.codeOf, code_program, List.getElem?_map, hcode, Option.map_some,
      CodeImage.predicateValue, if_neg hne]
    rfl
  | .rule i =>
    obtain ⟨r, hr, rfl⟩ := Option.map_eq_some_iff.1 hc
    rw [Program.codeOf, getElem?_rules getFunctionPointer hx, hr]
    rfl

end Loaded

/-! ## The addresses -/

/-- `pcounter_set_node`. -/
def pcounterSetNode (code : List (BitVec 8)) (place node : ℕ) : List (BitVec 8) :=
  writeAt code place (toBytes 8 node)

namespace Program

/-- The code of `id` is changed by `f`. -/
def modifyCode (P : Program) (id : CodeId) (f : List (BitVec 8) → List (BitVec 8)) : Program :=
  match id with
  | .function i => { P with functions := P.functions.modify i f }
  | .predicate i => { P with code := P.code.modify i (Option.map f) }
  | .rule i =>
    { P with rules := P.rules.modify i fun rule => { rule with code := rule.code.map f } }

theorem codeOf_modifyCode (P : Program) (id id' : CodeId)
    (f : List (BitVec 8) → List (BitVec 8)) :
    (P.modifyCode id f).codeOf id' =
      if id = id' then (P.codeOf id').map f else P.codeOf id' := by
  cases id with
  | function i =>
    cases id' with
    | function j =>
      rw [modifyCode, codeOf, codeOf, List.getElem?_modify]
      by_cases hij : i = j
      · simp [hij]
      · simp [hij]
    | predicate j => simp [modifyCode, codeOf]
    | rule j => simp [modifyCode, codeOf]
  | predicate i =>
    cases id' with
    | function j => simp [modifyCode, codeOf]
    | predicate j =>
      rw [modifyCode, codeOf, codeOf, List.getElem?_modify]
      by_cases hij : i = j
      · cases P.code[j]? <;> simp [hij]
      · simp [hij]
    | rule j => simp [modifyCode, codeOf]
  | rule i =>
    cases id' with
    | function j => simp [modifyCode, codeOf]
    | predicate j => simp [modifyCode, codeOf]
    | rule j =>
      rw [modifyCode, codeOf, codeOf, List.getElem?_modify]
      by_cases hij : i = j
      · cases P.rules[j]? <;> simp [hij]
      · simp [hij]

/-- The address of a node is written at a place of it. -/
def fixPlace (address : ℕ → ℕ) (P : Program) (r : ℕ × Place) : Program :=
  P.modifyCode r.2.code fun code => pcounterSetNode code r.2.offset (address r.1)

/-- `fix_node_address`: the address of node `n` is written at all its places. -/
def fixNodeAddress (address : ℕ → ℕ) (P : Program) (n : ℕ) : Program :=
  (P.nodeReferences.getD n []).foldl (fun P place => P.fixPlace address (n, place)) P

/-- The writes of `order`, one after the other. -/
def fixPlaces (address : ℕ → ℕ) (order : List (ℕ × Place)) (P : Program) : Program :=
  order.foldl (fixPlace address) P

/-- The writes to the code `id`. -/
def writesTo (address : ℕ → ℕ) (id : CodeId) (order : List (ℕ × Place)) :
    List (ℕ × List (BitVec 8)) :=
  (order.filter fun r => r.2.code = id).map fun r => (r.2.offset, toBytes 8 (address r.1))

theorem codeOf_fixPlaces (address : ℕ → ℕ) (order : List (ℕ × Place)) (P : Program) (id : CodeId) :
    (P.fixPlaces address order).codeOf id =
      (P.codeOf id).map (patch · (writesTo address id order)) := by
  induction order generalizing P with
  | nil => exact (id_map _).symm
  | cons r order ih =>
    rw [fixPlaces, List.foldl_cons, ← fixPlaces, ih, fixPlace, codeOf_modifyCode, writesTo,
      writesTo]
    by_cases hr : r.2.code = id
    · rw [if_pos hr, List.filter_cons_of_pos (by simpa using hr), List.map_cons, Option.map_map]
      rfl
    · rw [if_neg hr, List.filter_cons_of_neg (by simpa using hr)]

/-- The places stay in their lists. -/
theorem nodeReferences_fixPlace (address : ℕ → ℕ) (P : Program) (r : ℕ × Place) :
    (P.fixPlace address r).nodeReferences = P.nodeReferences := by
  obtain ⟨n, ⟨id, place⟩⟩ := r
  cases id <;> rfl

/-- The nodes one after the other are one order of the writes. -/
theorem foldl_fixNodeAddress (address : ℕ → ℕ) (P : Program) (nodes : List ℕ) :
    nodes.foldl (fixNodeAddress address) P =
      P.fixPlaces address
        (nodes.flatMap fun n => (P.nodeReferences.getD n []).map fun place => (n, place)) := by
  induction nodes generalizing P with
  | nil => rfl
  | cons n nodes ih =>
    have hkeep : (P.fixNodeAddress address n).nodeReferences = P.nodeReferences :=
      foldl_keeps nodeReferences (fun P place => P.nodeReferences_fixPlace address (n, place)) P _
    rw [List.foldl_cons, ih, hkeep, List.flatMap_cons, fixPlaces, fixPlaces, List.foldl_append,
      List.foldl_map]
    rfl

/-- If each node is created once, each place is written once. -/
theorem perm_references {P : Program} {nodes : List ℕ}
    (h : nodes.Perm (List.range P.nodeReferences.length)) :
    (nodes.flatMap fun n => (P.nodeReferences.getD n []).map fun place => (n, place)).Perm
      P.references := by
  have hzip : P.nodeReferences.zipIdx = (List.range P.nodeReferences.length).map fun n =>
      (P.nodeReferences.getD n [], n) := by
    refine List.ext_getElem (by simp) fun n hn _ => ?_
    rw [List.length_zipIdx] at hn
    simp [List.getD_eq_getElem?_getD, hn]
  refine (h.flatMap_right _).trans (List.Perm.of_eq ?_)
  rw [references, hzip, List.flatMap_map]

end Program

/-! ## Code with addresses -/

/-- The node reference at `place` overlaps no other one. -/
def CodeImage.Isolated (c : CodeImage) (place : ℕ) : Prop :=
  ∀ other ∈ c.places, other = place ∨ other + 8 ≤ place ∨ place + 8 ≤ other

/-- `code` is the code of an image, with addresses for the numbers of the nodes. -/
structure Relocated (address : ℕ → ℕ) (c : CodeImage) (code : List (BitVec 8)) : Prop where
  length_eq : code.length = c.code.length
  /-- A place that overlaps no other one holds the address of the node whose number was there. -/
  places : ∀ place ∈ c.places, c.Isolated place →
    pcounterNode code place = address (pcounterNode c.code place)
  /-- The rest of the code is not changed. -/
  others : ∀ k, (∀ place ∈ c.places, k < place ∨ place + 8 ≤ k) → code[k]? = c.code[k]?

/-- The writes at the places of some code, in any order. -/
theorem relocated_patch {address : ℕ → ℕ} (haddress : ∀ n, address n < 256 ^ 8) {c : CodeImage}
    (hplaces : ∀ place ∈ c.places, place + 8 ≤ c.code.length) {ws : List (ℕ × List (BitVec 8))}
    (hws : ∀ w, w ∈ ws ↔
      ∃ place ∈ c.places, w = (place, toBytes 8 (address (pcounterNode c.code place)))) :
    Relocated address c (patch c.code ws) := by
  have hin : ∀ w ∈ ws, InRange c.code w := by
    intro w hw
    obtain ⟨place, hplace, rfl⟩ := (hws w).1 hw
    rw [InRange, length_toBytes]
    exact hplaces place hplace
  refine ⟨length_patch hin, fun place hplace hiso => ?_, fun k hk => ?_⟩
  · have hmem := (hws _).2 ⟨place, hplace, rfl⟩
    have hread := readAt_patch hin hmem fun v hv => ?_
    · rw [length_toBytes] at hread
      rw [pcounterNode, hread, ofBytes_toBytes (haddress _)]
    · obtain ⟨other, hother, rfl⟩ := (hws v).1 hv
      rcases hiso other hother with rfl | h | h
      · exact Or.inl rfl
      · exact Or.inr (Or.inr (by rw [length_toBytes]; exact h))
      · exact Or.inr (Or.inl (by rw [length_toBytes]; exact h))
  · refine getElem?_patch hin fun w hw => ?_
    obtain ⟨place, hplace, rfl⟩ := (hws w).1 hw
    rw [Outside, length_toBytes]
    exact hk place hplace

/-- The constant code with its references. -/
def Program.const (P : Program) : List (BitVec 8) × List (ℕ × ℕ) :=
  (P.constCode, P.constNodeReferences)

/-- `fix_const_references`. -/
def Program.fixConstReferences (address : ℕ → ℕ) (P : Program) : Program :=
  { P with
    constCode := P.constNodeReferences.foldl
      (fun code r => pcounterSetNode code r.2 (address r.1)) P.constCode
    constNodeReferences := [] }

section Loaded

variable (getFunctionPointer : List (BitVec 8) → List (BitVec 8) → ℕ) {x : Image}

/-- The writes to the code of a loaded program. -/
theorem Image.relocated_codeOf (hx : x.Fits) {address : ℕ → ℕ}
    (haddress : ∀ n, address n < 256 ^ 8) {order : List (ℕ × Place)}
    (horder : order.Perm (x.program getFunctionPointer).references) {id : CodeId} {c : CodeImage}
    (hc : x.codeAt id = some c) (hne : c.code ≠ []) :
    ∃ code, ((x.program getFunctionPointer).fixPlaces address order).codeOf id = some code ∧
      Relocated address c code := by
  refine ⟨_, by rw [Program.codeOf_fixPlaces, codeOf_program getFunctionPointer hx hc hne]; rfl,
    relocated_patch haddress (fun place hplace =>
      ((placesFit_codeAt hx hc).2 place hplace).2.1) fun w => ?_⟩
  have hmem (r : ℕ × Place) : r ∈ order ↔ r ∈ x.references :=
    horder.mem_iff.trans (mem_references_program getFunctionPointer hx)
  constructor
  · intro hw
    obtain ⟨r, hr, rfl⟩ := List.mem_map.1 hw
    obtain ⟨hr', hid⟩ := List.mem_filter.1 hr
    obtain rfl := of_decide_eq_true hid
    obtain ⟨c', hc', hplace, hnode⟩ := x.mem_references.1 ((hmem r).1 hr')
    obtain rfl : c = c' := Option.some.inj (hc.symm.trans hc')
    exact ⟨r.2.offset, hplace, by rw [hnode]⟩
  · rintro ⟨place, hplace, rfl⟩
    have hr := (hmem (pcounterNode c.code place, ⟨id, place⟩)).2
      (x.mem_references.2 ⟨c, hc, hplace, rfl⟩)
    exact List.mem_map.2 ⟨_, List.mem_filter.2 ⟨hr, decide_eq_true rfl⟩, rfl⟩

/-- The threads may create the nodes in any order. -/
theorem Image.relocated_fixNodeAddress (hx : x.Fits) {address : ℕ → ℕ}
    (haddress : ∀ n, address n < 256 ^ 8) {nodes : List ℕ}
    (hnodes : nodes.Perm (List.range x.tables.nodes.length)) {id : CodeId} {c : CodeImage}
    (hc : x.codeAt id = some c) (hne : c.code ≠ []) :
    ∃ code, (nodes.foldl (Program.fixNodeAddress address) (x.program getFunctionPointer)).codeOf id =
      some code ∧ Relocated address c code := by
  have hlen : (x.program getFunctionPointer).nodeReferences.length = x.tables.nodes.length := by
    rw [nodeReferences_program getFunctionPointer hx, Program.length_pushAll, List.length_replicate]
  rw [Program.foldl_fixNodeAddress]
  exact relocated_codeOf getFunctionPointer hx haddress
    (Program.perm_references (by rw [hlen]; exact hnodes)) hc hne

/-- The constant code. -/
theorem Image.relocated_constCode (hx : x.Fits) {address : ℕ → ℕ}
    (haddress : ∀ n, address n < 256 ^ 8) {P : Program}
    (hP : P.const = x.tables.const.value) :
    Relocated address x.tables.const (P.fixConstReferences address).constCode := by
  obtain ⟨-, -, -, -, -, -, -, -, hconst, -⟩ := hx.tables
  have hpatch : (P.fixConstReferences address).constCode = patch x.tables.const.code
      (x.tables.const.places.map fun place =>
        (place, toBytes 8 (address (pcounterNode x.tables.const.code place)))) := by
    have hcode : P.constCode = x.tables.const.code := congrArg Prod.fst hP
    have hrefs : P.constNodeReferences = nodesAt x.tables.const.code x.tables.const.places :=
      congrArg Prod.snd hP
    rw [Program.fixConstReferences, hrefs, hcode, nodesAt, List.foldl_map, patch, List.foldl_map]
    rfl
  rw [hpatch]
  exact relocated_patch haddress hconst.2.2 fun w => by rw [List.mem_map]; simp [eq_comm]

/-- The writes at the places leave the constant code alone. -/
theorem Image.const_fixPlaces (x : Image) (address : ℕ → ℕ) (order : List (ℕ × Place)) :
    ((x.program getFunctionPointer).fixPlaces address order).const = x.tables.const.value := by
  have hplace (P : Program) (r : ℕ × Place) : (P.fixPlace address r).const = P.const := by
    obtain ⟨n, ⟨id, place⟩⟩ := r
    cases id <;> rfl
  have hrule (P : Program) (r : ((List (BitVec 8) × List (ℕ × ℕ)) × List ℕ) × ℕ) :
      (P.setRule r.2 r.1.1 r.1.2).const = P.const :=
    foldl_keeps Program.const (fun _ _ => by rfl) _ _
  have hglobal (P : Program) (g : GlobalImage) : (g.apply P).const = P.const := by
    cases g <;> rfl
  have htables : (x.tables.program getFunctionPointer x.version x.predicates.length).const =
      x.tables.const.value := foldl_keeps Program.const (fun _ _ => by rfl) _ _
  calc ((x.program getFunctionPointer).fixPlaces address order).const
      = (x.program getFunctionPointer).const := foldl_keeps Program.const hplace _ _
    _ = (x.unruled getFunctionPointer).const := foldl_keeps Program.const hrule _ _
    _ = _ := foldl_keeps Program.const (fun _ _ => by rfl) _ _
    _ = _ := hglobal _ _
    _ = _ := foldl_keeps Program.const (fun _ _ => by rfl) _ x.predicates
    _ = x.tables.const.value := htables

/-- A valid file, after the loader has read it and every thread has put the addresses of its nodes
into the code, in whatever order the writes come: each place that the file lists and that overlaps no
other one holds the address of the node whose number stood there, and what lies in no listed place is as
in the file.  The same holds of the constant code. -/
theorem load_relocated (hx : x.Fits) (rest : List (BitVec 8)) :
    ∃ P : Program, (load getFunctionPointer).run (x.bytes ++ rest) = .ok (P, rest) ∧
      P.nodeReferences.length = x.tables.nodes.length ∧
      ∀ (address : ℕ → ℕ) (order : List (ℕ × Place)), (∀ n, address n < 256 ^ 8) →
        order.Perm P.references →
          (∀ id c, x.codeAt id = some c → c.code ≠ [] →
            ∃ code, (P.fixPlaces address order).codeOf id = some code ∧ Relocated address c code) ∧
          Relocated address x.tables.const
            ((P.fixPlaces address order).fixConstReferences address).constCode := by
  refine ⟨x.program getFunctionPointer, (reads_load _).run_bytes hx rest, ?_,
    fun address order haddress horder => ⟨fun id c hc hne => ?_, ?_⟩⟩
  · rw [Image.nodeReferences_program getFunctionPointer hx]
    exact (Program.length_pushAll ..).trans List.length_replicate
  · exact Image.relocated_codeOf getFunctionPointer hx haddress horder hc hne
  · exact Image.relocated_constCode hx haddress (x.const_fixPlaces getFunctionPointer address order)

theorem load_relocated_small :
    ∃ P : Program, (load noFunction).run (Image.small.bytes ++ []) = .ok (P, []) ∧
      P.nodeReferences.length = Image.small.tables.nodes.length ∧
      ∀ (address : ℕ → ℕ) (order : List (ℕ × Place)), (∀ n, address n < 256 ^ 8) →
        order.Perm P.references →
          (∀ id c, Image.small.codeAt id = some c → c.code ≠ [] →
            ∃ code, (P.fixPlaces address order).codeOf id = some code ∧ Relocated address c code) ∧
          Relocated address Image.small.tables.const
            ((P.fixPlaces address order).fixConstReferences address).constCode :=
  load_relocated noFunction Image.small_fits []

end Loaded

/-! ## The nodes of the database -/

/-- `program::bypass_bytecode_header`: past the magic number, the version and the number of
predicates. -/
def bypassBytecodeHeader : CodeReader Unit := do
  skip 8
  skip (2 * 4)
  skip 1

/-- An entry of the table of nodes. -/
def readNodeIds : CodeReader (BitVec 64 × BitVec 64) := do
  let fakeId ← readWide
  let userId ← readWide
  pure (BitVec.ofNat 64 fakeId, BitVec.ofNat 64 userId)

/-- The machine opens the file again for the constructor of `database`.  There the number of nodes
is an `int` that becomes a `size_t`. -/
def readDatabase : CodeReader (List (BitVec 64 × BitVec 64)) := do
  bypassBytecodeHeader
  let numNodes ← readUint
  readMany readNodeIds ((BitVec.ofNat 32 numNodes).signExtend 64).toNat

/-- The entries of a table of nodes as the database has them. -/
def nodeIds (nodes : List (ℕ × ℕ)) : List (BitVec 64 × BitVec 64) :=
  nodes.map fun n => (BitVec.ofNat 64 n.1, BitVec.ofNat 64 n.2)

theorem reads_readNodeIds : Format.Reads readNodeIds NodeFits nodeBytes
    fun n => (BitVec.ofNat 64 n.1, BitVec.ofNat 64 n.2) := by
  refine (reads_readWide.bind fun fakeId _ => reads_readWide.map fun userId =>
    (BitVec.ofNat 64 fakeId, BitVec.ofNat 64 userId)).congr (fun n => ?_) (fun _ _ => rfl)
      fun _ _ => rfl
  rw [NodeFits]

/-- The header that is passed over. -/
theorem run_bypassBytecodeHeader (x : Image) (rest : List (BitVec 8)) :
    ∃ behind, bypassBytecodeHeader.run (x.bytes ++ rest) =
      .ok ((), tableBytes nodeBytes x.tables.nodes ++ behind) := by
  have hlen : (x.version.bytes ++ toBytes 1 x.predicates.length).length = 17 := by
    simp [Version.bytes]
  obtain ⟨behind, hbytes⟩ : ∃ behind, x.bytes ++ rest =
      (x.version.bytes ++ toBytes 1 x.predicates.length) ++
        (tableBytes nodeBytes x.tables.nodes ++ behind) := by
    simp only [Image.bytes, TablesImage.bytes, List.append_assoc]
    exact ⟨_, rfl⟩
  refine ⟨behind, ?_⟩
  show Except.ok ((), (((x.bytes ++ rest).drop 8).drop (2 * 4)).drop 1) = _
  rw [List.drop_drop, List.drop_drop, hbytes, List.drop_left' hlen]

/-- The nodes of a database are those that were read. -/
theorem isSome_nodes_read (pairs : List (BitVec 64 × BitVec 64)) (id : BitVec 64) :
    ((NodeDatabase.read pairs).nodes id).isSome = true ↔ id ∈ pairs.map Prod.fst := by
  induction pairs using List.reverseRecOn with
  | nil => simp [NodeDatabase.read]
  | append_singleton pairs p ih =>
    rw [NodeDatabase.read, List.foldl_append, List.foldl_cons, List.foldl_nil, ← NodeDatabase.read,
      NodeDatabase.readNode, List.map_append, List.mem_append, ← ih]
    by_cases hid : id = p.1
    · simp [hid]
    · simp [hid]

/-- An `int` that is not negative stays what it is as a `size_t`. -/
theorem toNat_signExtend_ofNat {k : ℕ} (hk : k < 2 ^ 31) :
    ((BitVec.ofNat 32 k).signExtend 64).toNat = k := by
  have hmsb : (BitVec.ofNat 32 k).msb = false := by
    rw [BitVec.msb_eq_decide, BitVec.toNat_ofNat, decide_eq_false_iff_not]
    omega
  rw [BitVec.signExtend_eq_setWidth_of_msb_false hmsb, BitVec.toNat_setWidth, BitVec.toNat_ofNat]
  omega

/-- The constructor of `database` reads the table of nodes. -/
theorem run_readDatabase {x : Image} (hx : x.Fits) (hnodes : x.tables.nodes.length < 2 ^ 31)
    (rest : List (BitVec 8)) :
    ∃ behind, readDatabase.run (x.bytes ++ rest) = .ok (nodeIds x.tables.nodes, behind) := by
  obtain ⟨behind, hheader⟩ := run_bypassBytecodeHeader x rest
  have hlen : x.tables.nodes.length < 256 ^ 4 := by omega
  have hcount := reads_readUint.run_bytes hlen (x.tables.nodes.flatMap nodeBytes ++ behind)
  have hpairs := (reads_readNodeIds.readMany x.tables.nodes.length).run_bytes
    ⟨rfl, hx.tables.1.2⟩ behind
  rw [tableBytes, List.append_assoc] at hheader
  refine ⟨behind, bind_run_eq_ok.2 ⟨(), _, hheader, bind_run_eq_ok.2 ⟨_, _, hcount, ?_⟩⟩⟩
  rw [id, toNat_signExtend_ofNat hnodes]
  exact hpairs

/-- **Two readers of one file**: the database that is made of a file which the loader has accepted
has the nodes of its table, as many as the loader has lists of places.  If the nodes are numbered
from zero, `fix_node_address` finds such a list for each of them. -/
theorem load_database (getFunctionPointer : List (BitVec 8) → List (BitVec 8) → ℕ) {x : Image}
    (hx : x.Fits) (hnodes : x.tables.nodes.length < 2 ^ 31)
    (hnum : Numbered (nodeIds x.tables.nodes)) (rest : List (BitVec 8)) :
    ∃ (P : Program) (behind : List (BitVec 8)),
      (load getFunctionPointer).run (x.bytes ++ rest) = .ok (P, rest) ∧
      readDatabase.run (x.bytes ++ rest) = .ok (nodeIds x.tables.nodes, behind) ∧
      ∀ id : BitVec 64, ((NodeDatabase.read (nodeIds x.tables.nodes)).nodes id).isSome = true ↔
        id.toNat < P.nodeReferences.length := by
  obtain ⟨behind, hread⟩ := run_readDatabase hx hnodes rest
  refine ⟨x.program getFunctionPointer, behind, (reads_load _).run_bytes hx rest, hread,
    fun id => ?_⟩
  rw [isSome_nodes_read, Image.nodeReferences_program getFunctionPointer hx,
    Program.length_pushAll, List.length_replicate]
  have hmem : id.toNat ∈ (nodeIds x.tables.nodes).map (fun p => p.1.toNat) ↔
      id.toNat < x.tables.nodes.length := by
    rw [hnum.mem_iff, List.mem_range, nodeIds, List.length_map]
  rw [← hmem, List.mem_map, List.mem_map]
  exact exists_congr fun p => and_congr_right fun _ => BitVec.toNat_inj.symm

theorem load_database_small :
    ∃ (P : Program) (behind : List (BitVec 8)),
      (load noFunction).run (Image.small.bytes ++ []) = .ok (P, []) ∧
      readDatabase.run (Image.small.bytes ++ []) =
        .ok (nodeIds Image.small.tables.nodes, behind) ∧
      ∀ id : BitVec 64,
        ((NodeDatabase.read (nodeIds Image.small.tables.nodes)).nodes id).isSome = true ↔
          id.toNat < P.nodeReferences.length :=
  load_database noFunction Image.small_fits (by decide) (List.Perm.refl [0]) []

end Meld.ByteCode
