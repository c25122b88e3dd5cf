import Meld.Vm.Instr
import Mathlib.Tactic.IntervalCases

/-!
# The three lengths of an instruction

`advance`, `execute` and the operand accessors each have their own idea of where an instruction
ends.  This module reads the operands of variable size (match patterns, axioms, argument registers,
tables) and compares the three.

* `operands`: every read an instruction's accessors make, or `none` where `execute` throws or
  asserts (an unknown match value, a type without literals, a list tag other than 0 and 1).
* `LengthsCoincide`: the three lengths are the same and the opcode of the next instruction is not
  one of the operand bytes.
* `WellEncoded`: the condition under which they are; three groups of instructions fail it.
* `lengthsCoincide_iff_wellEncoded`: the two are equivalent for every instruction and every operand
  encoding.
-/

namespace Meld
namespace Instr

variable (P : ProgramTypes) (code : Code)

/-! ## Operands of variable size -/

/-- Reads of the types in turn, each where the one before it ended. -/
def readSeq (read : FieldType → ℕ → Option (List Access)) :
    List FieldType → ℕ → Option (List Access)
  | [], _ => some []
  | t :: types, off => do
    let data ← read t off
    let rest ← readSeq read types (off + span data)
    return data ++ rest

/-- The reads of `axiom_read_data` for a value of type `t` at distance `off` from `pc`.  `fuel`
bounds the nesting of lists and structures. -/
def axiomReadData (pc : ℕ) : ℕ → FieldType → ℕ → Option (List Access)
  | 0, _, _ => none
  | _ + 1, .int, off => some [.int off]
  | _ + 1, .float, off => some [.float off]
  | _ + 1, .node, off => some [.node off]
  | fuel + 1, .list sub, off =>
    if byteGet code pc off = 0 then some [.byte off]
    else if byteGet code pc off = 1 then do
      let head ← axiomReadData pc fuel sub (off + 1)
      let tail ← axiomReadData pc fuel (.list sub) (off + 1 + span head)
      return .byte off :: head ++ tail
    else none
  | fuel + 1, .struct types, off =>
    readSeq (fun t pos => axiomReadData pc fuel t pos) types off
  | _ + 1, _, _ => none

/-- `num` axioms of one predicate, one after the other. -/
def axiomTuples (pc fuel : ℕ) (types : List FieldType) : ℕ → ℕ → Option (List Access)
  | 0, _ => some []
  | num + 1, off => do
    let tpl ← readSeq (axiomReadData code pc fuel) types off
    let rest ← axiomTuples pc fuel types num (off + span tpl)
    return tpl ++ rest

/-- `add_new_axioms`: groups of axioms are read while the position is below `stop`. -/
def addNewAxioms (pc fuel stop : ℕ) : ℕ → ℕ → Option (List Access)
  | 0, _ => none
  | n + 1, off =>
    if off < stop then do
      let types ← P.getPredicate (predicateGet code pc (off + intSize))
      let tuples ← axiomTuples code pc fuel types (pcounterUint code (pc + off)) (off + intSize + 1)
      let rest ← addNewAxioms pc fuel stop n (off + intSize + 1 + span tuples)
      return .int off :: .byte (off + intSize) :: tuples ++ rest
    else some []

/-- `val_is_reg`. -/
def valIsReg (val : ℕ) : Bool := val.testBit 5

/-- The reads of `build_match_element` for the match value `val` of a field of type `t`, at distance
`off` from `pc`. -/
def buildMatchElement (pc : ℕ) : ℕ → ℕ → FieldType → ℕ → Option (List Access)
  | 0, _, _, _ => none
  | _ + 1, val, .int, off =>
    if valIsReg val then some []
    else if val = 0x02 then some [.field off]
    else if val = 0x01 then some [.int off]
    else none
  | _ + 1, val, .float, off =>
    if val = 0x02 then some [.field off]
    else if val = 0x00 then some [.float off]
    else none
  | _ + 1, val, .node, off =>
    if valIsReg val then some []
    else if val = 0x02 then some [.field off]
    else if val = 0x03 then some []
    else if val = 0x05 then some [.node off]
    else none
  | fuel + 1, val, .list sub, off =>
    -- `VAL_ANY`, `VAL_NIL`, `VAL_NON_NIL` and `VAL_LIST`
    if val = 0x0F then some []
    else if val = 0x04 then some []
    else if val = 0x0D then some []
    else if val = 0x0E then do
      let head ← (if valGet code pc off = 0x0F then some []
        else buildMatchElement pc fuel (valGet code pc off) sub (off + 1))
      let tailOff := off + 1 + span head
      let tail ← (if valGet code pc tailOff = 0x0F then some []
        else buildMatchElement pc fuel (valGet code pc tailOff) (.list sub) (tailOff + 1))
      return .byte off :: head ++ .byte tailOff :: tail
    else none
  | _ + 1, _, _, _ => none

/-- `build_match_object`: the matched fields, each a field number, a match value and the operand of
that value. -/
def buildMatchObject (pc fuel : ℕ) (fields : List FieldType) : ℕ → ℕ → Option (List Access)
  | 0, _ => some []
  | num + 1, off => do
    let t ← fields[byteGet code pc off]?
    let el ← buildMatchElement code pc fuel (valGet code (pc + off) 1) t (off + iterMatchSize)
    let rest ← buildMatchObject pc fuel fields num (off + iterMatchSize + span el)
    return ⟨off, iterMatchSize⟩ :: el ++ rest

/-- The match operands of an iterate: `retrieve_match_object`. -/
def iterMatches (fuel pc base : ℕ) : Option (List Access) := do
  let fields ← P.getPredicate (iterPredicate code pc)
  buildMatchObject code pc fuel fields (iterMatchesSize code pc base) base

/-- `num` operands of width `width`, from distance `base` on. -/
def table (base width : ℕ) : ℕ → List Access
  | 0 => []
  | num + 1 => ⟨base, width⟩ :: table (base + width) width num

/-- The reads at distances that depend on the code.  They start where the source starts them, at the
base size of the instruction. -/
def variableOperands (fuel pc : ℕ) : InstrType → Option (List Access)
  | .persIterInstr => iterMatches P code fuel pc persIterBase
  | .tpersIterInstr => iterMatches P code fuel pc tpersIterBase
  | .linearIterInstr => iterMatches P code fuel pc linearIterBase
  | .tlinearIterInstr => iterMatches P code fuel pc tlinearIterBase
  | .trlinearIterInstr => iterMatches P code fuel pc trlinearIterBase
  | .rlinearIterInstr => iterMatches P code fuel pc rlinearIterBase
  | .opersIterInstr => iterMatches P code fuel pc opersIterBase
  | .olinearIterInstr => iterMatches P code fuel pc olinearIterBase
  | .orlinearIterInstr => iterMatches P code fuel pc orlinearIterBase
  | .callInstr => some (table callBase regValSize (callNumArgs code pc))
  | .calleInstr => some (table calleBase regValSize (calleNumArgs code pc))
  | .selectInstr => some (table selectBase codeSizeT (selectHashSize code pc))
  | .remoteUpdateInstr => some (table remoteUpdateBase regValSize (remoteUpdateNregs code pc))
  | .nodeTypeInstr => some (table nodeTypeBase valSize (nodeTypeCount code pc))
  | .newAxiomsInstr =>
    addNewAxioms P code pc fuel (newAxiomsJump code pc) fuel newAxiomsBase
  | .literalConsInstr => do
    let t ← P.getType (literalConsType code pc)
    axiomReadData code pc fuel t literalConsBase
  | _ => some []

/-- Every read of the operand accessors of an instruction. -/
def operands (fuel pc : ℕ) (i : InstrType) : Option (List Access) := do
  let var ← variableOperands P code fuel pc i
  return fixedOperands i ++ var

/-- The instruction at `pc` together with the reads of its operands. -/
def decode (fuel pc : ℕ) : Option (InstrType × List Access) := do
  let i ← fetch code pc
  let accs ← operands P code fuel pc i
  return (i, accs)

/-! ## Readers read contiguous bytes -/

@[simp] theorem span_nil : span [] = 0 := rfl

@[simp] theorem span_cons (a : Access) (accs : List Access) :
    span (a :: accs) = a.width + span accs := rfl

@[simp] theorem span_append (xs ys : List Access) : span (xs ++ ys) = span xs + span ys := by
  simp [span]

theorem tiles_append (off : ℕ) (xs ys : List Access) :
    Tiles off (xs ++ ys) ↔ Tiles off xs ∧ Tiles (off + span xs) ys := by
  induction xs generalizing off with
  | nil => simp [Tiles]
  | cons a xs ih =>
    simp only [List.cons_append, Tiles, ih, span_cons, and_assoc]
    rw [Nat.add_assoc off]

/-- Reads that tile the bytes from `off` on end within the next `span` bytes. -/
theorem Tiles.end_le {off : ℕ} {accs : List Access} (h : Tiles off accs) :
    ∀ a ∈ accs, a.off + a.width ≤ off + span accs := by
  induction accs generalizing off with
  | nil => simp
  | cons b accs ih =>
    intro a ha
    obtain ⟨hb, htl⟩ := h
    rw [span_cons]
    rcases List.mem_cons.1 ha with rfl | ha
    · omega
    · have := ih htl a ha
      omega

/-- A reader of one value reads contiguous bytes from where it is told to start. -/
def Contiguous (read : ℕ → Option (List Access)) : Prop :=
  ∀ off accs, read off = some accs → Tiles off accs

theorem contiguous_readSeq {read : FieldType → ℕ → Option (List Access)}
    (h : ∀ t, Contiguous (read t)) (types : List FieldType) :
    Contiguous (readSeq read types) := by
  induction types with
  | nil =>
    intro off accs heq
    cases heq
    trivial
  | cons t types ih =>
    intro off accs heq
    simp only [readSeq, Option.bind_eq_bind, Option.bind_eq_some_iff, Option.pure_def,
      Option.some.injEq] at heq
    obtain ⟨data, hdata, rest, hrest, rfl⟩ := heq
    exact (tiles_append _ _ _).2 ⟨h t _ _ hdata, ih _ _ hrest⟩

variable {code : Code} {pc : ℕ}

theorem contiguous_axiomReadData (fuel : ℕ) (t : FieldType) :
    Contiguous (axiomReadData code pc fuel t) := by
  induction fuel generalizing t with
  | zero =>
    intro off accs h
    simp [axiomReadData] at h
  | succ fuel ih =>
    intro off accs h
    cases t with
    | int | float | node =>
      cases h
      exact ⟨rfl, trivial⟩
    | list sub =>
      simp only [axiomReadData] at h
      split_ifs at h with h0 h1
      · cases h
        exact ⟨rfl, trivial⟩
      · simp only [Option.bind_eq_bind, Option.bind_eq_some_iff, Option.pure_def,
          Option.some.injEq] at h
        obtain ⟨head, hhead, tail, htail, rfl⟩ := h
        exact ⟨rfl, (tiles_append _ _ _).2 ⟨ih sub _ _ hhead, ih (.list sub) _ _ htail⟩⟩
    | struct types => exact contiguous_readSeq (fun t => ih t) types off accs h
    | _ => simp [axiomReadData] at h

theorem contiguous_axiomTuples (fuel : ℕ) (types : List FieldType) (num : ℕ) :
    Contiguous (axiomTuples code pc fuel types num) := by
  induction num with
  | zero =>
    intro off accs h
    cases h
    trivial
  | succ num ih =>
    intro off accs h
    simp only [axiomTuples, Option.bind_eq_bind, Option.bind_eq_some_iff, Option.pure_def,
      Option.some.injEq] at h
    obtain ⟨tpl, htpl, rest, hrest, rfl⟩ := h
    exact (tiles_append _ _ _).2
      ⟨contiguous_readSeq (contiguous_axiomReadData fuel) types _ _ htpl, ih _ _ hrest⟩

theorem contiguous_addNewAxioms (fuel stop n : ℕ) :
    Contiguous (addNewAxioms P code pc fuel stop n) := by
  induction n with
  | zero =>
    intro off accs h
    simp [addNewAxioms] at h
  | succ n ih =>
    intro off accs h
    simp only [addNewAxioms] at h
    split_ifs at h with hlt
    · simp only [Option.bind_eq_bind, Option.bind_eq_some_iff, Option.pure_def,
        Option.some.injEq] at h
      obtain ⟨types, -, tuples, htuples, rest, hrest, rfl⟩ := h
      exact ⟨rfl, rfl, (tiles_append _ _ _).2
        ⟨contiguous_axiomTuples fuel types _ _ _ htuples, ih _ _ hrest⟩⟩
    · cases h
      trivial

theorem contiguous_buildMatchElement (fuel val : ℕ) (t : FieldType) :
    Contiguous (buildMatchElement code pc fuel val t) := by
  induction fuel generalizing val t with
  | zero =>
    intro off accs h
    simp [buildMatchElement] at h
  | succ fuel ih =>
    intro off accs h
    -- A head or tail that is `VAL_ANY` has no operand, any other is an element of its own.
    have sub_el : ∀ (v : ℕ) (t : FieldType) (pos : ℕ) (accs : List Access),
        (if v = 0x0F then some [] else buildMatchElement code pc fuel v t pos) = some accs →
        Tiles pos accs := by
      intro v t pos accs h
      split_ifs at h
      · cases h
        trivial
      · exact ih v t pos accs h
    cases t with
    | int | float | node =>
      simp only [buildMatchElement] at h
      split_ifs at h <;> cases h <;> trivial
    | list sub =>
      rw [buildMatchElement] at h
      by_cases hsome : val = 0x0F ∨ val = 0x04 ∨ val = 0x0D
      · have : accs = [] := by
          rcases hsome with rfl | rfl | rfl <;> simpa using h.symm
        subst this
        trivial
      · obtain ⟨hany, hnil, hnonNil⟩ : val ≠ 0x0F ∧ val ≠ 0x04 ∧ val ≠ 0x0D := by
          simpa only [not_or] using hsome
        rw [if_neg hany, if_neg hnil, if_neg hnonNil] at h
        by_cases hlist : val = 0x0E
        · rw [if_pos hlist] at h
          simp only [Option.bind_eq_bind, Option.bind_eq_some_iff, Option.pure_def,
            Option.some.injEq] at h
          obtain ⟨head, hhead, tail, htail, rfl⟩ := h
          exact ⟨rfl, (tiles_append _ _ _).2
            ⟨sub_el _ _ _ _ hhead, rfl, sub_el _ _ _ _ htail⟩⟩
        · rw [if_neg hlist] at h
          cases h
    | _ => simp [buildMatchElement] at h

theorem contiguous_buildMatchObject (fuel : ℕ) (fields : List FieldType) (num : ℕ) :
    Contiguous (buildMatchObject code pc fuel fields num) := by
  induction num with
  | zero =>
    intro off accs h
    cases h
    trivial
  | succ num ih =>
    intro off accs h
    simp only [buildMatchObject, Option.bind_eq_bind, Option.bind_eq_some_iff, Option.pure_def,
      Option.some.injEq] at h
    obtain ⟨t, -, el, hel, rest, hrest, rfl⟩ := h
    exact ⟨rfl, (tiles_append _ _ _).2
      ⟨contiguous_buildMatchElement fuel _ t _ _ hel, ih _ _ hrest⟩⟩

theorem tiles_iterMatches {fuel base : ℕ} {accs : List Access}
    (h : iterMatches P code fuel pc base = some accs) : Tiles base accs := by
  simp only [iterMatches, Option.bind_eq_bind, Option.bind_eq_some_iff] at h
  obtain ⟨fields, -, h⟩ := h
  exact contiguous_buildMatchObject fuel fields _ _ _ h

theorem tiles_table (base width num : ℕ) : Tiles base (table base width num) := by
  induction num generalizing base with
  | zero => trivial
  | succ num ih => exact ⟨rfl, ih _⟩

@[simp] theorem span_table (base width num : ℕ) : span (table base width num) = num * width := by
  induction num generalizing base with
  | zero => simp [table]
  | succ num ih => rw [table, span_cons, ih, Nat.succ_mul, Nat.add_comm]

/-! ## The fixed part ends at the base size -/

/-- The distance at which the operands of variable size start. -/
def operandBase (i : InstrType) : ℕ := instrSize + span (fixedOperands i)

/-- The fixed operands of every instruction are contiguous: no byte between the opcode and the
operands of variable size is left out, and none is read twice. -/
theorem tiles_fixedOperands (i : InstrType) : Tiles instrSize (fixedOperands i) := by
  cases i <;> decide

/-- The operands of variable size start where the fixed ones end. -/
theorem tiles_variableOperands {fuel : ℕ} {i : InstrType} {accs : List Access}
    (h : variableOperands P code fuel pc i = some accs) : Tiles (operandBase i) accs := by
  cases i with
  | persIterInstr | tpersIterInstr | linearIterInstr | tlinearIterInstr | trlinearIterInstr
  | rlinearIterInstr | opersIterInstr | olinearIterInstr | orlinearIterInstr =>
    exact tiles_iterMatches P h
  | callInstr | calleInstr | selectInstr | remoteUpdateInstr | nodeTypeInstr =>
    cases h
    exact tiles_table _ _ _
  | newAxiomsInstr => exact contiguous_addNewAxioms P _ _ _ _ _ h
  | literalConsInstr =>
    simp only [variableOperands, Option.bind_eq_bind, Option.bind_eq_some_iff] at h
    obtain ⟨t, -, h⟩ := h
    exact contiguous_axiomReadData _ t _ _ h
  | _ =>
    cases h
    trivial

/-- The operand accessors of an instruction read the bytes after the opcode, each once. -/
theorem tiles_operands {fuel : ℕ} {i : InstrType} {accs : List Access}
    (h : operands P code fuel pc i = some accs) : Tiles instrSize accs := by
  simp only [operands, Option.bind_eq_bind, Option.bind_eq_some_iff, Option.pure_def,
    Option.some.injEq] at h
  obtain ⟨var, hvar, rfl⟩ := h
  exact (tiles_append _ _ _).2 ⟨tiles_fixedOperands i, tiles_variableOperands P hvar⟩

/-! ## The three lengths -/

/-- The three notions of the length of the instruction `i` at `pc`, whose accessors make the reads
`accs`, coincide. -/
structure LengthsCoincide (code : Code) (pc : ℕ) (i : InstrType) (accs : List Access) : Prop where
  /-- `advance` skips the opcode and the operand bytes. -/
  advance_eq : advance code pc i = instrSize + span accs
  /-- `execute` moves on by as much. -/
  fallThrough_eq : ∀ d, executeFallThrough code pc i = some d → d = advance code pc i
  /-- The operand bytes follow the opcode, and each is read by one accessor. -/
  tiles : Tiles instrSize accs
  /-- The next opcode is not an operand byte. -/
  opcode_free : ∀ a ∈ accs, ∀ k < a.width, a.off + k ≠ advance code pc i

/-- When the lengths of an instruction coincide.

* `HEADRF_BASE` is `instr_size * reg_val_size + field_size`, one byte short, and `TAILRF_BASE` is
  the same constant.
* `execute` moves over a `CALLE` by `CALLE_BASE * calle_num_args(pc)`.
* The number of nodes of a `NODE_TYPE` table is read as a signed integer.
* Iterates, `NEW_AXIOMS` and `LITERAL_CONS` carry their own length as a jump operand, which has to
  be right. -/
def WellEncoded (code : Code) (pc : ℕ) (accs : List Access) : InstrType → Prop
  | .headrfInstr | .headrfrInstr | .tailrfInstr => False
  | .calleInstr => False
  | .nodeTypeInstr => nodeTypeCount code pc < 2 ^ 31
  | .persIterInstr | .tpersIterInstr | .opersIterInstr | .linearIterInstr | .tlinearIterInstr
  | .trlinearIterInstr | .rlinearIterInstr | .olinearIterInstr | .orlinearIterInstr =>
    iterInnerJump code pc = instrSize + span accs
  | .newAxiomsInstr => newAxiomsJump code pc = instrSize + span accs
  | .literalConsInstr => literalConsJump code pc = instrSize + span accs
  | _ => True

/-- Contiguous operands do not reach the byte after the last of them. -/
theorem opcode_free_of_advance_eq {i : InstrType} {accs : List Access} (htiles : Tiles instrSize accs)
    (h : advance code pc i = instrSize + span accs) :
    ∀ a ∈ accs, ∀ k < a.width, a.off + k ≠ advance code pc i := by
  intro a ha k hk
  have := htiles.end_le a ha
  omega

/-- The lengths coincide as soon as `advance` skips the operands and `execute` agrees with it. -/
theorem lengthsCoincide_iff {fuel : ℕ} {i : InstrType} {accs : List Access}
    (h : operands P code fuel pc i = some accs) :
    LengthsCoincide code pc i accs ↔
      advance code pc i = instrSize + span accs ∧
        ∀ d, executeFallThrough code pc i = some d → d = advance code pc i := by
  constructor
  · intro hc
    exact ⟨hc.advance_eq, hc.fallThrough_eq⟩
  · rintro ⟨hadv, hexec⟩
    have htiles := tiles_operands P h
    exact ⟨hadv, hexec, htiles, opcode_free_of_advance_eq htiles hadv⟩

theorem pcounterUint_lt : pcounterUint code pc < 2 ^ 32 := by
  have hb (off : ℕ) : byteGet code pc off < 256 := (code (pc + off)).toNat_lt
  have h0 := hb 0
  have h1 := hb 1
  have h2 := hb 2
  have h3 := hb 3
  rw [pcounterUint]
  omega

/-- The distance over a `NODE_TYPE` table is its size exactly when the number of nodes is not
negative as an `int_val`. -/
theorem nodeTypeDistance_eq_iff :
    nodeTypeDistance code pc = nodeTypeBase + nodeTypeCount code pc * valSize ↔
      nodeTypeCount code pc < 2 ^ 31 := by
  have hlt : nodeTypeCount code pc < 2 ^ 32 := pcounterUint_lt
  have hbase : nodeTypeBase = 6 := rfl
  have hval : valSize = 1 := rfl
  rw [nodeTypeDistance, nodeTypeNodes, hbase, hval]
  split_ifs with h <;> omega

/-- Six times the number of arguments is never six plus it. -/
theorem calleBase_mul_ne (n : ℕ) : calleBase * n ≠ calleBase + n * regValSize := by
  have hbase : calleBase = 6 := rfl
  have hreg : regValSize = 1 := rfl
  rw [hbase, hreg]
  omega

/-- **The lengths of an instruction coincide exactly when it is well encoded**, whatever the
instruction at `pc` is and whatever its operands are. -/
theorem lengthsCoincide_iff_wellEncoded {fuel : ℕ} {i : InstrType} {accs : List Access}
    (h : decode P code fuel pc = some (i, accs)) :
    LengthsCoincide code pc i accs ↔ WellEncoded code pc accs i := by
  simp only [decode, Option.bind_eq_bind, Option.bind_eq_some_iff, Option.pure_def,
    Option.some.injEq, Prod.mk.injEq] at h
  obtain ⟨i', -, accs', hops, rfl, rfl⟩ := h
  rw [lengthsCoincide_iff P hops]
  simp only [operands, Option.bind_eq_bind, Option.bind_eq_some_iff, Option.pure_def,
    Option.some.injEq] at hops
  obtain ⟨var, hvar, rfl⟩ := hops
  cases i' with
  | headrfInstr | headrfrInstr | tailrfInstr =>
    cases hvar
    refine iff_of_false (fun hc => ?_) not_false
    have hbase : headrfBase = instrSize + (regValSize + fieldSize) := hc.1
    exact absurd hbase (by decide)
  | calleInstr =>
    refine iff_of_false (fun hc => ?_) not_false
    exact calleBase_mul_ne _ (hc.2 _ rfl)
  | nodeTypeInstr =>
    cases hvar
    rw [span_append, span_table, ← Nat.add_assoc]
    exact ⟨fun hc => nodeTypeDistance_eq_iff.1 hc.1,
      fun hlt => ⟨nodeTypeDistance_eq_iff.2 hlt, fun d hd => by cases hd; rfl⟩⟩
  | persIterInstr | tpersIterInstr | opersIterInstr | linearIterInstr | tlinearIterInstr
  | trlinearIterInstr | rlinearIterInstr | olinearIterInstr | orlinearIterInstr | newAxiomsInstr
  | literalConsInstr =>
    exact ⟨fun hc => hc.1, fun hj => ⟨hj, fun d hd => by cases hd; rfl⟩⟩
  | callInstr | remoteUpdateInstr =>
    cases hvar
    rw [span_append, span_table, ← Nat.add_assoc]
    exact iff_of_true ⟨rfl, fun d hd => by cases hd; rfl⟩ trivial
  | selectInstr =>
    cases hvar
    rw [span_append, span_table, ← Nat.add_assoc]
    exact iff_of_true ⟨rfl, fun d hd => by cases hd⟩ trivial
  | _ =>
    cases hvar
    exact iff_of_true ⟨rfl, fun d hd => by cases hd <;> rfl⟩ trivial

/-- A program without types, enough to decode instructions without lists or axioms. -/
def noTypes : ProgramTypes := ⟨[], []⟩

/-- The bytes of `bytes`, then zeroes. -/
def ofBytes (bytes : List UInt8) : Code := fun n => bytes.getD n 0

/-- The condition is met by `MVINTREG 7 TO r3`. -/
theorem mvintreg_lengthsCoincide :
    decode noTypes (ofBytes [0x1F, 7, 0, 0, 0, 3]) 1 0 =
        some (.mvintregInstr, [⟨1, 4⟩, ⟨5, 1⟩]) ∧
      LengthsCoincide (ofBytes [0x1F, 7, 0, 0, 0, 3]) 0 .mvintregInstr [⟨1, 4⟩, ⟨5, 1⟩] :=
  have hdecode : decode noTypes (ofBytes [0x1F, 7, 0, 0, 0, 3]) 1 0 =
      some (.mvintregInstr, [⟨1, 4⟩, ⟨5, 1⟩]) := rfl
  ⟨hdecode, (lengthsCoincide_iff_wellEncoded noTypes hdecode).2 trivial⟩

/-- **`TAILRF` is one byte short**: of `TAILRF r1 TO f0 OF r2` followed by `RETURN`, three bytes are
skipped, and the last operand byte is fetched as the next opcode. -/
theorem tailrf_not_lengthsCoincide :
    decode noTypes (ofBytes [0x5C, 1, 0, 2, 0]) 1 0 = some (.tailrfInstr, [⟨1, 1⟩, ⟨2, 2⟩]) ∧
      advance (ofBytes [0x5C, 1, 0, 2, 0]) 0 .tailrfInstr = 3 ∧
      fetch (ofBytes [0x5C, 1, 0, 2, 0]) 3 = some .persIterInstr ∧
      ¬ LengthsCoincide (ofBytes [0x5C, 1, 0, 2, 0]) 0 .tailrfInstr [⟨1, 1⟩, ⟨2, 2⟩] := by
  refine ⟨rfl, rfl, rfl, fun hc => ?_⟩
  exact absurd hc.advance_eq (by decide)

end Instr

end Meld
