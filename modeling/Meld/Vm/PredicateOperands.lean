import Meld.Vm.InstrLength

/-!
# Predicate operands

The loader reads the number of predicates as one byte and numbers the predicates from zero.  An
instruction names a predicate with one byte, of which `predicate_get` takes the low seven bits.

* `loadPredicates`: the table of predicates of a program.
* `executePredicates`: the predicates that `execute` looks up for the instruction at `pc`.
* `OperandIds`: the identifiers that stand in the operands of that instruction.
* `predicates_eq_iff`: the two agree exactly if the identifiers fit in seven bits.
* `neverConfused_iff`: no two operands are taken for each other exactly if the program has at most
  128 predicates.
-/

namespace Meld

/-- `vm::predicate`: the identifier and the types of the fields. -/
structure LoadedPredicate where
  id : ℕ
  types : List FieldType

/-- `program::program`: the number of predicates is a byte, and predicate `i` is made from the
`i`-th descriptor with the identifier `(predicate_id)i`. -/
def loadPredicates (numPreds : UInt8) (descriptor : ℕ → List FieldType) : List LoadedPredicate :=
  (List.range numPreds.toNat).map fun i => ⟨i, descriptor i⟩

theorem getElem?_loadPredicates {numPreds : UInt8} {descriptor : ℕ → List FieldType} {n : ℕ}
    (hn : n < numPreds.toNat) :
    (loadPredicates numPreds descriptor)[n]? = some ⟨n, descriptor n⟩ := by
  rw [loadPredicates, List.getElem?_map, List.getElem?_range hn]
  rfl

theorem length_loadPredicates (numPreds : UInt8) (descriptor : ℕ → List FieldType) :
    (loadPredicates numPreds descriptor).length = numPreds.toNat := by
  rw [loadPredicates, List.length_map, List.length_range]

namespace Instr

variable (preds : List LoadedPredicate) (code : Code)

/-! ## The interpreter -/

/-- `alloc_predicate`. -/
def allocPredicate (pc : ℕ) : ℕ := predicateGet code pc instrSize

/-- `delete_predicate`.  No instruction uses it. -/
def deletePredicate (pc : ℕ) : ℕ := predicateGet code pc 1

/-- `remote_update_edit`. -/
def remoteUpdateEdit (pc : ℕ) : ℕ := predicateGet code pc (instrSize + regValSize)

/-- `remote_update_target`. -/
def remoteUpdateTarget (pc : ℕ) : ℕ :=
  predicateGet code pc (instrSize + regValSize + predicateSize)

/-- `add_new_axioms`: the predicate of every group of axioms below `stop`.  The group behind is
where the tuples of this one end.  `depth` bounds the nesting of lists and structures. -/
def newAxiomsPredicates (depth pc stop : ℕ) : ℕ → ℕ → Option (List LoadedPredicate)
  | 0, _ => none
  | n + 1, off =>
    if off < stop then do
      let pred ← preds[predicateGet code pc (off + intSize)]?
      let tuples ←
        axiomTuples code pc depth pred.types (pcounterUint code (pc + off)) (off + intSize + 1)
      let rest ← newAxiomsPredicates depth pc stop n (off + intSize + 1 + span tuples)
      return pred :: rest
    else some []

/-- The predicates that `execute` looks up for an instruction. -/
def instrPredicates (depth pc : ℕ) : InstrType → Option (List LoadedPredicate)
  | .persIterInstr | .linearIterInstr | .tlinearIterInstr | .trlinearIterInstr | .tpersIterInstr
  | .rlinearIterInstr | .opersIterInstr | .olinearIterInstr | .orlinearIterInstr => do
    let pred ← preds[iterPredicate code pc]?
    return [pred]
  | .allocInstr => do
    let pred ← preds[allocPredicate code pc]?
    return [pred]
  | .remoteUpdateInstr => do
    let predEdit ← preds[remoteUpdateEdit code pc]?
    let predTarget ← preds[remoteUpdateTarget code pc]?
    return [predEdit, predTarget]
  | .newAxiomsInstr =>
    newAxiomsPredicates preds code depth pc (newAxiomsJump code pc) (newAxiomsJump code pc + 1)
      newAxiomsBase
  | _ => some []

/-- The predicates that `execute` looks up for the instruction at `pc`. -/
def executePredicates (depth pc : ℕ) : Option (List LoadedPredicate) := do
  let i ← fetch code pc
  instrPredicates preds code depth pc i

/-! ## What the operands say -/

/-- A block of axioms that ends at `stop`: groups of a number, the predicate code, which is a byte,
and that many tuples with the fields of the predicate. -/
inductive AxiomBlock (depth pc stop : ℕ) : ℕ → List ℕ → Prop where
  | done {off : ℕ} (hoff : ¬ off < stop) : AxiomBlock depth pc stop off []
  | group {off : ℕ} {pred : LoadedPredicate} {tuples : List Access} {ids : List ℕ}
      (hoff : off < stop) (hpred : preds[byteGet code pc (off + intSize)]? = some pred)
      (htuples : axiomTuples code pc depth pred.types (pcounterUint code (pc + off))
        (off + intSize + 1) = some tuples)
      (hrest : AxiomBlock depth pc stop (off + intSize + 1 + span tuples) ids) :
      AxiomBlock depth pc stop off (byteGet code pc (off + intSize) :: ids)

/-- The bytes that stand in the operands of the instruction at `pc`, all of them identifiers of
predicates of the program. -/
inductive OperandIds (depth pc : ℕ) : List ℕ → Prop where
  | iter {i : InstrType} (hi : fetch code pc = some i)
      (hiter : i ∈ [.persIterInstr, .linearIterInstr, .tlinearIterInstr, .trlinearIterInstr,
        .tpersIterInstr, .rlinearIterInstr, .opersIterInstr, .olinearIterInstr, .orlinearIterInstr])
      (hid : byteGet code pc (instrSize + ptrSize) < preds.length) :
      OperandIds depth pc [byteGet code pc (instrSize + ptrSize)]
  | alloc (hi : fetch code pc = some .allocInstr) (hid : byteGet code pc instrSize < preds.length) :
      OperandIds depth pc [byteGet code pc instrSize]
  | remoteUpdate (hi : fetch code pc = some .remoteUpdateInstr)
      (hedit : byteGet code pc (instrSize + regValSize) < preds.length)
      (htarget : byteGet code pc (instrSize + regValSize + predicateSize) < preds.length) :
      OperandIds depth pc [byteGet code pc (instrSize + regValSize),
        byteGet code pc (instrSize + regValSize + predicateSize)]
  | newAxioms {ids : List ℕ} (hi : fetch code pc = some .newAxiomsInstr)
      (hblock : AxiomBlock preds code depth pc (newAxiomsJump code pc) newAxiomsBase ids) :
      OperandIds depth pc ids

/-- Two instructions that work on the same predicates name the same predicates. -/
def NeverConfused : Prop :=
  ∀ (code code' : Code) (depth depth' pc pc' : ℕ) (ids ids' : List ℕ),
    OperandIds preds code depth pc ids → OperandIds preds code' depth' pc' ids' →
      executePredicates preds code depth pc = executePredicates preds code' depth' pc' → ids = ids'

/-! ## Seven bits -/

variable {preds code} {numPreds : UInt8} {descriptor : ℕ → List FieldType} {depth pc : ℕ}

theorem predicateGet_of_lt {off : ℕ} (h : byteGet code pc off < 128) :
    predicateGet code pc off = byteGet code pc off := Nat.mod_eq_of_lt h

theorem predicateGet_lt (off : ℕ) : predicateGet code pc off < 128 := Nat.mod_lt _ (by decide)

/-- A program of the loader: an identifier is the place in the table. -/
theorem id_of_getElem? {n : ℕ} {pred : LoadedPredicate}
    (h : (loadPredicates numPreds descriptor)[n]? = some pred) : pred.id = n := by
  have hn : n < numPreds.toNat := by
    rw [← length_loadPredicates numPreds descriptor]
    exact (List.getElem?_eq_some_iff.1 h).1
  rw [getElem?_loadPredicates hn] at h
  rw [← Option.some.inj h]

/-- A block has no more groups than bytes. -/
theorem AxiomBlock.length_le {stop off : ℕ} {ids : List ℕ}
    (h : AxiomBlock preds code depth pc stop off ids) : ids.length ≤ stop - off := by
  induction h with
  | done _ => exact Nat.zero_le _
  | group hoff _ _ _ ih =>
    rw [List.length_cons]
    omega

/-- The groups are of predicates of the program. -/
theorem AxiomBlock.lt {stop off : ℕ} {ids : List ℕ}
    (h : AxiomBlock preds code depth pc stop off ids) : ∀ id ∈ ids, id < preds.length := by
  induction h with
  | done _ => exact fun _ hmem => absurd hmem List.not_mem_nil
  | group _ hpred _ _ ih =>
    exact List.forall_mem_cons.2 ⟨(List.getElem?_eq_some_iff.1 hpred).1, ih⟩

/-- **A block** whose identifiers fit in seven bits is read as it was written. -/
theorem AxiomBlock.predicates {stop off n : ℕ} {ids : List ℕ}
    (h : AxiomBlock (loadPredicates numPreds descriptor) code depth pc stop off ids)
    (hids : ∀ id ∈ ids, id < 128) (hn : ids.length < n) :
    (newAxiomsPredicates (loadPredicates numPreds descriptor) code depth pc stop n off).map
      (List.map LoadedPredicate.id) = some ids := by
  induction h generalizing n with
  | done hoff =>
    obtain ⟨n, rfl⟩ := Nat.exists_eq_succ_of_ne_zero (Nat.ne_zero_of_lt hn)
    rw [newAxiomsPredicates, if_neg hoff]
    rfl
  | group hoff hpred htuples hrest ih =>
    obtain ⟨n, rfl⟩ := Nat.exists_eq_succ_of_ne_zero (Nat.ne_zero_of_lt hn)
    obtain ⟨hid, hids⟩ := List.forall_mem_cons.1 hids
    obtain ⟨rest, hrun, hrest⟩ := Option.map_eq_some_iff.1 (ih hids (Nat.lt_of_succ_lt_succ hn))
    rw [newAxiomsPredicates, if_pos hoff, predicateGet_of_lt hid, hpred, Option.bind_eq_bind,
      Option.bind_some, htuples, Option.bind_eq_bind, Option.bind_some, hrun]
    show some (_ :: rest.map LoadedPredicate.id) = _
    rw [hrest, id_of_getElem? hpred]

/-- What is looked up for a block has seven bits. -/
theorem newAxiomsPredicates_lt {stop off n : ℕ} {found : List LoadedPredicate}
    (h : newAxiomsPredicates (loadPredicates numPreds descriptor) code depth pc stop n off =
      some found) : ∀ pred ∈ found, pred.id < 128 := by
  induction n generalizing off found with
  | zero => exact absurd h (by simp [newAxiomsPredicates])
  | succ n ih =>
    rw [newAxiomsPredicates] at h
    by_cases hoff : off < stop
    · rw [if_pos hoff] at h
      obtain ⟨pred, hpred, h⟩ := Option.bind_eq_some_iff.1 h
      obtain ⟨tuples, -, h⟩ := Option.bind_eq_some_iff.1 h
      obtain ⟨rest, hrest, h⟩ := Option.bind_eq_some_iff.1 h
      obtain rfl := Option.some.inj h
      refine List.forall_mem_cons.2 ⟨?_, ih hrest⟩
      rw [id_of_getElem? hpred]
      exact predicateGet_lt _
    · rw [if_neg hoff] at h
      obtain rfl := Option.some.inj h
      exact fun _ hmem => absurd hmem List.not_mem_nil

/-! ## One instruction -/

theorem map_id_lookup {n : ℕ} (hn : n < (loadPredicates numPreds descriptor).length)
    (h7 : n < 128) {off : ℕ} (hoff : byteGet code pc off = n) :
    ∃ pred, (loadPredicates numPreds descriptor)[predicateGet code pc off]? = some pred ∧
      pred.id = n := by
  rw [length_loadPredicates] at hn
  subst hoff
  rw [predicateGet_of_lt h7, getElem?_loadPredicates hn]
  exact ⟨_, rfl, rfl⟩

/-- **One instruction**, if the identifiers in its operands fit in seven bits. -/
theorem OperandIds.predicates {ids : List ℕ}
    (h : OperandIds (loadPredicates numPreds descriptor) code depth pc ids)
    (hids : ∀ id ∈ ids, id < 128) :
    (executePredicates (loadPredicates numPreds descriptor) code depth pc).map
      (List.map LoadedPredicate.id) = some ids := by
  cases h with
  | iter hi hiter hid =>
    obtain ⟨pred, hpred, hn⟩ := map_id_lookup hid (hids _ (List.mem_singleton_self _)) rfl
    rw [executePredicates, hi, Option.bind_eq_bind, Option.bind_some, ← hn]
    simp only [List.mem_cons, List.not_mem_nil, or_false] at hiter
    obtain rfl | rfl | rfl | rfl | rfl | rfl | rfl | rfl | rfl := hiter <;>
      simp only [instrPredicates, iterPredicate, hpred] <;> rfl
  | alloc hi hid =>
    obtain ⟨pred, hpred, hn⟩ := map_id_lookup hid (hids _ (List.mem_singleton_self _)) rfl
    rw [executePredicates, hi, Option.bind_eq_bind, Option.bind_some, ← hn]
    simp only [instrPredicates, allocPredicate, hpred]
    rfl
  | remoteUpdate hi hedit htarget =>
    obtain ⟨hid, hid'⟩ := List.forall_mem_cons.1 hids
    have hid' := List.forall_mem_singleton.1 hid'
    obtain ⟨pred, hpred, hn⟩ := map_id_lookup hedit hid rfl
    obtain ⟨pred', hpred', hn'⟩ := map_id_lookup htarget hid' rfl
    rw [executePredicates, hi, Option.bind_eq_bind, Option.bind_some, ← hn, ← hn']
    simp only [instrPredicates, remoteUpdateEdit, remoteUpdateTarget, hpred, hpred']
    rfl
  | newAxioms hi hblock =>
    have hlength := hblock.length_le
    rw [executePredicates, hi, Option.bind_eq_bind, Option.bind_some]
    exact hblock.predicates hids (by omega)

/-- What `execute` looks up has seven bits. -/
theorem executePredicates_lt {found : List LoadedPredicate}
    (h : executePredicates (loadPredicates numPreds descriptor) code depth pc = some found) :
    ∀ pred ∈ found, pred.id < 128 := by
  have hone {off : ℕ} {pred : LoadedPredicate}
      (hpred : (loadPredicates numPreds descriptor)[predicateGet code pc off]? = some pred) :
      pred.id < 128 := id_of_getElem? hpred ▸ predicateGet_lt off
  obtain ⟨i, -, h⟩ := Option.bind_eq_some_iff.1 h
  unfold instrPredicates at h
  split at h
  case h_10 =>
    obtain ⟨pred, hpred, h⟩ := Option.bind_eq_some_iff.1 h
    obtain rfl := Option.some.inj h
    exact List.forall_mem_singleton.2 (hone hpred)
  case h_11 =>
    obtain ⟨pred, hpred, h⟩ := Option.bind_eq_some_iff.1 h
    obtain ⟨pred', hpred', h⟩ := Option.bind_eq_some_iff.1 h
    obtain rfl := Option.some.inj h
    exact List.forall_mem_cons.2 ⟨hone hpred, List.forall_mem_singleton.2 (hone hpred')⟩
  case h_12 => exact newAxiomsPredicates_lt h
  case h_13 =>
    obtain rfl := Option.some.inj h
    exact fun _ hmem => absurd hmem List.not_mem_nil
  all_goals
    obtain ⟨pred, hpred, h⟩ := Option.bind_eq_some_iff.1 h
    obtain rfl := Option.some.inj h
    exact List.forall_mem_singleton.2 (hone hpred)

theorem predicates_eq_iff {ids : List ℕ}
    (h : OperandIds (loadPredicates numPreds descriptor) code depth pc ids) :
    (executePredicates (loadPredicates numPreds descriptor) code depth pc).map
      (List.map LoadedPredicate.id) = some ids ↔ ∀ id ∈ ids, id < 128 := by
  refine ⟨fun hrun => ?_, h.predicates⟩
  obtain ⟨found, hfound, rfl⟩ := Option.map_eq_some_iff.1 hrun
  intro id hid
  obtain ⟨pred, hpred, rfl⟩ := List.mem_map.1 hid
  exact executePredicates_lt hfound pred hpred

/-- The operands are identifiers of the program. -/
theorem OperandIds.lt {ids : List ℕ}
    (h : OperandIds (loadPredicates numPreds descriptor) code depth pc ids) :
    ∀ id ∈ ids, id < numPreds.toNat := by
  rw [← length_loadPredicates numPreds descriptor]
  cases h with
  | iter _ _ hid => exact List.forall_mem_singleton.2 hid
  | alloc _ hid => exact List.forall_mem_singleton.2 hid
  | remoteUpdate _ hedit htarget =>
    exact List.forall_mem_cons.2 ⟨hedit, List.forall_mem_singleton.2 htarget⟩
  | newAxioms _ hblock => exact hblock.lt

/-! ## The whole program -/

/-- `ALLOC id`. -/
def allocCode (id : UInt8) : Code := fun a => if a = 1 then id else 0x40

theorem operandIds_allocCode {id : UInt8} (hid : id.toNat < preds.length) :
    OperandIds preds (allocCode id) 0 0 [id.toNat] :=
  .alloc (by rfl) hid

theorem executePredicates_allocCode (id : UInt8) :
    executePredicates preds (allocCode id) 0 0 =
      preds[id.toNat % 128]?.bind fun pred => some [pred] := rfl

theorem neverConfused_iff :
    NeverConfused (loadPredicates numPreds descriptor) ↔ numPreds.toNat ≤ 128 := by
  constructor
  · intro h
    refine Nat.not_lt.1 fun hlarge => ?_
    have hlength := length_loadPredicates numPreds descriptor
    have hzero : (0 : UInt8).toNat < (loadPredicates numPreds descriptor).length := by
      rw [hlength]
      exact Nat.lt_trans (by decide) hlarge
    have hlast : (128 : UInt8).toNat < (loadPredicates numPreds descriptor).length := by
      rw [hlength]
      exact hlarge
    -- `ALLOC 128` allocates a tuple of predicate 0
    have hsame := h _ _ 0 0 0 0 _ _ (operandIds_allocCode hzero) (operandIds_allocCode hlast)
      (by rw [executePredicates_allocCode, executePredicates_allocCode]; rfl)
    exact absurd hsame (by decide)
  · intro hsmall code code' depth depth' pc pc' ids ids' hids hids' hrun
    have hlt (id : ℕ) (hid : id ∈ ids) : id < 128 := Nat.lt_of_lt_of_le (hids.lt id hid) hsmall
    have hlt' (id : ℕ) (hid : id ∈ ids') : id < 128 := Nat.lt_of_lt_of_le (hids'.lt id hid) hsmall
    have hfound := hids.predicates hlt
    rw [hrun, hids'.predicates hlt'] at hfound
    exact (Option.some.inj hfound).symm

/-- **Predicate operands.**  An iterate, `ALLOC`, `REMOTE_UPDATE` and `NEW_AXIOMS` work on the
predicates whose identifiers stand in their operands exactly if these are below 128, and so does
`delete_predicate`; two operands are never confused exactly if the program has at most 128
predicates. -/
theorem predicate_operands_iff (numPreds : UInt8) (descriptor : ℕ → List FieldType) :
    (∀ (code : Code) (depth pc : ℕ) (ids : List ℕ),
      OperandIds (loadPredicates numPreds descriptor) code depth pc ids →
        ((executePredicates (loadPredicates numPreds descriptor) code depth pc).map
          (List.map LoadedPredicate.id) = some ids ↔ ∀ id ∈ ids, id < 128)) ∧
      (∀ (code : Code) (pc : ℕ),
        deletePredicate code pc = byteGet code pc 1 ↔ byteGet code pc 1 < 128) ∧
      (NeverConfused (loadPredicates numPreds descriptor) ↔ numPreds.toNat ≤ 128) := by
  refine ⟨fun _ _ _ _ h => predicates_eq_iff h, fun code pc => ⟨fun h => ?_, predicateGet_of_lt⟩,
    neverConfused_iff⟩
  rw [← h]
  exact predicateGet_lt 1

/-- `ALLOC 5`. -/
theorem predicate_operands_alloc_5 :
    (executePredicates (loadPredicates 255 fun _ => []) (allocCode 5) 0 0).map
      (List.map LoadedPredicate.id) = some [5] := by
  have hid : (5 : UInt8).toNat < (loadPredicates 255 fun _ => []).length := by
    rw [length_loadPredicates]
    decide
  exact ((predicate_operands_iff 255 fun _ => []).1 _ _ _ _ (operandIds_allocCode hid)).2
    (by decide)

/-- **`ALLOC 200`** in a program with 255 predicates allocates a tuple of predicate 72. -/
theorem alloc_200_confused :
    OperandIds (loadPredicates 255 fun _ => []) (allocCode 200) 0 0 [200] ∧
      (executePredicates (loadPredicates 255 fun _ => []) (allocCode 200) 0 0).map
        (List.map LoadedPredicate.id) = some [72] := by
  refine ⟨operandIds_allocCode ?_, ?_⟩
  · rw [length_loadPredicates]
    decide
  · have hid : (200 : UInt8).toNat % 128 = 72 := by decide
    rw [executePredicates_allocCode, hid, getElem?_loadPredicates (by decide)]
    rfl

end Instr

end Meld
