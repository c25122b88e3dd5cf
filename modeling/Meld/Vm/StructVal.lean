import Meld.Runtime.Containers
import Meld.Vm.Instr

/-!
# Components of structs

Six instructions read component `idx` of a struct.  Source and destination are registers or fields
of tuples, and two of the six count a reference on what they stored.

Registers and fields are words; a register whose tuple is meant holds its address.

* `executeStructValrr`, ..., `executeStructValffr`: the six functions of the interpreter.
* `StructValForm.specification`: what all of them are for.
* `StructValForm.Agrees`, `struct_val_iff`: when they do it.  The forms between two fields copy the
  struct, and the counting forms count whatever they stored as if it were a struct.
-/

namespace Meld
namespace StructVal

open RefCount Containers Instr

/-- The registers, the fields of the tuples, and the reference counts. -/
structure State where
  regs : ℕ → ℕ
  fields : ℕ → ℕ → ℕ
  counts : Counts ℕ

namespace State

/-- `set_reg`. -/
def setReg (dst w : ℕ) (st : State) : State := { st with regs := Function.update st.regs dst w }

/-- `set_field` of the tuple at `tpl`. -/
def setField (tpl field w : ℕ) (st : State) : State :=
  { st with fields := Function.update st.fields tpl (Function.update (st.fields tpl) field w) }

/-- `get_field` of the tuple at `tpl`. -/
def getField (tpl field : ℕ) (st : State) : ℕ := st.fields tpl field

@[simp] theorem getField_setField (tpl field w : ℕ) (st : State) :
    (st.setField tpl field w).getField tpl field = w := by
  show Function.update st.fields tpl (Function.update (st.fields tpl) field w) tpl field = w
  rw [Function.update_self, Function.update_self]

end State

variable (M : RuntimeObjs) (code : Code) (pc : ℕ)

/-- `pcounter_reg`. -/
def pcounterReg (pc : ℕ) : ℕ := byteGet code pc 0

/-- `val_field_num`. -/
def valFieldNum (pc : ℕ) : ℕ := byteGet code pc 0

/-- `get_tuple_field`: the tuple in `val_field_reg`. -/
def getTupleField (st : State) (pc : ℕ) : ℕ := st.regs (byteGet code pc 1 % 2 ^ 5)

/-- `struct_val_idx`. -/
def structValIdx : ℕ := byteGet code pc instrSize

/-- `struct1::get_data`. -/
def getData (a idx : ℕ) (st : State) : Option ℕ :=
  if a ∈ st.counts.live then
    match M.obj a with
    | .struct _ data => data[idx]?
    | _ => none
  else none

/-- `do_increment_runtime` with `FIELD_STRUCT`. -/
def incrementStruct (w : ℕ) (st : State) : Option State :=
  (M.doIncrementRuntime w (.struct []) st.counts).map fun counts => { st with counts }

/-! ## The interpreter -/

/-- `execute_struct_valrr`. -/
def executeStructValrr (st : State) : Option State := do
  let idx := structValIdx code pc
  let src := pcounterReg code (pc + instrSize + countSize)
  let dst := pcounterReg code (pc + instrSize + countSize + regValSize)
  let w ← getData M (st.regs src) idx st
  return st.setReg dst w

/-- `execute_struct_valfr`. -/
def executeStructValfr (st : State) : Option State := do
  let idx := structValIdx code pc
  let tuple := getTupleField code st (pc + instrSize + countSize)
  let field := valFieldNum code (pc + instrSize + countSize)
  let dst := pcounterReg code (pc + instrSize + countSize + fieldSize)
  let w ← getData M (st.getField tuple field) idx st
  return st.setReg dst w

/-- `execute_struct_valrf`. -/
def executeStructValrf (st : State) : Option State := do
  let idx := structValIdx code pc
  let src := pcounterReg code (pc + instrSize + countSize)
  let tuple := getTupleField code st (pc + instrSize + countSize + regValSize)
  let field := valFieldNum code (pc + instrSize + countSize + regValSize)
  let w ← getData M (st.regs src) idx st
  return st.setField tuple field w

/-- `execute_struct_valrfr`. -/
def executeStructValrfr (st : State) : Option State := do
  let idx := structValIdx code pc
  let src := pcounterReg code (pc + instrSize + countSize)
  let tuple := getTupleField code st (pc + instrSize + countSize + regValSize)
  let field := valFieldNum code (pc + instrSize + countSize + regValSize)
  let w ← getData M (st.regs src) idx st
  let st := st.setField tuple field w
  incrementStruct M (st.getField tuple field) st

/-- `execute_struct_valff`.  The index is not read. -/
def executeStructValff (st : State) : Option State :=
  let src := getTupleField code st (pc + instrSize + countSize)
  let fieldSrc := valFieldNum code (pc + instrSize + countSize)
  let dst := getTupleField code st (pc + instrSize + countSize + fieldSize)
  let fieldDst := valFieldNum code (pc + instrSize + countSize + fieldSize)
  some (st.setField dst fieldDst (st.getField src fieldSrc))

/-- `execute_struct_valffr`.  The index is not read. -/
def executeStructValffr (st : State) : Option State :=
  let src := getTupleField code st (pc + instrSize + countSize)
  let fieldSrc := valFieldNum code (pc + instrSize + countSize)
  let dst := getTupleField code st (pc + instrSize + countSize + fieldSize)
  let fieldDst := valFieldNum code (pc + instrSize + countSize + fieldSize)
  let st := st.setField dst fieldDst (st.getField src fieldSrc)
  incrementStruct M (st.getField dst fieldDst) st

/-- The six instructions. -/
inductive StructValForm where
  | rr | fr | rf | rfr | ff | ffr

namespace StructValForm

/-- The case of `execute`. -/
def execute : StructValForm → State → Option State
  | rr => executeStructValrr M code pc
  | fr => executeStructValfr M code pc
  | rf => executeStructValrf M code pc
  | rfr => executeStructValrfr M code pc
  | ff => executeStructValff code pc
  | ffr => executeStructValffr M code pc

/-! ## What the instructions are for -/

/-- The struct is in a field. -/
def fromField : StructValForm → Bool
  | fr | ff | ffr => true
  | rr | rf | rfr => false

/-- The component goes to a field. -/
def toField : StructValForm → Bool
  | rf | rfr | ff | ffr => true
  | rr | fr => false

/-- A reference is counted. -/
def counts : StructValForm → Bool
  | rfr | ffr => true
  | _ => false

/-- The struct operand. -/
def source (form : StructValForm) (st : State) : ℕ :=
  let operand := pc + instrSize + countSize
  if form.fromField then st.getField (getTupleField code st operand) (valFieldNum code operand)
  else st.regs (pcounterReg code operand)

/-- Stores a word in the destination operand, which follows the source operand. -/
def store (form : StructValForm) (w : ℕ) (st : State) : State :=
  let operand := pc + instrSize + countSize + if form.fromField then fieldSize else regValSize
  if form.toField then st.setField (getTupleField code st operand) (valFieldNum code operand) w
  else st.setReg (pcounterReg code operand) w

/-- One more reference to what a word of type `t` refers to. -/
def count (t : FieldType) (w : ℕ) (st : State) : Option State :=
  if M.counted t w then (take w st.counts).map fun counts => { st with counts } else some st

/-- The component `w`, of type `t`, is stored, and the counting forms count a reference on it. -/
def specification (form : StructValForm) (t : FieldType) (w : ℕ) (st : State) : Option State :=
  let st := form.store code pc w st
  if form.counts then count M t w st else some st

/-- The source `a`, its component `w` and the type of the component are such that the instruction
does what it is for. -/
def Agrees (form : StructValForm) (a : ℕ) (t : FieldType) (w : ℕ) : Prop :=
  match form with
  | rr | fr | rf => True
  | rfr => w = 0 ∨ M.counted t w = true
  | ff => w = a
  | ffr => w = a ∧ M.counted t w = true

end StructValForm

/-- A struct of the type `types`: each component that refers to something refers to a live
object. -/
structure StructValue (st : State) (a : ℕ) (types : List FieldType) (data : List ℕ) : Prop where
  ne_zero : a ≠ 0
  live : a ∈ st.counts.live
  obj : M.obj a = .struct types data
  length : data.length = types.length
  component : ∀ (idx : ℕ) (t : FieldType) (w : ℕ), types[idx]? = some t →
    data[idx]? = some w → M.counted t w = true → w ∈ st.counts.live

/-! ## When they agree -/

variable {M code pc} {st st' : State} {a w : ℕ} {t : FieldType} {types : List FieldType}
  {data : List ℕ}

theorem State.setField_inj {tpl field w w' : ℕ}
    (h : (st.setField tpl field w).fields = (st.setField tpl field w').fields) : w = w' := by
  have hfield : (st.setField tpl field w).getField tpl field =
      (st.setField tpl field w').getField tpl field := congrFun (congrFun h tpl) field
  rwa [getField_setField, getField_setField] at hfield

theorem StructValue.getData (h : StructValue M st a types data) {idx : ℕ}
    (hw : data[idx]? = some w) : getData M a idx st = some w := by
  rw [StructVal.getData, if_pos h.live, h.obj]
  exact hw

/-- A reference that is counted changes the counts. -/
theorem take_ne_self {s : Counts ℕ} : take w s ≠ some s := by
  intro h
  by_cases hw : w ∈ s.live
  · rw [take, if_pos hw] at h
    have hrefs := congrFun (congrArg Counts.refs (Option.some.inj h)) w
    have hsucc : s.refs w + 1 = s.refs w := (Function.update_self ..).symm.trans hrefs
    omega
  · rw [take, if_neg hw] at h
    exact absurd h (Option.some_ne_none _).symm

/-- Counting as for a struct and counting by the type. -/
theorem incrementStruct_eq_count_iff :
    incrementStruct M w st = StructValForm.count M t w st ↔ w = 0 ∨ M.counted t w = true := by
  unfold incrementStruct RuntimeObjs.doIncrementRuntime StructValForm.count
  by_cases hw : w = 0
  · subst hw
    have hcounted : M.counted t 0 = false := by simp [RuntimeObjs.counted]
    simp [hcounted]
  · by_cases hcounted : M.counted t w = true
    · simp [hw, hcounted]
    · rw [if_neg hw, if_neg hcounted]
      refine iff_of_false (fun h => ?_) (not_or.2 ⟨hw, hcounted⟩)
      obtain ⟨counts, htake, hst⟩ := Option.map_eq_some_iff.1 h
      have hcounts : counts = st.counts := congrArg State.counts hst
      exact take_ne_self (hcounts ▸ htake)

theorem fields_of_incrementStruct (h : incrementStruct M w st = some st') :
    st'.fields = st.fields := by
  obtain ⟨counts, -, rfl⟩ := Option.map_eq_some_iff.1 h
  rfl

theorem fields_of_count (h : StructValForm.count M t w st = some st') : st'.fields = st.fields := by
  unfold StructValForm.count at h
  split at h
  · obtain ⟨counts, -, rfl⟩ := Option.map_eq_some_iff.1 h
    rfl
  · rw [Option.some.inj h]

/-- The count of a component of a struct is taken. -/
theorem count_eq_some (hlive : M.counted t w = true → w ∈ st.counts.live) :
    ∃ st', StructValForm.count M t w st = some st' := by
  unfold StructValForm.count
  by_cases hcounted : M.counted t w = true
  · rw [if_pos hcounted, take, if_pos (hlive hcounted)]
    exact ⟨_, rfl⟩
  · rw [if_neg hcounted]
    exact ⟨_, rfl⟩

namespace StructValForm

@[simp] theorem counts_store (form : StructValForm) (w : ℕ) (st : State) :
    (form.store code pc w st).counts = st.counts := by
  cases form <;> rfl

/-- The specification is defined on the components of a struct. -/
theorem exists_specification (form : StructValForm)
    (hlive : M.counted t w = true → w ∈ st.counts.live) :
    ∃ st', form.specification M code pc t w st = some st' := by
  unfold specification
  split
  · exact count_eq_some (by rwa [counts_store])
  · exact ⟨_, rfl⟩

/-- **One instruction** and its purpose, on a component of a struct. -/
theorem execute_eq_specification_iff (form : StructValForm)
    (h : StructValue M st (form.source code pc st) types data)
    (ht : types[structValIdx code pc]? = some t) (hw : data[structValIdx code pc]? = some w) :
    form.execute M code pc st = form.specification M code pc t w st ↔
      form.Agrees M (form.source code pc st) t w := by
  have hdata := h.getData hw
  have hlive := h.component _ t w ht hw
  cases form with
  | rr =>
    refine iff_of_true ?_ trivial
    show (getData M (rr.source code pc st) _ st).bind (fun w => some (rr.store code pc w st)) = _
    rw [hdata]
    rfl
  | fr =>
    refine iff_of_true ?_ trivial
    show (getData M (fr.source code pc st) _ st).bind (fun w => some (fr.store code pc w st)) = _
    rw [hdata]
    rfl
  | rf =>
    refine iff_of_true ?_ trivial
    show (getData M (rf.source code pc st) _ st).bind (fun w => some (rf.store code pc w st)) = _
    rw [hdata]
    rfl
  | rfr =>
    have hrun : execute M code pc rfr st = incrementStruct M w (rfr.store code pc w st) := by
      show (getData M (rfr.source code pc st) _ st).bind (fun w =>
        incrementStruct M (State.getField _ _ (State.setField _ _ w st))
          (rfr.store code pc w st)) = _
      rw [hdata, Option.bind_some, State.getField_setField]
    rw [hrun]
    exact incrementStruct_eq_count_iff
  | ff =>
    show some (ff.store code pc (ff.source code pc st) st) = some (ff.store code pc w st) ↔ _
    refine ⟨fun h => ?_, fun h => ?_⟩
    · exact (State.setField_inj (congrArg State.fields (Option.some.inj h))).symm
    · rw [show w = _ from h]
  | ffr =>
    have hrun : execute M code pc ffr st =
        incrementStruct M (ffr.source code pc st)
          (ffr.store code pc (ffr.source code pc st) st) := by
      show incrementStruct M (State.getField _ _ (State.setField _ _ _ st)) _ = _
      rw [State.getField_setField]
      rfl
    rw [hrun]
    constructor
    · intro heq
      obtain ⟨st', hspec⟩ : ∃ st', ffr.specification M code pc t w st = some st' :=
        exists_specification ffr hlive
      have hfields :=
        (fields_of_incrementStruct (heq.trans hspec)).symm.trans (fields_of_count hspec)
      have hsame : w = ffr.source code pc st := (State.setField_inj hfields).symm
      refine ⟨hsame, ?_⟩
      rw [← hsame] at heq
      exact (incrementStruct_eq_count_iff.1 heq).resolve_left (hsame ▸ h.ne_zero)
    · rintro ⟨hsame, hcounted⟩
      rw [← hsame]
      exact incrementStruct_eq_count_iff.2 (.inr hcounted)

/-- **The `STRUCT_VAL` instructions**: on component `idx` of a struct, each of the six is defined
and does what all of them are for exactly if `Agrees` holds. -/
theorem struct_val_iff (form : StructValForm)
    (h : StructValue M st (form.source code pc st) types data)
    (ht : types[structValIdx code pc]? = some t) (hw : data[structValIdx code pc]? = some w) :
    (∃ st', form.execute M code pc st = some st' ∧
      form.specification M code pc t w st = some st') ↔
        form.Agrees M (form.source code pc st) t w := by
  rw [← execute_eq_specification_iff form h ht hw]
  constructor
  · rintro ⟨st', hrun, hspec⟩
    rw [hrun, hspec]
  · intro heq
    obtain ⟨st', hspec⟩ : ∃ st', form.specification M code pc t w st = some st' :=
      exists_specification form (h.component _ t w ht hw)
    exact ⟨st', heq.trans hspec, hspec⟩

end StructValForm

/-! ## A struct of an integer and a list -/

/-- The struct at address 1 has the components 5 and the list at address 2. -/
def pairStruct : RuntimeObjs :=
  { obj := fun a => if a = 1 then .struct [.int, .list .int] [5, 2] else .cons .int 7 0
    isInitialNode := fun _ => false }

/-- Register 0 and the fields 0 of the tuples are the struct. -/
def pairState : State :=
  { regs := fun r => if r = 0 then 1 else 0
    fields := fun _ field => if field = 0 then 1 else 0
    counts := ⟨{1, 2}, fun _ => 1⟩ }

/-- Operands: a component, register 0 or field 0, register 1 or field 1. -/
def pairCode (idx : UInt8) : Code := fun a => if a = 1 then idx else if a = 3 ∨ a = 4 then 1 else 0

theorem structValue_pair : StructValue pairStruct pairState 1 [.int, .list .int] [5, 2] where
  ne_zero := by decide
  live := by decide
  obj := rfl
  length := rfl
  component := by
    rintro (_ | _ | idx) t w ht hw hcounted
    · obtain rfl := Option.some.inj ht
      exact absurd hcounted Bool.false_ne_true
    · obtain rfl := Option.some.inj hw
      decide
    · exact absurd ht (by simp)

/-- The list goes to field 1, and its second reference is counted. -/
theorem struct_val_rfr_list : ∃ st', st'.getField 0 1 = 2 ∧ st'.counts.refs 2 = 2 ∧
    StructValForm.execute pairStruct (pairCode 1) 0 .rfr pairState = some st' ∧
    StructValForm.specification pairStruct (pairCode 1) 0 .rfr (.list .int) 2 pairState =
      some st' := by
  have ht : [FieldType.int, .list .int][structValIdx (pairCode 1) 0]? = some (.list .int) := rfl
  have hw : [5, 2][structValIdx (pairCode 1) 0]? = some 2 := rfl
  obtain ⟨st', hrun, hspec⟩ :=
    (StructValForm.struct_val_iff .rfr structValue_pair ht hw).2 (.inr rfl)
  refine ⟨st', ?_, ?_, hrun, hspec⟩ <;> cases hspec <;> rfl

/-- **Between two fields** the struct is stored in place of its component; **a counted integer** is
taken for an address. -/
theorem struct_val_ff_rfr_fail :
    ((StructValForm.execute pairStruct (pairCode 0) 0 .ff pairState).map fun st =>
      st.getField 1 1) = some 1 ∧
    ((StructValForm.specification pairStruct (pairCode 0) 0 .ff .int 5 pairState).map fun st =>
      st.getField 1 1) = some 5 ∧
    (StructValForm.execute pairStruct (pairCode 0) 0 .rfr pairState).isNone = true ∧
    (StructValForm.specification pairStruct (pairCode 0) 0 .rfr .int 5 pairState).isSome = true := by
  decide

end StructVal
end Meld
