import Meld.Vm.InstrLength
import Meld.Vm.MatchObject

/-!
# The bytes of a match operand

`count_var_match_element` and `build_match_element` both read the operands of an iterate from the
code: the first to find the size of the table of a match object, the second to fill the object.
Where they throw and where they stop is up to each of them.

* `countVarMatchElement`, `buildMatchElement`: the two functions on the bytes.
* `decodeOperand`: the operand that the bytes encode.
* `countVarMatchElement_counts`: what the first function makes of an operand.
* `buildMatchElement_ok`, `decodeOperand_of_build`: what the second makes of it.
* `agree_iff`: they agree unless a register is to be matched with a field of type float.
-/

namespace Meld
namespace MatchBytes

open Instr

/-- How a reader ends early: with a `vm_exec_error`, in an assertion, or not within the depth that
was allowed. -/
inductive MatchError where
  | throw (msg : String)
  | assertion
  | depth
  deriving DecidableEq

variable (code : Code)

/-! ## The two functions -/

/-- `val_reg`. -/
def valReg (val : ℕ) : ℕ := val % 2 ^ 5

/-- `val_field_reg`. -/
def valFieldReg (pc : ℕ) : ℕ := byteGet code pc 1 % 2 ^ 5

/-- `val_field_num`. -/
def valFieldNum (pc : ℕ) : ℕ := byteGet code pc 0

/-- `pcounter_float`, `pcounter_node`: eight bytes, little endian. -/
def pcounterWord (pc : ℕ) : ℕ := pcounterUint code pc + 2 ^ 32 * pcounterUint code (pc + 4)

/-- `count_var_match_element`, with a bound for its recursion. -/
def countVarMatchElement : ℕ → ℕ → FieldType → ℕ → Except MatchError (ℕ × ℕ)
  | 0, _, _, _ => .error .depth
  | _ + 1, val, .int, pc =>
    if valIsReg val then .ok (1, pc)
    else if val = 0x02 then .ok (1, pc + fieldSize)
    else if val = 0x01 then .ok (0, pc + intSize)
    else .error (.throw "cannot use value for matching int")
  | _ + 1, val, .float, pc =>
    if valIsReg val then .ok (1, pc)
    else if val = 0x02 then .ok (1, pc + fieldSize)
    else if val = 0x00 then .ok (0, pc + floatSize)
    else .error (.throw "cannot use value for matching float")
  | _ + 1, val, .node, pc =>
    if valIsReg val then .ok (1, pc)
    else if val = 0x02 then .ok (1, pc + fieldSize)
    else if val = 0x03 then .ok (1, pc)
    else if val = 0x05 then .ok (0, pc + nodeSize)
    else .error (.throw "cannot use value for matching node")
  | fuel + 1, val, .list sub, pc =>
    if val = 0x0F then .ok (0, pc)
    else if val = 0x04 then .ok (0, pc)
    else if val = 0x0D then .ok (0, pc)
    else if val = 0x0E then do
      let head := valGet code pc 0
      let (ret, pc) ← (if head = 0x0F then .ok (0, pc + 1)
        else countVarMatchElement fuel head sub (pc + 1))
      let tail := valGet code pc 0
      let (ret', pc) ← (if tail = 0x0F then .ok (0, pc + 1)
        else countVarMatchElement fuel tail (.list sub) (pc + 1))
      return (ret + ret', pc)
    else .error (.throw "invalid field type for ITERATE/FIELD_LIST")
  | _ + 1, _, _, _ => .error (.throw "invalid field type for ITERATE")

/-- `add_variable_match`, whose assertion is about the size of the table. -/
def addVariableMatch (b : MatchBuild) (vmt : MatchTemplate) (pc : ℕ) :
    Except MatchError (MatchBuild × ℕ) :=
  match b.addVariableMatch vmt with
  | some b => .ok (b, pc)
  | none => .error .assertion

variable (st : MatchState)

/-- `build_match_element`, with a bound for its recursion. -/
def buildMatchElement : ℕ → ℕ → FieldType → MatchLoc → ℕ → MatchBuild →
    Except MatchError (MatchBuild × ℕ)
  | 0, _, _, _, _, _ => .error .depth
  | _ + 1, val, .int, mf, pc, b =>
    if valIsReg val then
      let reg := valReg val
      addVariableMatch (b.matchInt mf (valueAt .int (st.getReg reg))) ⟨mf, .reg reg⟩ pc
    else if val = 0x02 then
      let reg := valFieldReg code pc
      let field := valFieldNum code pc
      addVariableMatch (b.matchInt mf (valueAt .int (st.getField reg field))) ⟨mf, .field reg field⟩
        (pc + fieldSize)
    else if val = 0x01 then .ok (b.matchInt mf (pcounterUint code pc), pc + intSize)
    else .error (.throw "cannot use value for matching int")
  | _ + 1, val, .float, mf, pc, b =>
    if val = 0x02 then
      let reg := valFieldReg code pc
      let field := valFieldNum code pc
      addVariableMatch (b.matchFloat mf (st.getField reg field)) ⟨mf, .field reg field⟩
        (pc + fieldSize)
    else if val = 0x00 then .ok (b.matchFloat mf (pcounterWord code pc), pc + floatSize)
    else .error (.throw "cannot use value for matching float")
  | _ + 1, val, .node, mf, pc, b =>
    if valIsReg val then
      let reg := valReg val
      addVariableMatch (b.matchNode mf (st.getReg reg)) ⟨mf, .reg reg⟩ pc
    else if val = 0x02 then
      let reg := valFieldReg code pc
      let field := valFieldNum code pc
      addVariableMatch (b.matchNode mf (st.getField reg field)) ⟨mf, .field reg field⟩
        (pc + fieldSize)
    else if val = 0x03 then addVariableMatch (b.matchNode mf st.host) ⟨mf, .host⟩ pc
    else if val = 0x05 then .ok (b.matchNode mf (pcounterWord code pc), pc + nodeSize)
    else .error (.throw "cannot use value for matching node")
  | fuel + 1, val, .list sub, mf, pc, b =>
    if val = 0x0F then .ok (b.matchAny mf, pc)
    else if val = 0x04 then .ok (b.matchNil mf, pc)
    else if val = 0x0D then .ok (b.matchNonNil mf, pc)
    else if val = 0x0E then do
      let lm := b.fresh
      let b := b.newList sub
      let head := valGet code pc 0
      let (b, pc) ← (if head = 0x0F then .ok (b, pc + 1)
        else buildMatchElement fuel head sub (.head lm) (pc + 1) b)
      let tail := valGet code pc 0
      let (b, pc) ← (if tail = 0x0F then .ok (b, pc + 1)
        else buildMatchElement fuel tail (.list sub) (.tail lm) (pc + 1) b)
      return (b.matchList mf lm (.list sub), pc)
    else .error (.throw "invalid field type for ITERATE/FIELD_LIST")
  | _ + 1, _, _, _, _, _ => .error (.throw "invalid field type for ITERATE")

/-! ## The operand -/

/-- The operand that the match value `val` and the bytes at `pc` encode for a field of a type, and
where it ends.  A register is an operand for fields of type float as well. -/
def decodeOperand : ℕ → ℕ → FieldType → ℕ → Option (MatchOperand × ℕ)
  | 0, _, _, _ => none
  | fuel + 1, val, t, pc =>
    match t with
    | .int =>
      if valIsReg val then some (.reg (valReg val), pc)
      else if val = 0x02 then
        some (.field (valFieldReg code pc) (valFieldNum code pc), pc + fieldSize)
      else if val = 0x01 then some (.int (pcounterUint code pc), pc + intSize)
      else none
    | .float =>
      if valIsReg val then some (.reg (valReg val), pc)
      else if val = 0x02 then
        some (.field (valFieldReg code pc) (valFieldNum code pc), pc + fieldSize)
      else if val = 0x00 then some (.float (pcounterWord code pc), pc + floatSize)
      else none
    | .node =>
      if valIsReg val then some (.reg (valReg val), pc)
      else if val = 0x02 then
        some (.field (valFieldReg code pc) (valFieldNum code pc), pc + fieldSize)
      else if val = 0x03 then some (.host, pc)
      else if val = 0x05 then some (.node (pcounterWord code pc), pc + nodeSize)
      else none
    | .list sub =>
      if val = 0x0F then some (.any, pc)
      else if val = 0x04 then some (.nil, pc)
      else if val = 0x0D then some (.nonNil, pc)
      else if val = 0x0E then do
        let head := valGet code pc 0
        let (x, pc) ← (if head = 0x0F then some (.any, pc + 1)
          else decodeOperand fuel head sub (pc + 1))
        let tail := valGet code pc 0
        let (y, pc) ← (if tail = 0x0F then some (.any, pc + 1)
          else decodeOperand fuel tail (.list sub) (pc + 1))
        return (.list x y, pc)
      else none
    | _ => none

/-- No register is to be matched with a field of type float. -/
def noFloatReg : MatchOperand → FieldType → Bool
  | .reg _, .float => false
  | .list x y, .list sub => noFloatReg x sub && noFloatReg y (.list sub)
  | _, _ => true

variable {code st} {fuel val pc pc' n : ℕ} {t sub : FieldType} {op : MatchOperand} {mf : MatchLoc}
  {b b' : MatchBuild}

/-- The head or the tail of a list operand. -/
def decodePart (code : Code) (fuel : ℕ) (t : FieldType) (pc : ℕ) : Option (MatchOperand × ℕ) :=
  if valGet code pc 0 = 0x0F then some (.any, pc + 1)
  else decodeOperand code fuel (valGet code pc 0) t (pc + 1)

theorem decodeOperand_list (fuel : ℕ) (sub : FieldType) (pc : ℕ) :
    decodeOperand code (fuel + 1) 0x0E (.list sub) pc = (decodePart code fuel sub pc).bind fun x =>
      (decodePart code fuel (.list sub) x.2).bind fun y => some (.list x.1 y.1, y.2) := rfl

/-! ## Counting -/

/-- The count of an operand, or an error if there is none. -/
def Counts (r : Except MatchError (ℕ × ℕ)) : Option (MatchOperand × ℕ) → Prop
  | some x => r = .ok (x.1.numVariables, x.2)
  | none => ∃ e, r = .error e

theorem counts_of_eq {r : Except MatchError (ℕ × ℕ)} {o : Option (MatchOperand × ℕ)}
    (h : Counts r o) (ho : o = some (op, pc')) : r = .ok (op.numVariables, pc') := by
  subst ho
  exact h

/-- The count of the head or the tail of a list operand. -/
def countPart (code : Code) (fuel : ℕ) (t : FieldType) (pc : ℕ) : Except MatchError (ℕ × ℕ) :=
  if valGet code pc 0 = 0x0F then .ok (0, pc + 1)
  else countVarMatchElement code fuel (valGet code pc 0) t (pc + 1)

theorem countVarMatchElement_list (fuel : ℕ) (sub : FieldType) (pc : ℕ) :
    countVarMatchElement code (fuel + 1) 0x0E (.list sub) pc =
      (countPart code fuel sub pc).bind fun x =>
        (countPart code fuel (.list sub) x.2).bind fun y => .ok (x.1 + y.1, y.2) := rfl

theorem Counts.part (ih : ∀ val t pc,
    Counts (countVarMatchElement code fuel val t pc) (decodeOperand code fuel val t pc))
    (t : FieldType) (pc : ℕ) : Counts (countPart code fuel t pc) (decodePart code fuel t pc) := by
  unfold countPart decodePart
  split
  · rfl
  · exact ih _ t (pc + 1)

/-- The count of a list operand is the sum of the counts of its head and its tail. -/
theorem Counts.list (ih : ∀ t pc, Counts (countPart code fuel t pc) (decodePart code fuel t pc))
    (sub : FieldType) (pc : ℕ) : Counts (countVarMatchElement code (fuel + 1) 0x0E (.list sub) pc)
      (decodeOperand code (fuel + 1) 0x0E (.list sub) pc) := by
  rw [countVarMatchElement_list, decodeOperand_list]
  have hhead := ih sub pc
  cases hx : decodePart code fuel sub pc with
  | none =>
    rw [hx] at hhead
    obtain ⟨e, he⟩ := hhead
    exact ⟨e, by rw [he]; rfl⟩
  | some x =>
    rw [counts_of_eq hhead hx]
    have htail := ih (.list sub) x.2
    show Counts ((countPart code fuel (.list sub) x.2).bind _)
      ((decodePart code fuel (.list sub) x.2).bind _)
    cases hy : decodePart code fuel (.list sub) x.2 with
    | none =>
      rw [hy] at htail
      obtain ⟨e, he⟩ := htail
      exact ⟨e, by rw [he]; rfl⟩
    | some y =>
      rw [counts_of_eq htail hy]
      rfl

/-- **`count_var_match_element`** counts the variables of the operand, and ends where it ends. -/
theorem countVarMatchElement_counts (fuel val : ℕ) (t : FieldType) (pc : ℕ) :
    Counts (countVarMatchElement code fuel val t pc) (decodeOperand code fuel val t pc) := by
  induction fuel generalizing val t pc with
  | zero => exact ⟨_, rfl⟩
  | succ fuel ih =>
    cases t with
    | int | float =>
      unfold countVarMatchElement decodeOperand
      dsimp only
      split_ifs
      · rfl
      · rfl
      · rfl
      · exact ⟨_, rfl⟩
    | node =>
      unfold countVarMatchElement decodeOperand
      dsimp only
      split_ifs
      · rfl
      · rfl
      · rfl
      · rfl
      · exact ⟨_, rfl⟩
    | list sub =>
      by_cases hlist : val = 0x0E
      · subst hlist
        exact Counts.list (Counts.part ih) sub pc
      · unfold countVarMatchElement decodeOperand
        dsimp only
        split_ifs
        · rfl
        · rfl
        · rfl
        · exact ⟨_, rfl⟩
    | _ => exact ⟨_, rfl⟩

/-! ## Building -/

variable (code st) in
/-- The head or the tail of a list pattern. -/
def buildPart (fuel : ℕ) (t : FieldType) (mf : MatchLoc) (pc : ℕ) (b : MatchBuild) :
    Except MatchError (MatchBuild × ℕ) :=
  if valGet code pc 0 = 0x0F then .ok (b, pc + 1)
  else buildMatchElement code st fuel (valGet code pc 0) t mf (pc + 1) b

theorem buildMatchElement_list (fuel : ℕ) (sub : FieldType) (mf : MatchLoc) (pc : ℕ)
    (b : MatchBuild) :
    buildMatchElement code st (fuel + 1) 0x0E (.list sub) mf pc b =
      (buildPart code st fuel sub (.head b.fresh) pc (b.newList sub)).bind fun x =>
        (buildPart code st fuel (.list sub) (.tail b.fresh) x.2 x.1).bind fun y =>
          .ok (y.1.matchList mf b.fresh (.list sub), y.2) := rfl

/-- What building did to the table: it has as many templates more. -/
structure Added (b b' : MatchBuild) (n : ℕ) : Prop where
  length : b'.vmt.length = b.vmt.length + n
  varSize : b'.varSize = b.varSize

/-- A constant adds none. -/
theorem Added.zero (hvmt : b'.vmt = b.vmt) (hsize : b'.varSize = b.varSize) : Added b b' 0 :=
  ⟨congrArg List.length hvmt, hsize⟩

/-- A template is added, if there is room. -/
theorem addVariableMatch_ok {vmt : MatchTemplate} (hvmt : b'.vmt = b.vmt)
    (hsize : b'.varSize = b.varSize) (hroom : b.vmt.length + 1 ≤ b.varSize) :
    ∃ b'', addVariableMatch b' vmt pc = .ok (b'', pc) ∧ Added b b'' 1 := by
  have hlt : b'.vmt.length < b'.varSize := by
    rw [hvmt, hsize]
    exact hroom
  refine ⟨{ b' with vmt := b'.vmt ++ [vmt] }, ?_, ⟨?_, hsize⟩⟩
  · rw [addVariableMatch, MatchBuild.addVariableMatch, if_pos hlt]
  · show (b'.vmt ++ [vmt]).length = _
    rw [List.length_append, hvmt]
    rfl

/-- Building succeeds on every operand without a register for a float, with room in the table, for
a bound of `fuel`. -/
def Builds (code : Code) (st : MatchState) (fuel : ℕ) : Prop :=
  ∀ ⦃val pc pc' : ℕ⦄ ⦃t : FieldType⦄ ⦃op : MatchOperand⦄ (mf : MatchLoc) ⦃b : MatchBuild⦄,
    decodeOperand code fuel val t pc = some (op, pc') → noFloatReg op t = true →
    b.vmt.length + op.numVariables ≤ b.varSize →
    ∃ b', buildMatchElement code st fuel val t mf pc b = .ok (b', pc') ∧
      Added b b' op.numVariables

theorem Builds.part (ih : Builds code st fuel) (mf : MatchLoc) (b : MatchBuild)
    {x : MatchOperand × ℕ} (hx : decodePart code fuel t pc = some x)
    (hfloat : noFloatReg x.1 t = true) (hroom : b.vmt.length + x.1.numVariables ≤ b.varSize) :
    ∃ b', buildPart code st fuel t mf pc b = .ok (b', x.2) ∧ Added b b' x.1.numVariables := by
  unfold decodePart at hx
  unfold buildPart
  split_ifs at hx ⊢
  · cases hx
    exact ⟨b, rfl, .zero rfl rfl⟩
  · exact ih mf hx hfloat hroom

/-- A list pattern, from its head and its tail. -/
theorem Builds.list (ih : Builds code st fuel) (mf : MatchLoc)
    (hop : decodeOperand code (fuel + 1) 0x0E (.list sub) pc = some (op, pc'))
    (hfloat : noFloatReg op (.list sub) = true)
    (hroom : b.vmt.length + op.numVariables ≤ b.varSize) :
    ∃ b', buildMatchElement code st (fuel + 1) 0x0E (.list sub) mf pc b = .ok (b', pc') ∧
      Added b b' op.numVariables := by
  rw [decodeOperand_list] at hop
  obtain ⟨x, hx, hop⟩ := Option.bind_eq_some_iff.1 hop
  obtain ⟨y, hy, hop⟩ := Option.bind_eq_some_iff.1 hop
  cases hop
  obtain ⟨hfloat₁, hfloat₂⟩ := Bool.and_eq_true_iff.1 hfloat
  have hsum : b.vmt.length + (x.1.numVariables + y.1.numVariables) ≤ b.varSize := hroom
  obtain ⟨b₁, hrun₁, hadded₁⟩ := ih.part (.head b.fresh) (b.newList sub) hx hfloat₁ (by
    show b.vmt.length + _ ≤ b.varSize
    omega)
  obtain ⟨b₂, hrun₂, hadded₂⟩ := ih.part (.tail b.fresh) b₁ hy hfloat₂ (by
    rw [hadded₁.length, hadded₁.varSize]
    show b.vmt.length + _ + _ ≤ b.varSize
    omega)
  refine ⟨b₂.matchList mf b.fresh (.list sub), ?_, ⟨?_, ?_⟩⟩
  · rw [buildMatchElement_list, hrun₁]
    show (buildPart code st fuel (.list sub) (.tail b.fresh) x.2 b₁).bind _ = _
    rw [hrun₂]
    rfl
  · show b₂.vmt.length = b.vmt.length + (x.1.numVariables + y.1.numVariables)
    rw [hadded₂.length, hadded₁.length, Nat.add_assoc]
    rfl
  · exact hadded₂.varSize.trans hadded₁.varSize

/-- **`build_match_element`** on an operand without a register for a float, with room in the
table. -/
theorem buildMatchElement_ok (fuel : ℕ) : Builds code st fuel := by
  induction fuel with
  | zero => exact fun _ _ _ _ _ _ _ hop => absurd hop (Option.some_ne_none _).symm
  | succ fuel ih =>
    intro val pc pc' t op mf b hop hfloat hroom
    cases t with
    | int =>
      unfold decodeOperand at hop
      unfold buildMatchElement
      dsimp only at hop ⊢
      split_ifs at hop ⊢
      · cases hop
        exact addVariableMatch_ok rfl rfl hroom
      · cases hop
        exact addVariableMatch_ok rfl rfl hroom
      · cases hop
        exact ⟨_, rfl, .zero rfl rfl⟩
    | float =>
      unfold decodeOperand at hop
      unfold buildMatchElement
      dsimp only at hop ⊢
      by_cases hreg : valIsReg val = true
      · rw [if_pos hreg] at hop
        cases hop
        exact absurd hfloat Bool.false_ne_true
      · rw [if_neg hreg] at hop
        split_ifs at hop ⊢
        · cases hop
          exact addVariableMatch_ok rfl rfl hroom
        · cases hop
          exact ⟨_, rfl, .zero rfl rfl⟩
    | node =>
      unfold decodeOperand at hop
      unfold buildMatchElement
      dsimp only at hop ⊢
      split_ifs at hop ⊢
      · cases hop
        exact addVariableMatch_ok rfl rfl hroom
      · cases hop
        exact addVariableMatch_ok rfl rfl hroom
      · cases hop
        exact addVariableMatch_ok rfl rfl hroom
      · cases hop
        exact ⟨_, rfl, .zero rfl rfl⟩
    | list sub =>
      by_cases hlist : val = 0x0E
      · subst hlist
        exact ih.list mf hop hfloat hroom
      · unfold decodeOperand at hop
        unfold buildMatchElement
        dsimp only at hop ⊢
        split_ifs at hop ⊢
        · cases hop
          exact ⟨_, rfl, .zero rfl rfl⟩
        · cases hop
          exact ⟨_, rfl, .zero rfl rfl⟩
        · cases hop
          exact ⟨_, rfl, .zero rfl rfl⟩
    | _ => exact absurd hop (Option.some_ne_none _).symm

theorem eq_of_addVariableMatch {vmt : MatchTemplate}
    (h : addVariableMatch b vmt pc = .ok (b', pc')) : pc = pc' := by
  unfold addVariableMatch at h
  split at h
  · cases h
    rfl
  · cases h

theorem bind_eq_ok {α β : Type*} {r : Except MatchError α} {f : α → Except MatchError β} {y : β}
    (h : r.bind f = .ok y) : ∃ x, r = .ok x ∧ f x = .ok y := by
  cases r with
  | error e => cases h
  | ok x => exact ⟨x, rfl, h⟩

/-- What is accepted for a bound of `fuel` is an operand without a register for a float. -/
def Accepts (code : Code) (st : MatchState) (fuel : ℕ) : Prop :=
  ∀ ⦃val pc pc' : ℕ⦄ ⦃t : FieldType⦄ ⦃mf : MatchLoc⦄ ⦃b b' : MatchBuild⦄,
    buildMatchElement code st fuel val t mf pc b = .ok (b', pc') →
    ∃ op, decodeOperand code fuel val t pc = some (op, pc') ∧ noFloatReg op t = true

theorem Accepts.part (ih : Accepts code st fuel)
    (h : buildPart code st fuel t mf pc b = .ok (b', pc')) :
    ∃ op, decodePart code fuel t pc = some (op, pc') ∧ noFloatReg op t = true := by
  unfold buildPart at h
  unfold decodePart
  split_ifs at h ⊢
  · cases h
    exact ⟨.any, rfl, rfl⟩
  · exact ih h

theorem Accepts.list (ih : Accepts code st fuel)
    (h : buildMatchElement code st (fuel + 1) 0x0E (.list sub) mf pc b = .ok (b', pc')) :
    ∃ op, decodeOperand code (fuel + 1) 0x0E (.list sub) pc = some (op, pc') ∧
      noFloatReg op (.list sub) = true := by
  rw [buildMatchElement_list] at h
  obtain ⟨⟨b₁, pc₁⟩, hrun₁, h⟩ := bind_eq_ok h
  obtain ⟨⟨b₂, pc₂⟩, hrun₂, h⟩ := bind_eq_ok h
  cases h
  obtain ⟨x, hx, hfloat₁⟩ := ih.part hrun₁
  obtain ⟨y, hy, hfloat₂⟩ := ih.part hrun₂
  refine ⟨.list x y, ?_, Bool.and_eq_true_iff.2 ⟨hfloat₁, hfloat₂⟩⟩
  rw [decodeOperand_list, hx, Option.bind_some, hy]
  rfl

/-- **What `build_match_element` accepts** is an operand without a register for a float. -/
theorem decodeOperand_of_build (fuel : ℕ) : Accepts code st fuel := by
  induction fuel with
  | zero => exact fun _ _ _ _ _ _ _ h => by cases h
  | succ fuel ih =>
    intro val pc pc' t mf b b' h
    cases t with
    | int =>
      unfold buildMatchElement at h
      unfold decodeOperand
      dsimp only at h ⊢
      split_ifs at h ⊢
      · obtain rfl := eq_of_addVariableMatch h
        exact ⟨_, rfl, rfl⟩
      · obtain rfl := eq_of_addVariableMatch h
        exact ⟨_, rfl, rfl⟩
      · cases h
        exact ⟨_, rfl, rfl⟩
    | float =>
      unfold buildMatchElement at h
      unfold decodeOperand
      dsimp only at h ⊢
      have hreg : ¬ valIsReg val = true := by
        intro hreg
        split_ifs at h with hfield hfloat
        · exact absurd (hfield ▸ hreg) (by decide)
        · exact absurd (hfloat ▸ hreg) (by decide)
      rw [if_neg hreg]
      split_ifs at h ⊢
      · obtain rfl := eq_of_addVariableMatch h
        exact ⟨_, rfl, rfl⟩
      · cases h
        exact ⟨_, rfl, rfl⟩
    | node =>
      unfold buildMatchElement at h
      unfold decodeOperand
      dsimp only at h ⊢
      split_ifs at h ⊢
      · obtain rfl := eq_of_addVariableMatch h
        exact ⟨_, rfl, rfl⟩
      · obtain rfl := eq_of_addVariableMatch h
        exact ⟨_, rfl, rfl⟩
      · obtain rfl := eq_of_addVariableMatch h
        exact ⟨_, rfl, rfl⟩
      · cases h
        exact ⟨_, rfl, rfl⟩
    | list sub =>
      by_cases hlist : val = 0x0E
      · subst hlist
        exact ih.list h
      · unfold buildMatchElement at h
        unfold decodeOperand
        dsimp only at h ⊢
        split_ifs at h ⊢
        · cases h
          exact ⟨.any, rfl, rfl⟩
        · cases h
          exact ⟨.nil, rfl, rfl⟩
        · cases h
          exact ⟨.nonNil, rfl, rfl⟩
    | _ => cases h

theorem bind_eq_error {α β : Type*} {r : Except MatchError α} {f : α → Except MatchError β}
    {e : MatchError} (h : r.bind f = .error e) :
    r = .error e ∨ ∃ x, r = .ok x ∧ f x = .error e := by
  cases r with
  | error e' =>
    cases h
    exact .inl rfl
  | ok x => exact .inr ⟨x, rfl, h⟩

theorem addVariableMatch_ne_depth {vmt : MatchTemplate} :
    addVariableMatch b vmt pc ≠ .error .depth := by
  unfold addVariableMatch
  split
  · exact fun h => by cases h
  · exact fun h => by cases h

/-- Where a part is built, it is counted. -/
theorem countPart_of_build (h : buildPart code st fuel t mf pc b = .ok (b', pc')) :
    ∃ n, countPart code fuel t pc = .ok (n, pc') := by
  obtain ⟨op, hop, -⟩ := (decodeOperand_of_build fuel).part h
  exact ⟨_, counts_of_eq (Counts.part (countVarMatchElement_counts fuel) t pc) hop⟩

/-- A list pattern is too deep for building where its head or its tail is. -/
theorem count_depth_of_list (ih : ∀ {t : FieldType} {mf : MatchLoc} {pc : ℕ} {b : MatchBuild},
      buildPart code st fuel t mf pc b = .error .depth → countPart code fuel t pc = .error .depth)
    (h : buildMatchElement code st (fuel + 1) 0x0E (.list sub) mf pc b = .error .depth) :
    countVarMatchElement code (fuel + 1) 0x0E (.list sub) pc = .error .depth := by
  rw [buildMatchElement_list] at h
  rw [countVarMatchElement_list]
  rcases bind_eq_error h with h | ⟨⟨b₁, pc₁⟩, hrun₁, h⟩
  · rw [ih h]
    rfl
  · obtain ⟨n, hn⟩ := countPart_of_build hrun₁
    rw [hn]
    rcases bind_eq_error h with h | ⟨_, _, h⟩
    · show (countPart code fuel (.list sub) pc₁).bind _ = _
      rw [ih h]
      rfl
    · cases h

/-- Building goes as deep as counting does. -/
theorem count_depth_of_build (fuel : ℕ) {val pc : ℕ} {t : FieldType} {mf : MatchLoc}
    {b : MatchBuild} (h : buildMatchElement code st fuel val t mf pc b = .error .depth) :
    countVarMatchElement code fuel val t pc = .error .depth := by
  induction fuel generalizing val t pc mf b with
  | zero => rfl
  | succ fuel ih =>
    cases t with
    | int | float | node =>
      unfold buildMatchElement at h
      dsimp only at h
      split_ifs at h
      all_goals first
        | exact absurd h addVariableMatch_ne_depth
        | cases h
    | list sub =>
      by_cases hlist : val = 0x0E
      · subst hlist
        refine count_depth_of_list (fun h => ?_) h
        unfold buildPart at h
        unfold countPart
        split_ifs at h ⊢
        exact ih h
      · unfold buildMatchElement at h
        dsimp only at h
        split_ifs at h
        all_goals cases h
    | _ => cases h

/-! ## Agreement -/

/-- The two functions agree on the operand at `pc`: both accept it, end at the same place, and the
count is the number of templates that are added; or both end with an error, which is that the
operand is too deep only if it is for counting. -/
def Agree (code : Code) (st : MatchState) (fuel val : ℕ) (t : FieldType) (mf : MatchLoc) (pc : ℕ)
    (b : MatchBuild) : Prop :=
  match countVarMatchElement code fuel val t pc with
  | .ok (n, pc') => ∃ b', buildMatchElement code st fuel val t mf pc b = .ok (b', pc') ∧
      b'.vmt.length = b.vmt.length + n
  | .error e => ∃ e', buildMatchElement code st fuel val t mf pc b = .error e' ∧
      (e' = .depth → e = .depth)

/-- The table has room for as many templates as are counted. -/
def Room (code : Code) (fuel val : ℕ) (t : FieldType) (pc : ℕ) (b : MatchBuild) : Prop :=
  ∀ n pc', countVarMatchElement code fuel val t pc = .ok (n, pc') → b.vmt.length + n ≤ b.varSize

/-- **Counting and building** agree on an operand, with room in the table for what was counted,
exactly if it has no register that is to be matched with a field of type float. -/
theorem agree_iff (code : Code) (st : MatchState) (fuel val : ℕ) (t : FieldType) (mf : MatchLoc)
    (pc : ℕ) (b : MatchBuild) (hroom : Room code fuel val t pc b) :
    Agree code st fuel val t mf pc b ↔
      ∀ op pc', decodeOperand code fuel val t pc = some (op, pc') → noFloatReg op t = true := by
  have hcounts : Counts (countVarMatchElement code fuel val t pc)
      (decodeOperand code fuel val t pc) := countVarMatchElement_counts fuel val t pc
  unfold Agree
  cases hop : decodeOperand code fuel val t pc with
  | none =>
    rw [hop] at hcounts
    obtain ⟨e, he⟩ := hcounts
    refine iff_of_true ?_ (fun _ _ h => by cases h)
    rw [he]
    cases hrun : buildMatchElement code st fuel val t mf pc b with
    | ok x =>
      obtain ⟨op, hop', -⟩ := decodeOperand_of_build fuel hrun
      exact absurd (hop.symm.trans hop') (Option.some_ne_none _).symm
    | error e' =>
      refine ⟨e', rfl, fun hdepth => ?_⟩
      subst hdepth
      exact Except.error.inj (he.symm.trans (count_depth_of_build fuel hrun))
  | some x =>
    have hcount := counts_of_eq hcounts hop
    rw [hcount]
    constructor
    · rintro ⟨b', hrun, -⟩ op pc' hx
      cases hx
      obtain ⟨op, hop', hfloat⟩ := decodeOperand_of_build fuel hrun
      cases hop.symm.trans hop'
      exact hfloat
    · intro hfloat
      obtain ⟨b', hrun, hadded⟩ : ∃ b', buildMatchElement code st fuel val t mf pc b = .ok (b', _) ∧
          Added b b' _ := buildMatchElement_ok fuel mf hop (hfloat _ _ rfl) (hroom _ _ hcount)
      exact ⟨b', hrun, hadded.length⟩

/-- An empty object with a table for one template. -/
def emptyBuild : MatchBuild := ⟨fun _ => ⟨false, .int, 0⟩, 2, false, 1, []⟩

/-- A state whose registers and fields are zero. -/
def zeroState : MatchState := ⟨fun _ => 0, fun _ _ => 0, 0⟩

/-- The list of register 3 and any tail. -/
def listCode : Code := fun a => if a = 0 then 0x23 else 0x0F

theorem agree_list : Agree listCode zeroState 2 0x0E (.list .int) (.field 0 0 0) 0 emptyBuild := by
  refine (agree_iff listCode zeroState 2 0x0E (.list .int) (.field 0 0 0) 0 emptyBuild ?_).2 ?_
  · intro n pc' h
    cases h
    exact Nat.le_refl 1
  · intro op pc' h
    cases h
    rfl

/-- **A register for a float** is counted, and is an error when the object is built. -/
theorem float_register_fails :
    countVarMatchElement listCode 1 0x23 .float 0 = .ok (1, 0) ∧
      buildMatchElement listCode zeroState 1 0x23 .float (.field 0 0 0) 0 emptyBuild =
        .error (.throw "cannot use value for matching float") := ⟨rfl, rfl⟩

end MatchBytes
end Meld
