import Mathlib.Data.List.Induction
import Meld.Vm.MatchObject

/-!
# What building a match object leaves

`build_match_element` writes the match field it is given and the list patterns it allocates, and
appends to the table an entry for every operand that is not constant.  `OperandShape` says that a
match field and the list patterns below it have the form of an operand, where the two kinds of
operands at the leaves are left open: `Built` has it once for the values just written and once for
the entries of the table.

* `lastSource`: the last entry of a table for an address, which decides what a patch writes there.
* `OperandShape`, `OperandShape.map`: the form of an operand, and how it follows changes of the
  memory.
* `buildMatchElement_built`: one operand.
* `foldlM_buildMatch`: an object.
-/

namespace Meld

/-! ## Tables -/

/-- The list pattern that an address belongs to. -/
def MatchLoc.lm? : MatchLoc → Option ℕ
  | field _ _ _ => none
  | head lm => some lm
  | tail lm => some lm

/-- The address is not in a list pattern from `n` on. -/
def MatchLoc.Old (n : ℕ) (loc : MatchLoc) : Prop := ∀ lm, loc.lm? = some lm → lm < n

/-- The address is in one of the list patterns from `lo` up to `hi`. -/
def MatchLoc.Within (lo hi : ℕ) (loc : MatchLoc) : Prop :=
  ∃ lm, loc.lm? = some lm ∧ lo ≤ lm ∧ lm < hi

theorem MatchLoc.Within.not_old {lo hi n : ℕ} {loc : MatchLoc} (h : loc.Within lo hi)
    (hn : n ≤ lo) : ¬ loc.Old n := by
  obtain ⟨lm, hlm, hlo, -⟩ := h
  intro hold
  have := hold lm hlm
  omega

theorem MatchLoc.Within.old {lo hi n : ℕ} {loc : MatchLoc} (h : loc.Within lo hi) (hn : hi ≤ n) :
    loc.Old n := by
  obtain ⟨lm, hlm, -, hhi⟩ := h
  intro p hp
  rw [hlm, Option.some.injEq] at hp
  omega

theorem MatchLoc.Within.mono {lo hi lo' hi' : ℕ} {loc : MatchLoc} (h : loc.Within lo hi)
    (hlo : lo' ≤ lo) (hhi : hi ≤ hi') : loc.Within lo' hi' := by
  obtain ⟨lm, hlm, h1, h2⟩ := h
  exact ⟨lm, hlm, by omega, by omega⟩

theorem MatchLoc.old_head {m n : ℕ} (h : m < n) : (MatchLoc.head m).Old n := by
  intro lm hlm
  obtain rfl := Option.some.inj hlm
  exact h

theorem MatchLoc.old_tail {m n : ℕ} (h : m < n) : (MatchLoc.tail m).Old n := by
  intro lm hlm
  obtain rfl := Option.some.inj hlm
  exact h

/-- The addresses of the parts of a new list pattern are not in use. -/
theorem MatchLoc.not_old_of_part {n : ℕ} (hi : ℕ) {loc : MatchLoc}
    (h : loc = .head n ∨ loc = .tail n ∨ loc.Within (n + 1) hi) : ¬ loc.Old n := by
  intro hold
  rcases h with rfl | rfl | h
  · exact absurd (hold n rfl) (Nat.lt_irrefl n)
  · exact absurd (hold n rfl) (Nat.lt_irrefl n)
  · exact h.not_old (Nat.le_succ n) hold

theorem MatchLoc.Old.mono {n n' : ℕ} {loc : MatchLoc} (h : loc.Old n) (hn : n ≤ n') : loc.Old n' :=
  fun lm hlm => Nat.lt_of_lt_of_le (h lm hlm) hn

/-- The source of the last entry for an address. -/
def lastSource (vmt : List MatchTemplate) (loc : MatchLoc) : Option MatchSource :=
  vmt.reverse.findSome? fun tmp => if tmp.loc = loc then some tmp.source else none

theorem lastSource_append (v w : List MatchTemplate) (loc : MatchLoc) :
    lastSource (v ++ w) loc = (lastSource w loc).or (lastSource v loc) := by
  rw [lastSource, List.reverse_append, List.findSome?_append]
  rfl

theorem lastSource_eq_none {vmt : List MatchTemplate} {loc : MatchLoc}
    (h : ∀ tmp ∈ vmt, tmp.loc ≠ loc) : lastSource vmt loc = none := by
  rw [lastSource, List.findSome?_eq_none_iff]
  intro tmp htmp
  rw [if_neg (h tmp (List.mem_reverse.mp htmp))]

theorem lastSource_append_of_ne {v w : List MatchTemplate} {loc : MatchLoc}
    (h : ∀ tmp ∈ w, tmp.loc ≠ loc) : lastSource (v ++ w) loc = lastSource v loc := by
  rw [lastSource_append, lastSource_eq_none h, Option.none_or]

/-! ## The form of an operand -/

namespace MatchOperand

/-- The value of a constant. -/
def literal? : MatchOperand → Option ℕ
  | int i => some i
  | float x => some x
  | node n => some n
  | _ => none

/-- The pattern that the operand stands for in a state. -/
def pattern (st : MatchState) : MatchOperand → FieldType → MatchPattern
  | reg r, ty => .ofValue ty (st.getReg r)
  | field r num, ty => .ofValue ty (st.getField r num)
  | host, ty => .ofValue ty st.host
  | int i, ty => .ofValue ty i
  | float x, ty => .ofValue ty x
  | node n, ty => .ofValue ty n
  | any, _ => .any
  | nil, _ => .nil
  | nonNil, _ => .nonNil
  | list head tail, .list sub => .list (head.pattern st sub) (tail.pattern st (.list sub))
  | list _ _, _ => .any

theorem pattern_of_source {op : MatchOperand} {s : MatchSource} (h : op.source? = some s)
    (st : MatchState) (ty : FieldType) : op.pattern st ty = .ofValue ty (s.value st) := by
  cases op <;> cases h <;> cases ty <;> rfl

theorem pattern_of_literal {op : MatchOperand} {v : ℕ} (h : op.literal? = some v)
    (st : MatchState) (ty : FieldType) : op.pattern st ty = .ofValue ty v := by
  cases op <;> cases h <;> cases ty <;> rfl

end MatchOperand

/-- The types whose values are compared as words. -/
def FieldType.IsPlain (ty : FieldType) : Prop := ty = .int ∨ ty = .float ∨ ty = .node

/-- The match field at an address has the form of an operand, with its list patterns from `lo` up to
`hi`.  What is required of operands that read a source is `var`, of the others `const`. -/
inductive OperandShape (cells : MatchLoc → MatchCell)
    (var : FieldType → MatchLoc → MatchSource → Prop)
    (const : MatchLoc → Prop) (lo hi : ℕ) : MatchOperand → FieldType → MatchLoc → Prop where
  | source {op : MatchOperand} {s : MatchSource} {ty : FieldType} {loc : MatchLoc}
      (hs : op.source? = some s) (hty : ty.IsPlain) (h : (cells loc).exact = true)
      (hvar : var ty loc s) : OperandShape cells var const lo hi op ty loc
  | literal {op : MatchOperand} {v : ℕ} {ty : FieldType} {loc : MatchLoc}
      (hv : op.literal? = some v) (hty : ty.IsPlain) (h : (cells loc).exact = true)
      (hval : MatchPattern.ofValue ty (cells loc).field = .ofValue ty v) (hconst : const loc) :
      OperandShape cells var const lo hi op ty loc
  | any {ty : FieldType} {loc : MatchLoc} (h : (cells loc).exact = false) :
      OperandShape cells var const lo hi .any ty loc
  | nil {sub : FieldType} {loc : MatchLoc} (h : (cells loc).exact = true)
      (hp : (cells loc).field = 0) (hconst : const loc) :
      OperandShape cells var const lo hi .nil (.list sub) loc
  | nonNil {sub : FieldType} {loc : MatchLoc} (h : (cells loc).exact = true)
      (hp : (cells loc).field = 1) (hconst : const loc) :
      OperandShape cells var const lo hi .nonNil (.list sub) loc
  | list {head tail : MatchOperand} {sub : FieldType} {loc : MatchLoc} {lm : ℕ}
      (h : (cells loc).exact = true) (hp : (cells loc).field = lm) (hconst : const loc)
      (hlo : lo ≤ lm) (hhi : lm < hi)
      (hhead : OperandShape cells var const lo hi head sub (.head lm))
      (htail : OperandShape cells var const lo hi tail (.list sub) (.tail lm)) :
      OperandShape cells var const lo hi (.list head tail) (.list sub) loc

/-- The entries of the table say what is to be written. -/
abbrev Tracked (cells : MatchLoc → MatchCell) (vmt : List MatchTemplate) (lo hi : ℕ) :
    MatchOperand → FieldType → MatchLoc → Prop :=
  OperandShape cells (fun _ loc s => lastSource vmt loc = some s)
    (fun loc => lastSource vmt loc = none)
    lo hi

/-- The values are those of a state. -/
abbrev Valued (cells : MatchLoc → MatchCell) (st : MatchState) (lo hi : ℕ) :
    MatchOperand → FieldType → MatchLoc → Prop :=
  OperandShape cells
    (fun ty loc s => MatchPattern.ofValue ty (cells loc).field = .ofValue ty (s.value st))
    (fun _ => True) lo hi

section OperandShape

variable {cells cells' : MatchLoc → MatchCell}
  {var var' : FieldType → MatchLoc → MatchSource → Prop}
  {const const' : MatchLoc → Prop} {lo hi lo' hi' : ℕ} {op : MatchOperand} {ty : FieldType}
  {loc : MatchLoc}

/-- **Changes of the memory** that keep the flags, and the values of constants and of list patterns,
keep the form of an operand. -/
theorem OperandShape.map (h : OperandShape cells var const lo hi op ty loc) (hlo : lo' ≤ lo)
    (hhi : hi ≤ hi')
    (hexact : ∀ l, l = loc ∨ l.Within lo hi → (cells' l).exact = (cells l).exact)
    (hvar : ∀ l, l = loc ∨ l.Within lo hi → ∀ ty s, var ty l s → var' ty l s)
    (hconst : ∀ l, l = loc ∨ l.Within lo hi → const l →
      (cells' l).field = (cells l).field ∧ const' l) :
    OperandShape cells' var' const' lo' hi' op ty loc := by
  induction h with
  | source hs hty h hv =>
    exact .source hs hty ((hexact _ (Or.inl rfl)).trans h) (hvar _ (Or.inl rfl) _ _ hv)
  | literal hv hty h hval hc =>
    obtain ⟨hfield, hc'⟩ := hconst _ (Or.inl rfl) hc
    refine .literal hv hty ((hexact _ (Or.inl rfl)).trans h) ?_ hc'
    rw [hfield]
    exact hval
  | any h => exact .any ((hexact _ (Or.inl rfl)).trans h)
  | nil h hp hc =>
    obtain ⟨hfield, hc'⟩ := hconst _ (Or.inl rfl) hc
    exact .nil ((hexact _ (Or.inl rfl)).trans h) (hfield.trans hp) hc'
  | nonNil h hp hc =>
    obtain ⟨hfield, hc'⟩ := hconst _ (Or.inl rfl) hc
    exact .nonNil ((hexact _ (Or.inl rfl)).trans h) (hfield.trans hp) hc'
  | list h hp hc hlm hlm' hhead htail ihead itail =>
    rename_i lm
    obtain ⟨hfield, hc'⟩ := hconst _ (Or.inl rfl) hc
    have hhd : ∀ l : MatchLoc, l = .head lm ∨ l.Within lo hi → l.Within lo hi := by
      rintro l (rfl | hw)
      · exact ⟨lm, rfl, hlm, hlm'⟩
      · exact hw
    have htl : ∀ l : MatchLoc, l = .tail lm ∨ l.Within lo hi → l.Within lo hi := by
      rintro l (rfl | hw)
      · exact ⟨lm, rfl, hlm, hlm'⟩
      · exact hw
    refine .list ((hexact _ (Or.inl rfl)).trans h) (hfield.trans hp) hc' (by omega) (by omega)
      (ihead ?_ ?_ ?_) (itail ?_ ?_ ?_)
    · exact fun l hl => hexact l (Or.inr (hhd l hl))
    · exact fun l hl => hvar l (Or.inr (hhd l hl))
    · exact fun l hl => hconst l (Or.inr (hhd l hl))
    · exact fun l hl => hexact l (Or.inr (htl l hl))
    · exact fun l hl => hvar l (Or.inr (htl l hl))
    · exact fun l hl => hconst l (Or.inr (htl l hl))

/-- The values follow memory that is the same where the operand is. -/
theorem OperandShape.valued_congr {st : MatchState} (h : Valued cells st lo hi op ty loc)
    (hlo : lo' ≤ lo)
    (hhi : hi ≤ hi') (hcells : ∀ l, l = loc ∨ l.Within lo hi → cells' l = cells l) :
    Valued cells' st lo' hi' op ty loc := by
  refine h.map hlo hhi (fun l hl => by rw [hcells l hl]) (fun l hl ty s hv => ?_)
    (fun l hl _ => ⟨by rw [hcells l hl], trivial⟩)
  rw [hcells l hl]
  exact hv

/-- The entries follow memory and tables that are the same where the operand is. -/
theorem OperandShape.tracked_congr {vmt vmt' : List MatchTemplate}
    (h : Tracked cells vmt lo hi op ty loc)
    (hlo : lo' ≤ lo) (hhi : hi ≤ hi') (hcells : ∀ l, l = loc ∨ l.Within lo hi → cells' l = cells l)
    (hlast : ∀ l, l = loc ∨ l.Within lo hi → lastSource vmt' l = lastSource vmt l) :
    Tracked cells' vmt' lo' hi' op ty loc := by
  refine h.map hlo hhi (fun l hl => by rw [hcells l hl]) (fun l hl ty s hv => ?_)
    (fun l hl hc => ⟨by rw [hcells l hl], ?_⟩)
  · exact (hlast l hl).trans hv
  · exact (hlast l hl).trans hc

/-- **The pattern of an operand is read back.** -/
theorem OperandShape.reads {st : MatchState} (h : Valued cells st lo hi op ty loc) (hlo : 1 < lo) :
    Reads cells ty loc (op.pattern st ty) := by
  induction h with
  | source hs hty h hv =>
    rw [MatchOperand.pattern_of_source hs, ← hv]
    exact .value h hty
  | literal hv hty h hval _ =>
    rw [MatchOperand.pattern_of_literal hv, ← hval]
    exact .value h hty
  | any h => exact .any h
  | nil h hp _ => exact .nil h hp
  | nonNil h hp _ => exact .nonNil h hp
  | list h hp _ hlm _ _ _ ihead itail => exact .list h hp (by omega) ihead itail

end OperandShape

/-! ## One operand -/

theorem ofValue_setValue (ty : FieldType) (w v : ℕ) :
    MatchPattern.ofValue ty (setValue ty w v) = .ofValue ty v := by
  cases ty with
  | int =>
    show MatchPattern.int _ = MatchPattern.int _
    congr 1
    simp only [setValue, valueAt]
    omega
  | _ => rfl

theorem ofValue_valueAt (ty : FieldType) (v : ℕ) :
    MatchPattern.ofValue ty (valueAt ty v) = .ofValue ty v := by
  cases ty with
  | int =>
    show MatchPattern.int _ = MatchPattern.int _
    congr 1
    simp only [valueAt]
    omega
  | _ => rfl

section Element

variable {st : MatchState} {op : MatchOperand} {ty : FieldType} {mf : MatchLoc} {b : MatchBuild}

/-- An operand that reads a source writes its value, and an entry. -/
theorem buildMatchElement_source {s : MatchSource} (hacc : op.accepted ty = true)
    (hs : op.source? = some s) : ty.IsPlain ∧ ∃ v, MatchPattern.ofValue ty v =
      .ofValue ty (s.value st) ∧ buildMatchElement st op ty mf b =
        (b.matchValue ty mf v).addVariableMatch ⟨mf, s⟩ := by
  cases op with
  | reg r =>
    obtain rfl := Option.some.inj hs
    cases ty with
    | int => exact ⟨Or.inl rfl, _, ofValue_valueAt .int _, rfl⟩
    | node => exact ⟨Or.inr (Or.inr rfl), _, rfl, rfl⟩
    | _ => cases hacc
  | field r num =>
    obtain rfl := Option.some.inj hs
    cases ty with
    | int => exact ⟨Or.inl rfl, _, ofValue_valueAt .int _, rfl⟩
    | float => exact ⟨Or.inr (Or.inl rfl), _, rfl, rfl⟩
    | node => exact ⟨Or.inr (Or.inr rfl), _, rfl, rfl⟩
    | _ => cases hacc
  | host =>
    obtain rfl := Option.some.inj hs
    cases ty with
    | node => exact ⟨Or.inr (Or.inr rfl), _, rfl, rfl⟩
    | _ => cases hacc
  | _ => cases hs

/-- A constant writes its value. -/
theorem buildMatchElement_literal {v : ℕ} (hacc : op.accepted ty = true)
    (hv : op.literal? = some v) : ty.IsPlain ∧
      buildMatchElement st op ty mf b = some (b.matchValue ty mf v) := by
  cases op with
  | int i =>
    obtain rfl := Option.some.inj hv
    cases ty with
    | int => exact ⟨Or.inl rfl, rfl⟩
    | _ => cases hacc
  | float x =>
    obtain rfl := Option.some.inj hv
    cases ty with
    | float => exact ⟨Or.inr (Or.inl rfl), rfl⟩
    | _ => cases hacc
  | node n =>
    obtain rfl := Option.some.inj hv
    cases ty with
    | node => exact ⟨Or.inr (Or.inr rfl), rfl⟩
    | _ => cases hacc
  | _ => cases hv

/-- What building one operand at an address does. -/
structure Built (st : MatchState) (op : MatchOperand) (ty : FieldType) (mf : MatchLoc)
    (b b' : MatchBuild) : Prop where
  fresh : b.fresh ≤ b'.fresh
  varSize : b'.varSize = b.varSize
  anyExact : b'.anyExact = (b.anyExact || !op.isAny)
  /-- nothing else is written -/
  frame : ∀ l : MatchLoc, l ≠ mf → l.Old b.fresh → b'.cells l = b.cells l
  /-- the table grows by the entries of the operand -/
  vmt : ∃ w, b'.vmt = b.vmt ++ w ∧ w.length = op.numVariables ∧
    (∀ tmp ∈ w, (tmp.loc = mf ∧ op.source? = some tmp.source) ∨
      tmp.loc.Within b.fresh b'.fresh) ∧ lastSource w mf = op.source?
  valued : Valued b'.cells st b.fresh b'.fresh op ty mf
  tracked : (op.source? = none → lastSource b.vmt mf = none) →
    Tracked b'.cells b'.vmt b.fresh b'.fresh op ty mf

/-- The entries of the table are for addresses that are in use. -/
def MatchBuild.OldTable (b : MatchBuild) : Prop := ∀ tmp ∈ b.vmt, tmp.loc.Old b.fresh

/-- An operand that writes one match field and makes no entry. -/
theorem Built.write {cell : MatchCell} {e : Bool} (hs : op.source? = none)
    (hn : op.numVariables = 0) (he : e = (b.anyExact || !op.isAny))
    (hshape : ∀ var const, const mf →
      OperandShape (Function.update b.cells mf cell) var const b.fresh b.fresh op ty mf) :
    Built st op ty mf b
      { b with cells := Function.update b.cells mf cell, anyExact := e } where
  fresh := Nat.le_refl _
  varSize := rfl
  anyExact := he
  frame := fun _ hl _ => Function.update_of_ne hl _ _
  vmt := ⟨[], (List.append_nil _).symm, hn.symm, fun _ h => absurd h List.not_mem_nil, hs.symm⟩
  valued := hshape _ _ trivial
  tracked := fun h => hshape _ _ (h hs)

/-- A part of a list pattern that is `any` is left as `init` made it. -/
theorem Built.skip (hany : op.isAny = true) (h : (b.cells mf).exact = false) :
    Built st op ty mf b b := by
  obtain rfl : op = .any := by
    cases op with
    | any => rfl
    | _ => cases hany
  refine ⟨Nat.le_refl _, rfl, ?_, fun _ _ _ => rfl, ?_, .any h, fun _ => .any h⟩
  · simp [MatchOperand.isAny]
  · exact ⟨[], (List.append_nil _).symm, rfl, fun _ h => absurd h List.not_mem_nil, rfl⟩

/-- The entries that an operand adds are for no other address in use. -/
theorem Built.lastSource_eq {b' : MatchBuild} (h : Built st op ty mf b b') {l : MatchLoc}
    (hl : l ≠ mf) (hold : l.Old b.fresh) : lastSource b'.vmt l = lastSource b.vmt l := by
  obtain ⟨w, hw, -, hloc, -⟩ := h.vmt
  rw [hw]
  refine lastSource_append_of_ne fun tmp htmp heq => ?_
  rcases hloc tmp htmp with ⟨hmf, -⟩ | hin
  · exact hl (heq.symm.trans hmf)
  · exact hin.not_old (Nat.le_refl _) (heq ▸ hold)

theorem Built.oldTable {b' : MatchBuild} (h : Built st op ty mf b b') (hb : b.OldTable)
    (hmf : mf.Old b.fresh) : b'.OldTable := by
  obtain ⟨w, hw, -, hloc, -⟩ := h.vmt
  intro tmp htmp
  rw [hw, List.mem_append] at htmp
  rcases htmp with htmp | htmp
  · exact (hb tmp htmp).mono h.fresh
  · rcases hloc tmp htmp with ⟨heq, -⟩ | hin
    · exact heq ▸ hmf.mono h.fresh
    · exact hin.old (Nat.le_refl _)

/-- The entries that the parts of a list pattern add are for addresses of the pattern. -/
theorem Built.entries_list {head tail : MatchOperand} {sub : FieldType} {b₁ b₂ : MatchBuild}
    (h₁ : Built st head sub (.head b.fresh) (b.newList sub) b₁)
    (h₂ : Built st tail (.list sub) (.tail b.fresh) b₁ b₂) :
    ∃ w, b₂.vmt = b.vmt ++ w ∧ w.length = head.numVariables + tail.numVariables ∧
      ∀ tmp ∈ w, tmp.loc.Within b.fresh b₂.fresh := by
  have hf₁ : b.fresh + 1 ≤ b₁.fresh := h₁.fresh
  have hf₂ := h₂.fresh
  obtain ⟨w₁, hw₁, hlen₁, hloc₁, -⟩ := h₁.vmt
  obtain ⟨w₂, hw₂, hlen₂, hloc₂, -⟩ := h₂.vmt
  refine ⟨w₁ ++ w₂, ?_, ?_, fun tmp htmp => ?_⟩
  · rw [hw₂, hw₁, List.append_assoc]
    rfl
  · rw [List.length_append, hlen₁, hlen₂]
  · rcases List.mem_append.mp htmp with htmp | htmp
    · rcases hloc₁ tmp htmp with ⟨heq, -⟩ | hin
      · rw [heq]
        exact ⟨b.fresh, rfl, Nat.le_refl _, by omega⟩
      · exact hin.mono (Nat.le_succ _) hf₂
    · rcases hloc₂ tmp htmp with ⟨heq, -⟩ | hin
      · rw [heq]
        exact ⟨b.fresh, rfl, Nat.le_refl _, by omega⟩
      · exact hin.mono (by omega) (Nat.le_refl _)

/-- **A list pattern**: its two parts, in a new `list_match`, and then its address. -/
theorem Built.list {head tail : MatchOperand} {sub : FieldType} {b₁ b₂ : MatchBuild}
    (hb : b.OldTable) (hmf : mf.Old b.fresh)
    (h₁ : Built st head sub (.head b.fresh) (b.newList sub) b₁)
    (h₂ : Built st tail (.list sub) (.tail b.fresh) b₁ b₂) :
    Built st (.list head tail) (.list sub) mf b (b₂.matchList mf b.fresh (.list sub)) := by
  have hf₁ : b.fresh + 1 ≤ b₁.fresh := h₁.fresh
  have hf₂ := h₂.fresh
  have htail : (MatchLoc.tail b.fresh).Old (b.fresh + 1) := MatchLoc.old_tail (Nat.lt_succ_self _)
  have hcells : ∀ l : MatchLoc, l ≠ mf →
      (b₂.matchList mf b.fresh (.list sub)).cells l = b₂.cells l :=
    fun l hl => Function.update_of_ne hl _ _
  have hself : (b₂.matchList mf b.fresh (.list sub)).cells mf = ⟨true, .list sub, b.fresh⟩ :=
    Function.update_self _ _ _
  -- the addresses of the two parts are no addresses in use
  have hne : ∀ l : MatchLoc, l.Old b.fresh → l ≠ .head b.fresh ∧ l ≠ .tail b.fresh := fun l hl =>
    ⟨fun heq => MatchLoc.not_old_of_part 0 (Or.inl heq) hl,
      fun heq => MatchLoc.not_old_of_part 0 (Or.inr (Or.inl heq)) hl⟩
  have hnew : ∀ l : MatchLoc, l = .head b.fresh ∨ l = .tail b.fresh ∨
      l.Within (b.fresh + 1) b₂.fresh → ¬ l.Old b.fresh ∧ l ≠ mf := by
    intro l hl
    have hnot := MatchLoc.not_old_of_part _ hl
    exact ⟨hnot, fun heq => hnot (heq ▸ hmf)⟩
  have hheadScope : ∀ l : MatchLoc, l = .head b.fresh ∨ l.Within (b.fresh + 1) b₁.fresh →
      l ≠ mf ∧ l ≠ .tail b.fresh ∧ l.Old b₁.fresh := by
    rintro l (rfl | hl)
    · exact ⟨(hnew _ (Or.inl rfl)).2, by simp, MatchLoc.old_head hf₁⟩
    · refine ⟨(hnew _ (Or.inr (Or.inr (hl.mono (Nat.le_refl _) hf₂)))).2, ?_,
        hl.old (Nat.le_refl _)⟩
      rintro rfl
      exact hl.not_old (Nat.le_refl _) htail
  have htailScope : ∀ l : MatchLoc, l = .tail b.fresh ∨ l.Within b₁.fresh b₂.fresh → l ≠ mf := by
    rintro l (rfl | hl)
    · exact (hnew _ (Or.inr (Or.inl rfl))).2
    · exact (hnew _ (Or.inr (Or.inr (hl.mono hf₁ (Nat.le_refl _))))).2
  have hcells₁ : ∀ l : MatchLoc, l = .head b.fresh ∨ l.Within (b.fresh + 1) b₁.fresh →
      (b₂.matchList mf b.fresh (.list sub)).cells l = b₁.cells l := by
    intro l hl
    obtain ⟨h1, h2, h3⟩ := hheadScope l hl
    rw [hcells l h1, h₂.frame l h2 h3]
  have hlast₁ : ∀ l : MatchLoc, l = .head b.fresh ∨ l.Within (b.fresh + 1) b₁.fresh →
      lastSource b₂.vmt l = lastSource b₁.vmt l := by
    intro l hl
    obtain ⟨-, h2, h3⟩ := hheadScope l hl
    exact h₂.lastSource_eq h2 h3
  have hnone : ∀ l : MatchLoc, ¬ l.Old b.fresh → lastSource b.vmt l = none := fun l hl =>
    lastSource_eq_none fun tmp htmp heq => hl (heq ▸ hb tmp htmp)
  have hnone₁ : lastSource b₁.vmt (.tail b.fresh) = none := by
    rw [h₁.lastSource_eq (by simp) htail]
    exact hnone _ (hnew _ (Or.inr (Or.inl rfl))).1
  have hmf₁ : mf.Old (b.newList sub).fresh := hmf.mono (Nat.le_succ _)
  obtain ⟨hmfh, hmft⟩ := hne mf hmf
  obtain ⟨w, hw, hlen, hloc⟩ := h₁.entries_list h₂
  refine ⟨?_, ?_, ?_, ?_, ⟨w, hw, hlen, fun tmp htmp => Or.inr (hloc tmp htmp), ?_⟩, ?_, ?_⟩
  · show b.fresh ≤ b₂.fresh
    omega
  · exact h₂.varSize.trans h₁.varSize
  · show true = _
    simp [MatchOperand.isAny]
  · intro l hl hold
    obtain ⟨hlh, hlt⟩ := hne l hold
    rw [hcells l hl, h₂.frame l hlt (hold.mono (by omega)),
      h₁.frame l hlh (hold.mono (Nat.le_succ _))]
    show Function.update _ (MatchLoc.tail b.fresh) _ l = _
    rw [Function.update_of_ne hlt, Function.update_of_ne hlh]
  · exact lastSource_eq_none fun tmp htmp heq =>
      (hloc tmp htmp).not_old (Nat.le_refl _) (heq ▸ hmf)
  · refine .list (by rw [hself]) (by rw [hself]) trivial (Nat.le_refl _) (by
      show b.fresh < b₂.fresh
      omega) ?_ ?_
    · exact h₁.valued.valued_congr (Nat.le_succ _) hf₂ hcells₁
    · exact h₂.valued.valued_congr (by omega) (Nat.le_refl _) fun l hl => hcells l (htailScope l hl)
  · intro hlast
    refine .list (by rw [hself]) (by rw [hself]) ?_ (Nat.le_refl _) (by
      show b.fresh < b₂.fresh
      omega) ?_ ?_
    · show lastSource b₂.vmt mf = none
      rw [h₂.lastSource_eq hmft (hmf.mono (by omega)), h₁.lastSource_eq hmfh hmf₁]
      exact hlast rfl
    · exact (h₁.tracked fun _ => hnone _ (hnew _ (Or.inl rfl)).1).tracked_congr (Nat.le_succ _) hf₂
        hcells₁ hlast₁
    · exact (h₂.tracked fun _ => hnone₁).tracked_congr (by omega) (Nat.le_refl _)
        (fun l hl => hcells l (htailScope l hl)) fun _ _ => rfl

/-- An operand that reads a source. -/
theorem Built.ofSource {s : MatchSource} {v : ℕ} (hs : op.source? = some s) (hty : ty.IsPlain)
    (hv : MatchPattern.ofValue ty v = .ofValue ty (s.value st)) :
    Built st op ty mf b { b.matchValue ty mf v with vmt := b.vmt ++ [⟨mf, s⟩] } := by
  have hself : (b.matchValue ty mf v).cells mf =
      ⟨true, (b.cells mf).ty, setValue ty (b.cells mf).field v⟩ := Function.update_self _ _ _
  have hany : op.isAny = false := by
    cases op with
    | any => cases hs
    | _ => rfl
  have hnum : op.numVariables = 1 := by
    cases op with
    | reg | field | host => rfl
    | _ => cases hs
  have hlast : lastSource [⟨mf, s⟩] mf = some s := by simp [lastSource]
  refine ⟨Nat.le_refl _, rfl, ?_, fun l hl _ => Function.update_of_ne hl _ _,
    ⟨[⟨mf, s⟩], rfl, hnum.symm, ?_, hlast.trans hs.symm⟩, ?_, fun _ => ?_⟩
  · show true = _
    rw [hany]
    exact (Bool.or_true _).symm
  · intro tmp htmp
    rw [List.mem_singleton.mp htmp]
    exact Or.inl ⟨rfl, hs⟩
  · refine .source hs hty (by rw [hself]) ?_
    show MatchPattern.ofValue ty ((b.matchValue ty mf v).cells mf).field = _
    rw [hself, ofValue_setValue, hv]
  · refine .source hs hty (by rw [hself]) ?_
    show lastSource (b.vmt ++ [⟨mf, s⟩]) mf = some s
    rw [lastSource_append, hlast, Option.some_or]

/-- **One operand**: `build_match_element` succeeds on the forms it accepts.  The induction is on
the operand; the two parts of a list pattern are built one after the other in a new `list_match`. -/
theorem buildMatchElement_built (hacc : op.accepted ty = true) (hb : b.OldTable)
    (hmf : mf.Old b.fresh) (hroom : b.vmt.length + op.numVariables ≤ b.varSize) :
    ∃ b', buildMatchElement st op ty mf b = some b' ∧ Built st op ty mf b b' := by
  have hsource : ∀ {op : MatchOperand} {s : MatchSource} {ty : FieldType} {mf : MatchLoc}
      {b : MatchBuild}, op.source? = some s → op.accepted ty = true → b.vmt.length < b.varSize →
      ∃ b', buildMatchElement st op ty mf b = some b' ∧ Built st op ty mf b b' := by
    intro op s ty mf b hs hacc hroom
    obtain ⟨hty, v, hv, hbuild⟩ := @buildMatchElement_source st _ _ mf b _ hacc hs
    refine ⟨_, ?_, Built.ofSource hs hty hv⟩
    rw [hbuild, MatchBuild.addVariableMatch]
    exact if_pos hroom
  have hliteral : ∀ {op : MatchOperand} {v : ℕ} {ty : FieldType} {mf : MatchLoc} {b : MatchBuild},
      op.literal? = some v → op.source? = none → op.numVariables = 0 → op.isAny = false →
      op.accepted ty = true →
      ∃ b', buildMatchElement st op ty mf b = some b' ∧ Built st op ty mf b b' := by
    intro op v ty mf b hv hs hn hany hacc
    obtain ⟨hty, hbuild⟩ := @buildMatchElement_literal st _ _ mf b _ hacc hv
    refine ⟨_, hbuild, Built.write hs hn (by rw [hany]; exact (Bool.or_true _).symm) ?_⟩
    intro var const hc
    refine .literal hv hty (by rw [Function.update_self]) ?_ hc
    rw [Function.update_self]
    exact ofValue_setValue _ _ _
  induction op generalizing ty mf b with
  | reg r => exact hsource rfl hacc (hroom)
  | field r num => exact hsource rfl hacc (hroom)
  | host => exact hsource rfl hacc (hroom)
  | int i => exact hliteral rfl rfl rfl rfl hacc
  | float x => exact hliteral rfl rfl rfl rfl hacc
  | node n => exact hliteral rfl rfl rfl rfl hacc
  | any =>
    cases ty with
    | list sub =>
      refine ⟨_, rfl, Built.write rfl rfl ?_ fun var const _ => .any ?_⟩
      · simp [MatchOperand.isAny]
      · rw [Function.update_self]
    | _ => cases hacc
  | nil =>
    cases ty with
    | list sub =>
      refine ⟨_, rfl, Built.write rfl rfl (Bool.or_true _).symm fun var const hc => .nil ?_ ?_ hc⟩
      · rw [Function.update_self]
      · rw [Function.update_self]
    | _ => cases hacc
  | nonNil =>
    cases ty with
    | list sub =>
      refine ⟨_, rfl, Built.write rfl rfl (Bool.or_true _).symm fun var const hc =>
        .nonNil ?_ ?_ hc⟩
      · rw [Function.update_self]
      · rw [Function.update_self]
    | _ => cases hacc
  | list head tail ihead itail =>
    cases ty with
    | list sub =>
      simp only [MatchOperand.accepted, Bool.and_eq_true, Bool.or_eq_true] at hacc
      have hnum : (MatchOperand.list head tail).numVariables =
        head.numVariables + tail.numVariables := rfl
      -- a part is skipped or built
      have hpart : ∀ (part : MatchOperand) (ty : FieldType) (mf : MatchLoc) (b : MatchBuild),
          (part.accepted ty = true → ∃ b', buildMatchElement st part ty mf b = some b' ∧
            Built st part ty mf b b') → part.isAny = true ∨ part.accepted ty = true →
          (b.cells mf).exact = false →
          ∃ b', (if part.isAny then some b else buildMatchElement st part ty mf b) = some b' ∧
            Built st part ty mf b b' := by
        intro part ty mf b ih hor hexact
        cases hany : part.isAny with
        | true => exact ⟨b, rfl, Built.skip hany hexact⟩
        | false =>
          rw [hany] at hor
          exact ih (hor.resolve_left Bool.false_ne_true)
      have hhead : (MatchLoc.head b.fresh).Old (b.newList sub).fresh := fun lm hlm => by
        obtain rfl := Option.some.inj hlm
        exact Nat.lt_succ_self _
      have hb₀ : (b.newList sub).OldTable := fun tmp htmp => (hb tmp htmp).mono (Nat.le_succ _)
      obtain ⟨b₁, hbuild₁, h₁⟩ := hpart head sub (.head b.fresh) (b.newList sub)
        (fun h => ihead h hb₀ hhead (by
          show b.vmt.length + _ ≤ b.varSize
          omega)) hacc.1 (by simp [MatchBuild.newList])
      obtain ⟨w₁, hw₁, hlen₁, -⟩ := h₁.vmt
      have htail : (MatchLoc.tail b.fresh).Old (b.newList sub).fresh := fun lm hlm => by
        obtain rfl := Option.some.inj hlm
        exact Nat.lt_succ_self _
      obtain ⟨b₂, hbuild₂, h₂⟩ := hpart tail (.list sub) (.tail b.fresh) b₁
        (fun h => itail h (h₁.oldTable hb₀ hhead) (htail.mono h₁.fresh) (by
          have hlen : b₁.vmt.length = b.vmt.length + head.numVariables := by
            rw [hw₁, List.length_append, hlen₁]
            rfl
          have hsize : b₁.varSize = b.varSize := h₁.varSize
          omega)) hacc.2 (by
          rw [h₁.frame _ (by simp) htail]
          simp [MatchBuild.newList])
      refine ⟨_, ?_, Built.list hb hmf h₁ h₂⟩
      simp only [buildMatchElement, hbuild₁, hbuild₂, Option.bind_eq_bind, Option.bind_some]
    | _ => cases hacc

end Element

/-! ## An object -/

/-- The last operand for a field. -/
def lastOperand (ops : List (ℕ × MatchOperand)) (i : ℕ) : Option MatchOperand :=
  ops.reverse.findSome? fun x => if x.1 = i then some x.2 else none

/-- The last source that is read for a field. -/
def lastVariable (ops : List (ℕ × MatchOperand)) (i : ℕ) : Option MatchSource :=
  ops.reverse.findSome? fun x => if x.1 = i then x.2.source? else none

theorem lastOperand_append (ops : List (ℕ × MatchOperand)) (x : ℕ × MatchOperand) (i : ℕ) :
    lastOperand (ops ++ [x]) i = if x.1 = i then some x.2 else lastOperand ops i := by
  rw [lastOperand, List.reverse_append, List.reverse_singleton, List.singleton_append,
    List.findSome?_cons]
  split
  · rename_i h
    split at h
    · rename_i hi
      rw [if_pos hi, ← h]
    · cases h
  · rename_i h
    split at h
    · cases h
    · rename_i hi
      rw [if_neg hi]
      rfl

theorem lastVariable_append (ops : List (ℕ × MatchOperand)) (x : ℕ × MatchOperand) (i : ℕ) :
    lastVariable (ops ++ [x]) i =
      (if x.1 = i then x.2.source? else none).or (lastVariable ops i) := by
  rw [lastVariable, List.reverse_append, List.reverse_singleton, List.singleton_append,
    List.findSome?_cons]
  split
  · rename_i h
    rw [h, Option.some_or]
  · rename_i h
    rw [h, Option.none_or]
    rfl

/-- What building the operands of an object does: every field has the form of its last operand. -/
structure ObjectBuilt (st : MatchState) (types : List FieldType) (block thread : ℕ)
    (ops : List (ℕ × MatchOperand)) (b b' : MatchBuild) : Prop where
  fresh : b.fresh ≤ b'.fresh
  varSize : b'.varSize = b.varSize
  anyExact : b'.anyExact = ops.any fun x => !x.2.isAny
  frame : ∀ l : MatchLoc, (∀ i, l = .field block thread i → lastOperand ops i = none) →
    l.Old b.fresh → b'.cells l = b.cells l
  length : b'.vmt.length = (ops.map (·.2.numVariables)).sum
  locs : ∀ tmp ∈ b'.vmt, (∃ i, tmp.loc = .field block thread i) ∨ tmp.loc.Within b.fresh b'.fresh
  last : ∀ i, lastSource b'.vmt (.field block thread i) = lastVariable ops i
  valued : ∀ i op ty, lastOperand ops i = some op → types[i]? = some ty →
    Valued b'.cells st b.fresh b'.fresh op ty (.field block thread i)
  tracked : ∀ i op ty, lastOperand ops i = some op → types[i]? = some ty →
    (op.source? = none → lastVariable ops i = none) →
    Tracked b'.cells b'.vmt b.fresh b'.fresh op ty (.field block thread i)

section Object

variable {st : MatchState} {types : List FieldType} {block thread : ℕ}
  {ops : List (ℕ × MatchOperand)} {b b' b'' : MatchBuild}

theorem ObjectBuilt.nil (hany : b.anyExact = false) (hvmt : b.vmt = []) :
    ObjectBuilt st types block thread [] b b where
  fresh := Nat.le_refl _
  varSize := rfl
  anyExact := hany
  frame := fun _ _ _ => rfl
  length := by rw [hvmt]; rfl
  locs := by
    rw [hvmt]
    exact fun tmp htmp => absurd htmp List.not_mem_nil
  last := fun i => by rw [hvmt]; rfl
  valued := fun i op ty h => by cases h
  tracked := fun i op ty h => by cases h

/-- The addresses of the fields of an object are in no list pattern. -/
theorem old_field (n i : ℕ) : (MatchLoc.field block thread i).Old n := fun _ h => by cases h

theorem not_within_field {lo hi i : ℕ} : ¬ (MatchLoc.field block thread i).Within lo hi := by
  rintro ⟨lm, h, -⟩
  cases h

/-- **One operand more.**  The fields of the other operands stay. -/
theorem ObjectBuilt.append (h : ObjectBuilt st types block thread ops b b')
    {x : ℕ × MatchOperand} {ty : FieldType} (hty : types[x.1]? = some ty)
    (hx : Built st x.2 ty (.field block thread x.1) b' b'') :
    ObjectBuilt st types block thread (ops ++ [x]) b b'' := by
  have hf := h.fresh
  have hf' := hx.fresh
  have hloc : ∀ i ≠ x.1, MatchLoc.field block thread i ≠ .field block thread x.1 :=
    fun i hi heq => hi (by injection heq)
  -- where the form of an earlier operand is
  have hscope : ∀ i ≠ x.1, ∀ l : MatchLoc, l = .field block thread i ∨ l.Within b.fresh b'.fresh →
      l ≠ .field block thread x.1 ∧ l.Old b'.fresh := by
    rintro i hi l (rfl | hl)
    · exact ⟨hloc i hi, old_field _ _⟩
    · refine ⟨?_, hl.old (Nat.le_refl _)⟩
      rintro rfl
      exact not_within_field hl
  obtain ⟨w, hw, hlen, hwloc, hwlast⟩ := hx.vmt
  have hlast : ∀ i, lastSource b''.vmt (.field block thread i) = lastVariable (ops ++ [x]) i := by
    intro i
    rw [lastVariable_append]
    by_cases hi : x.1 = i
    · subst hi
      rw [if_pos rfl, hw, lastSource_append, hwlast, h.last]
    · have hi' : i ≠ x.1 := fun e => hi e.symm
      rw [if_neg hi, Option.none_or, hx.lastSource_eq (hloc i hi') (old_field _ _), h.last]
  refine ⟨by omega, hx.varSize.trans h.varSize, ?_, ?_, ?_, ?_, hlast, ?_, ?_⟩
  · rw [hx.anyExact, h.anyExact, List.any_append]
    simp
  · intro l hl hold
    have hne : l ≠ .field block thread x.1 := by
      intro heq
      have hnone := hl x.1 heq
      rw [lastOperand_append, if_pos rfl] at hnone
      cases hnone
    rw [hx.frame l hne (hold.mono hf)]
    refine h.frame l (fun i hi => ?_) hold
    have hnone := hl i hi
    rw [lastOperand_append] at hnone
    split at hnone
    · cases hnone
    · exact hnone
  · rw [hw, List.length_append, h.length, hlen]
    simp
  · intro tmp htmp
    rw [hw, List.mem_append] at htmp
    rcases htmp with htmp | htmp
    · rcases h.locs tmp htmp with hin | hin
      · exact Or.inl hin
      · exact Or.inr (hin.mono (Nat.le_refl _) hf')
    · rcases hwloc tmp htmp with ⟨heq, -⟩ | hin
      · exact Or.inl ⟨x.1, heq⟩
      · exact Or.inr (hin.mono hf (Nat.le_refl _))
  · intro i op ty' hop hty'
    rw [lastOperand_append] at hop
    by_cases hi : x.1 = i
    · subst hi
      rw [if_pos rfl, Option.some.injEq] at hop
      rw [hty, Option.some.injEq] at hty'
      subst hop hty'
      exact hx.valued.valued_congr hf (Nat.le_refl _) fun _ _ => rfl
    · rw [if_neg hi] at hop
      refine (h.valued i op ty' hop hty').valued_congr (Nat.le_refl _) hf' fun l hl => ?_
      obtain ⟨h1, h2⟩ := hscope i (fun e => hi e.symm) l hl
      exact hx.frame l h1 h2
  · intro i op ty' hop hty' hvar
    rw [lastOperand_append] at hop
    rw [lastVariable_append] at hvar
    by_cases hi : x.1 = i
    · subst hi
      rw [if_pos rfl, Option.some.injEq] at hop
      rw [hty, Option.some.injEq] at hty'
      subst hop hty'
      refine (hx.tracked fun hnone => ?_).tracked_congr hf (Nat.le_refl _) (fun _ _ => rfl)
        fun _ _ => rfl
      have hv := hvar hnone
      rw [if_pos rfl, hnone, Option.none_or] at hv
      rw [h.last, hv]
    · rw [if_neg hi] at hop hvar
      rw [Option.none_or] at hvar
      have hi' : i ≠ x.1 := fun e => hi e.symm
      refine (h.tracked i op ty' hop hty' hvar).tracked_congr (Nat.le_refl _) hf' (fun l hl => ?_)
        fun l hl => ?_
      · obtain ⟨h1, h2⟩ := hscope i hi' l hl
        exact hx.frame l h1 h2
      · obtain ⟨h1, h2⟩ := hscope i hi' l hl
        exact hx.lastSource_eq h1 h2

/-- **The loop of `build_match_object`**, by induction on the operands from the end. -/
theorem foldlM_buildMatch (hany : b.anyExact = false) (hvmt : b.vmt = [])
    (hacc : ∀ x ∈ ops, ∃ t, types[x.1]? = some t ∧ x.2.accepted t = true)
    (hroom : (ops.map (·.2.numVariables)).sum ≤ b.varSize) :
    ∃ b', ops.foldlM (buildMatch st types block thread) b = some b' ∧
      ObjectBuilt st types block thread ops b b' := by
  induction ops using List.reverseRecOn with
  | nil => exact ⟨b, rfl, .nil hany hvmt⟩
  | append_singleton ops x ih =>
    rw [List.map_append, List.sum_append] at hroom
    simp only [List.map_cons, List.map_nil, List.sum_cons, List.sum_nil, Nat.add_zero] at hroom
    obtain ⟨b₁, hfold, h₁⟩ := ih (fun y hy => hacc y (List.mem_append_left _ hy)) (by omega)
    obtain ⟨ty, hty, hxacc⟩ := hacc x (List.mem_append_right _ List.mem_cons_self)
    have hold : b₁.OldTable := by
      intro tmp htmp
      rcases h₁.locs tmp htmp with ⟨i, hi⟩ | hin
      · rw [hi]
        exact old_field _ _
      · exact hin.old (Nat.le_refl _)
    obtain ⟨b₂, hbuild, hx⟩ := @buildMatchElement_built st _ _ (.field block thread x.1) _
      hxacc hold (old_field _ _) (by
        rw [h₁.length, h₁.varSize]
        exact hroom)
    refine ⟨b₂, ?_, h₁.append hty hx⟩
    rw [List.foldlM_append, hfold]
    simp [buildMatch, hty, hbuild]

end Object

end Meld
