import Mathlib.Algebra.BigOperators.Group.List.Basic
import Mathlib.Order.Monotone.Basic
import Meld.Vm.MatchObjectBuild

/-!
# A match object that is patched is as good as a new one

When an iterate instruction is executed again, `retrieve_match_object` does not build its match
object anew but writes the values that can have changed into the old one.  The object then denotes
the pattern that a new object would denote, as long as the last operand for a field decides: if a
field has two operands, first a register, a field or the host and at last a constant, a new object
holds the constant, but the patch finds the entry of the first operand and writes its value.

* `ObjectOk`, `BlockOk`, `MemOk`: the objects of a block, each with its own list patterns.
* `patch_eq`: what a patch writes.
* `newBlock_spec`, `retrieveMatchObject_spec`: the two halves of a retrieval.
* `faithful_iff`: the object can stand for a new one, in every state and after any retrievals by any
  threads, if and only if the last operands decide.
* `not_forall_faithful_match`: an instruction whose patched object is wrong.
-/

namespace Meld

/-! ## Counting -/

/-- `count_var_match_element` counts the entries that `build_match_element` makes. -/
theorem countVarMatchElement_eq {op : MatchOperand} {ty : FieldType}
    (hacc : op.accepted ty = true) : countVarMatchElement op ty = some op.numVariables := by
  induction op generalizing ty with
  | list head tail ihead itail =>
    cases ty with
    | list sub =>
      simp only [MatchOperand.accepted, Bool.and_eq_true, Bool.or_eq_true] at hacc
      have hpart : ∀ (part : MatchOperand) (ty : FieldType),
          (part.accepted ty = true → countVarMatchElement part ty = some part.numVariables) →
          part.isAny = true ∨ part.accepted ty = true →
          (if part.isAny then some 0 else countVarMatchElement part ty) =
            some part.numVariables := by
        intro part ty ih hor
        cases hany : part.isAny with
        | false =>
          rw [hany] at hor
          exact ih (hor.resolve_left Bool.false_ne_true)
        | true =>
          cases part with
          | any => rfl
          | _ => cases hany
      simp only [countVarMatchElement, hpart head sub ihead hacc.1,
        hpart tail (.list sub) itail hacc.2, Option.bind_eq_bind, Option.bind_some]
      rfl
    | _ => cases hacc
  | _ =>
    cases ty with
    | int | float | node | list => first | rfl | cases hacc
    | _ => cases hacc

theorem countVariableMatchElements_eq (I : MatchInstruction) :
    countVariableMatchElements I.types I.ops = some (I.ops.map (·.2.numVariables)).sum := by
  have hfold : ∀ (ops : List (ℕ × MatchOperand)) (n : ℕ),
      (∀ x ∈ ops, ∃ t, I.types[x.1]? = some t ∧ x.2.accepted t = true) →
      ops.foldlM (fun n x => do
        let t ← I.types[x.1]?
        let k ← countVarMatchElement x.2 t
        some (n + k)) n = some (n + (ops.map (·.2.numVariables)).sum) := by
    intro ops
    induction ops with
    | nil => exact fun n _ => rfl
    | cons x ops ih =>
      intro n hacc
      obtain ⟨t, ht, hx⟩ := hacc x List.mem_cons_self
      have hrest := ih (n + x.2.numVariables) fun y hy => hacc y (List.mem_cons_of_mem _ hy)
      rw [List.foldlM_cons]
      simp only [ht, countVarMatchElement_eq hx, Option.bind_eq_bind, Option.bind_some]
      simp only [Option.bind_eq_bind] at hrest
      rw [hrest, List.map_cons, List.sum_cons, Nat.add_assoc]
  rw [countVariableMatchElements, hfold I.ops 0 I.accepted, Nat.zero_add]

/-! ## Patching -/

/-- The match fields after a patch: the last entry for an address decides. -/
def patched (st : MatchState) (vmt : List MatchTemplate) (cells : MatchLoc → MatchCell) :
    MatchLoc → MatchCell := fun l =>
  match lastSource vmt l with
  | some s => ⟨(cells l).exact, (cells l).ty, s.value st⟩
  | none => cells l

section Patch

variable {st : MatchState} {vmt : List MatchTemplate} {cells : MatchLoc → MatchCell} {l : MatchLoc}

theorem patched_of_none (h : lastSource vmt l = none) : patched st vmt cells l = cells l := by
  rw [patched, h]

theorem patched_of_some {s : MatchSource} (h : lastSource vmt l = some s) :
    patched st vmt cells l = ⟨(cells l).exact, (cells l).ty, s.value st⟩ := by
  rw [patched, h]

theorem exact_patched : (patched st vmt cells l).exact = (cells l).exact := by
  cases h : lastSource vmt l with
  | none => rw [patched_of_none h]
  | some s => rw [patched_of_some h]

theorem patched_append (tmp : MatchTemplate) : patched st (vmt ++ [tmp]) cells =
    MatchInstruction.patchCell st (patched st vmt cells) tmp := by
  funext l
  rw [MatchInstruction.patchCell]
  by_cases hl : tmp.loc = l
  · subst hl
    have hlast : lastSource (vmt ++ [tmp]) tmp.loc = some tmp.source := by
      rw [lastSource_append]
      simp [lastSource]
    rw [patched_of_some hlast, Function.update_self, exact_patched]
    congr 1
    cases h : lastSource vmt tmp.loc with
    | none => rw [patched_of_none h]
    | some s => rw [patched_of_some h]
  · have hlast : lastSource (vmt ++ [tmp]) l = lastSource vmt l :=
      lastSource_append_of_ne fun t ht => by
        rw [List.mem_singleton.mp ht]
        exact hl
    rw [Function.update_of_ne (fun e => hl e.symm), patched, patched, hlast]

/-- **The loop over the table** of an object that was filled. -/
theorem patch_eq {h : MatchHeader} (hsize : h.varSize = h.vmt.length) :
    MatchInstruction.patch st h cells = some (patched st h.vmt cells) := by
  have hloop : ∀ k ≤ h.vmt.length, (List.range k).foldlM
      (fun cells i => (h.vmt[i]?).map (MatchInstruction.patchCell st cells)) cells =
        some (patched st (h.vmt.take k) cells) := by
    intro k
    induction k with
    | zero => exact fun _ => rfl
    | succ k ih =>
      intro hk
      rw [List.range_succ, List.foldlM_append, ih (by omega)]
      have hget : h.vmt[k]? = some h.vmt[k] := List.getElem?_eq_getElem (by omega)
      simp only [List.foldlM_cons, List.foldlM_nil, hget, Option.map_some, Option.bind_eq_bind,
        Option.bind_some]
      rw [List.take_add_one, hget, Option.toList_some, patched_append]
      rfl
  rw [MatchInstruction.patch, hsize, hloop _ (Nat.le_refl _), List.take_length]

end Patch

/-! ## Objects -/

/-- An object of the instruction, with its list patterns from `lo` up to `hi`: its table is filled,
and its fields have the forms of the last operands. -/
structure ObjectOk (I : MatchInstruction) (cells : MatchLoc → MatchCell) (h : MatchHeader)
    (block thread lo hi : ℕ) : Prop where
  varSize : h.varSize = h.vmt.length
  length : h.vmt.length = (I.ops.map (·.2.numVariables)).sum
  anyExact : h.anyExact = I.ops.any fun x => !x.2.isAny
  locs : ∀ tmp ∈ h.vmt, (∃ i, tmp.loc = .field block thread i) ∨ tmp.loc.Within lo hi
  last : ∀ i, lastSource h.vmt (.field block thread i) = lastVariable I.ops i
  free : ∀ i ty, I.types[i]? = some ty → lastOperand I.ops i = none →
    (cells (.field block thread i)).exact = false
  literal : ∀ i op v, lastOperand I.ops i = some op → op.literal? = some v →
    (cells (.field block thread i)).exact = true
  tracked : ∀ i op ty, lastOperand I.ops i = some op → I.types[i]? = some ty →
    (op.source? = none → lastVariable I.ops i = none) →
    Tracked cells h.vmt lo hi op ty (.field block thread i)

section Objects

variable {I : MatchInstruction} {st : MatchState} {mem mem' : MatchMemory}
  {cells cells' : MatchLoc → MatchCell} {h : MatchHeader} {block thread lo hi lo' hi' : ℕ}

/-- An object stays as it is when its match fields do. -/
theorem ObjectOk.congr (ok : ObjectOk I cells h block thread lo hi) (hlo : lo' ≤ lo)
    (hhi : hi ≤ hi')
    (hcells : ∀ l : MatchLoc, (∃ i, l = .field block thread i) ∨ l.Within lo hi →
      cells' l = cells l) : ObjectOk I cells' h block thread lo' hi' := by
  refine ⟨ok.varSize, ok.length, ok.anyExact, ?_, ok.last, ?_, ?_, ?_⟩
  · exact fun tmp htmp => (ok.locs tmp htmp).imp_right fun hin => hin.mono hlo hhi
  · intro i ty hty hnone
    rw [hcells _ (Or.inl ⟨i, rfl⟩)]
    exact ok.free i ty hty hnone
  · intro i op v hop hv
    rw [hcells _ (Or.inl ⟨i, rfl⟩)]
    exact ok.literal i op v hop hv
  · intro i op ty hop hty hvar
    refine (ok.tracked i op ty hop hty hvar).tracked_congr hlo hhi (fun l hl => hcells l ?_)
      fun _ _ => rfl
    exact hl.imp_left fun heq => ⟨i, heq⟩

/-- What `init` and `build_match_object` leave: a new object, with the values of the state. -/
structure NewObject (I : MatchInstruction) (st : MatchState) (block thread : ℕ)
    (mem mem' : MatchMemory) : Prop where
  fresh : mem.fresh ≤ mem'.fresh
  ok : ObjectOk I mem'.cells (mem'.headers block thread) block thread mem.fresh mem'.fresh
  valued : ∀ i op ty, lastOperand I.ops i = some op → I.types[i]? = some ty →
    Valued mem'.cells st mem.fresh mem'.fresh op ty (.field block thread i)
  frame : ∀ l : MatchLoc, (∀ i, l ≠ .field block thread i) → l.Old mem.fresh →
    mem'.cells l = mem.cells l
  headers : ∀ b t, b ≠ block ∨ t ≠ thread → mem'.headers b t = mem.headers b t
  nextBlock : mem'.nextBlock = mem.nextBlock
  slot : mem'.block = mem.block

theorem initCells_of_ne {cells : MatchLoc → MatchCell} {l : MatchLoc}
    (hl : ∀ i, l ≠ .field block thread i) : I.initCells cells block thread l = cells l := by
  cases l with
  | field b t num =>
    rw [MatchInstruction.initCells, if_neg]
    rintro ⟨rfl, rfl⟩
    exact hl num rfl
  | head lm => rfl
  | tail lm => rfl

/-- A literal is exact. -/
theorem OperandShape.exact_of_literal {cells : MatchLoc → MatchCell}
    {var : FieldType → MatchLoc → MatchSource → Prop} {const : MatchLoc → Prop}
    {op : MatchOperand} {ty : FieldType} {loc : MatchLoc} {v : ℕ}
    (h : OperandShape cells var const lo hi op ty loc) (hv : op.literal? = some v) :
    (cells loc).exact = true := by
  cases h with
  | source hs hty h _ => exact h
  | literal _ _ h _ _ => exact h
  | any => cases hv
  | nil h _ _ => exact h
  | nonNil h _ _ => exact h
  | list h _ _ _ _ _ _ => exact h

/-- The last operand for a field is one of the operands. -/
theorem mem_of_lastOperand {ops : List (ℕ × MatchOperand)} {i : ℕ} {op : MatchOperand}
    (h : lastOperand ops i = some op) : (i, op) ∈ ops := by
  rw [lastOperand, List.findSome?_eq_some_iff] at h
  obtain ⟨l₁, x, l₂, hrev, hx, -⟩ := h
  split at hx
  · rename_i hi
    have hmem : x ∈ ops := by
      rw [← List.mem_reverse, hrev]
      exact List.mem_append_right _ List.mem_cons_self
    obtain ⟨j, o⟩ := x
    obtain rfl := Option.some.inj hx
    exact hi ▸ hmem
  · cases hx

/-- **One object is built.** -/
theorem build_spec (mem : MatchMemory) (block thread : ℕ) :
    ∃ mem', I.build st (I.ops.map (·.2.numVariables)).sum block thread mem = some mem' ∧
      NewObject I st block thread mem mem' := by
  obtain ⟨b', hfold, hb⟩ := @foldlM_buildMatch st _ block thread _
    ⟨I.initCells mem.cells block thread, mem.fresh, false,
      (I.ops.map (·.2.numVariables)).sum, []⟩ rfl rfl I.accepted (Nat.le_refl _)
  refine ⟨_, by rw [MatchInstruction.build, hfold]; rfl, ?_⟩
  have hheader : Function.update mem.headers block (Function.update (mem.headers block) thread
      ⟨b'.anyExact, b'.varSize, b'.vmt⟩) block thread = ⟨b'.anyExact, b'.varSize, b'.vmt⟩ := by
    rw [Function.update_self, Function.update_self]
  have hok : ObjectOk I b'.cells ⟨b'.anyExact, b'.varSize, b'.vmt⟩ block thread mem.fresh
      b'.fresh := by
    refine ⟨hb.varSize.trans hb.length.symm, hb.length, hb.anyExact, hb.locs, hb.last, ?_, ?_,
      hb.tracked⟩
    · intro i ty hty hnone
      rw [hb.frame _ (fun j hj => by injection hj with _ _ hij; exact hij ▸ hnone) (old_field _ _)]
      show (I.initCells mem.cells block thread (.field block thread i)).exact = false
      rw [MatchInstruction.initCells, if_pos ⟨rfl, rfl⟩, hty]
    · intro i op v hop hv
      obtain ⟨ty, hty, -⟩ := I.accepted (i, op) (mem_of_lastOperand hop)
      exact (hb.valued i op ty hop hty).exact_of_literal hv
  rw [← hheader] at hok
  refine ⟨hb.fresh, hok, hb.valued, ?_, ?_, rfl, rfl⟩
  · intro l hl hold
    show b'.cells l = _
    rw [hb.frame l (fun i hi => absurd hi (hl i)) hold]
    exact initCells_of_ne hl
  · rintro b t (hb | ht)
    · show Function.update mem.headers block _ b t = _
      rw [Function.update_of_ne hb]
    · show Function.update mem.headers block _ b t = _
      by_cases hb : b = block
      · subst hb
        rw [Function.update_self, Function.update_of_ne ht]
      · rw [Function.update_of_ne hb]

end Objects

/-! ## Blocks -/

/-- The objects of the threads below `k` in a block; those of the thread `t` has the list patterns
from `bound t` up to `bound (t + 1)`. -/
structure BlockOk (I : MatchInstruction) (mem : MatchMemory) (block k : ℕ) (bound : ℕ → ℕ) :
    Prop where
  lt : 1 < bound 0
  mono : Monotone bound
  le : bound k ≤ mem.fresh
  objects : ∀ t < k, ObjectOk I mem.cells (mem.headers block t) block t (bound t) (bound (t + 1))

/-- A new block, as far as it is filled. -/
structure NewBlock (I : MatchInstruction) (st : MatchState) (k : ℕ) (mem mem' : MatchMemory) :
    Prop where
  fresh : mem.fresh ≤ mem'.fresh
  ok : ∃ bound, BlockOk I mem' mem.nextBlock k bound ∧ ∀ t < k, ∀ i op ty,
    lastOperand I.ops i = some op → I.types[i]? = some ty →
      Valued mem'.cells st (bound t) (bound (t + 1)) op ty (.field mem.nextBlock t i)
  frame : ∀ l : MatchLoc, (∀ t i, l ≠ .field mem.nextBlock t i) → l.Old mem.fresh →
    mem'.cells l = mem.cells l
  headers : ∀ b t, b ≠ mem.nextBlock → mem'.headers b t = mem.headers b t
  nextBlock : mem'.nextBlock = mem.nextBlock
  slot : mem'.block = mem.block

section Blocks

variable {I : MatchInstruction} {st : MatchState} {mem mem' mem'' : MatchMemory}

/-- An object of one thread more. -/
theorem NewBlock.append {k : ℕ} (h : NewBlock I st k mem mem')
    (hk : NewObject I st mem.nextBlock k mem' mem'') : NewBlock I st (k + 1) mem mem'' := by
  obtain ⟨bound, hb, hval⟩ := h.ok
  have hle := hb.le
  have hfresh := hk.fresh
  -- the objects of the other threads are not written
  have hcells : ∀ t < k, ∀ l : MatchLoc, (∃ i, l = .field mem.nextBlock t i) ∨
      l.Within (bound t) (bound (t + 1)) → mem''.cells l = mem'.cells l := by
    rintro t ht l (⟨i, rfl⟩ | hl)
    · refine hk.frame _ (fun j hj => ?_) (old_field _ _)
      injection hj with _ htk _
      omega
    · have hmono : bound (t + 1) ≤ bound k := hb.mono ht
      refine hk.frame _ (fun j hj => ?_) (hl.old (by omega))
      subst hj
      exact not_within_field hl
  refine ⟨Nat.le_trans h.fresh hfresh, ⟨fun t => if t ≤ k then bound t else mem''.fresh,
    ⟨?_, ?_, ?_, ?_⟩, ?_⟩, ?_, ?_, hk.nextBlock.trans h.nextBlock, hk.slot.trans h.slot⟩
  · rw [if_pos (Nat.zero_le k)]
    exact hb.lt
  · refine monotone_nat_of_le_succ fun t => ?_
    by_cases ht : t + 1 ≤ k
    · rw [if_pos ht, if_pos (by omega)]
      exact hb.mono (Nat.le_succ t)
    · rw [if_neg ht]
      split
      · have hmono : bound t ≤ bound k := hb.mono ‹_›
        omega
      · exact Nat.le_refl _
  · rw [if_neg (by omega)]
  · intro t ht
    by_cases htk : t = k
    · subst htk
      rw [if_pos (Nat.le_refl _), if_neg (by omega)]
      exact hk.ok.congr hle (Nat.le_refl _) fun _ _ => rfl
    · have hlt : t < k := by omega
      rw [if_pos (by omega), if_pos (by omega)]
      rw [hk.headers _ _ (Or.inr htk)]
      exact (hb.objects t hlt).congr (Nat.le_refl _) (Nat.le_refl _) (hcells t hlt)
  · intro t ht i op ty hop hty
    beta_reduce
    by_cases htk : t = k
    · subst htk
      rw [if_pos (Nat.le_refl _), if_neg (by omega)]
      exact (hk.valued i op ty hop hty).valued_congr hle (Nat.le_refl _) fun _ _ => rfl
    · have hlt : t < k := by omega
      rw [if_pos (by omega), if_pos (by omega)]
      refine (hval t hlt i op ty hop hty).valued_congr (Nat.le_refl _) (Nat.le_refl _) fun l hl => ?_
      exact hcells t hlt l (hl.imp_left fun heq => ⟨i, heq⟩)
  · intro l hl hold
    rw [hk.frame l (hl k) (hold.mono h.fresh)]
    exact h.frame l hl hold
  · intro b t hb
    rw [hk.headers b t (Or.inl hb), h.headers b t hb]

/-- **A block is built**, by induction on the threads. -/
theorem newBlock_spec (hfresh : 1 < mem.fresh) :
    ∃ mem', I.newBlock st mem = some mem' ∧ NewBlock I st I.numThreads mem mem' := by
  have hloop : ∀ k, ∃ mem', (List.range k).foldlM
      (fun mem thread => I.build st (I.ops.map (·.2.numVariables)).sum mem.nextBlock thread mem)
        mem = some mem' ∧ NewBlock I st k mem mem' := by
    intro k
    induction k with
    | zero =>
      refine ⟨mem, rfl, Nat.le_refl _, ⟨fun _ => mem.fresh, ⟨hfresh, fun _ _ _ => Nat.le_refl _,
        Nat.le_refl _, ?_⟩, ?_⟩, fun _ _ _ => rfl, fun _ _ _ => rfl, rfl, rfl⟩
      · exact fun t ht => absurd ht (Nat.not_lt_zero t)
      · exact fun t ht => absurd ht (Nat.not_lt_zero t)
    | succ k ih =>
      obtain ⟨mem₁, hfold, h₁⟩ := ih
      obtain ⟨mem₂, hbuild, h₂⟩ := @build_spec I st mem₁ mem₁.nextBlock k
      refine ⟨mem₂, ?_, h₁.append (h₁.nextBlock ▸ h₂)⟩
      rw [List.range_succ, List.foldlM_append, hfold]
      simp [hbuild]
  obtain ⟨mem', hfold, h'⟩ := hloop I.numThreads
  refine ⟨mem', ?_, h'⟩
  have hfits : ¬ matchMemSize I.types.length (I.ops.map (·.2.numVariables)).sum >
      matchObjectSize := Nat.not_lt.mpr I.fits
  simp only [MatchInstruction.newBlock, countVariableMatchElements_eq, Option.bind_eq_bind,
    Option.bind_some, if_neg hfits]
  exact hfold

end Blocks

/-! ## Retrievals -/

/-- The memory of an instruction: the block in use, if there is one, has its objects. -/
structure MemOk (I : MatchInstruction) (mem : MatchMemory) : Prop where
  fresh : 1 < mem.fresh
  block : ∀ block, mem.block = some block → block < mem.nextBlock ∧
    ∃ bound, BlockOk I mem block I.numThreads bound

section Retrieve

variable {I : MatchInstruction} {st : MatchState} {mem mem' : MatchMemory}
  {cells : MatchLoc → MatchCell} {h : MatchHeader} {block thread lo hi : ℕ}

/-- The values after a patch are those of the state. -/
theorem OperandShape.valued_patched {vmt : List MatchTemplate} {op : MatchOperand} {ty : FieldType}
    {loc : MatchLoc} (h : Tracked cells vmt lo hi op ty loc) :
    Valued (patched st vmt cells) st lo hi op ty loc := by
  refine h.map (Nat.le_refl _) (Nat.le_refl _) (fun l _ => exact_patched) (fun l _ ty s hs => ?_)
    fun l _ hnone => ⟨?_, trivial⟩
  · rw [patched_of_some hs]
  · rw [patched_of_none hnone]

/-- A patch keeps the object. -/
theorem ObjectOk.patched (ok : ObjectOk I cells h block thread lo hi) :
    ObjectOk I (patched st h.vmt cells) h block thread lo hi := by
  refine ⟨ok.varSize, ok.length, ok.anyExact, ok.locs, ok.last, ?_, ?_, ?_⟩
  · exact fun i ty hty hnone => exact_patched.trans (ok.free i ty hty hnone)
  · exact fun i op v hop hv => exact_patched.trans (ok.literal i op v hop hv)
  · intro i op ty hop hty hvar
    refine (ok.tracked i op ty hop hty hvar).map (Nat.le_refl _) (Nat.le_refl _)
      (fun l _ => exact_patched) (fun _ _ _ _ hs => hs) fun l _ hnone => ⟨?_, hnone⟩
    rw [patched_of_none hnone]

/-- A patch writes no other address. -/
theorem ObjectOk.patched_of_ne (ok : ObjectOk I cells h block thread lo hi) {l : MatchLoc}
    (hfield : ∀ i, l ≠ .field block thread i) (hlist : ¬ l.Within lo hi) :
    Meld.patched st h.vmt cells l = cells l := by
  refine patched_of_none (lastSource_eq_none fun tmp htmp heq => ?_)
  rcases ok.locs tmp htmp with ⟨i, hi⟩ | hin
  · exact hfield i (heq.symm.trans hi)
  · exact hlist (heq ▸ hin)

/-- In a constant match there is nothing to patch. -/
theorem ObjectOk.patched_of_constant (ok : ObjectOk I cells h block thread lo hi)
    (hconst : I.constant = true) : Meld.patched st h.vmt cells = cells := by
  have hsum : (I.ops.map (·.2.numVariables)).sum = 0 := by
    refine List.sum_eq_zero fun n hn => ?_
    obtain ⟨x, hx, rfl⟩ := List.mem_map.mp hn
    exact I.constant_ok hconst x hx
  have hnil : h.vmt = [] := List.eq_nil_of_length_eq_zero (ok.length.trans hsum)
  funext l
  rw [hnil]
  exact patched_of_none rfl

/-- The two scopes of different threads of a block are apart. -/
theorem BlockOk.apart {k : ℕ} {bound : ℕ → ℕ} (hb : BlockOk I mem block k bound) {t u : ℕ}
    (htu : t ≠ u) {l : MatchLoc} (hl : l.Within (bound t) (bound (t + 1))) :
    ¬ l.Within (bound u) (bound (u + 1)) := by
  rintro ⟨lm, hlm, h1, h2⟩
  obtain ⟨lm', hlm', h3, h4⟩ := hl
  rw [hlm, Option.some.injEq] at hlm'
  subst hlm'
  rcases Nat.lt_or_gt_of_ne htu with hlt | hgt
  · have hmono : bound (t + 1) ≤ bound u := hb.mono hlt
    omega
  · have hmono : bound (u + 1) ≤ bound t := hb.mono hgt
    omega

/-- The memory is the same where the objects of a block are. -/
structure SameBlock (I : MatchInstruction) (block : ℕ) (bound : ℕ → ℕ) (mem mem' : MatchMemory) :
    Prop where
  headers : ∀ t, mem'.headers block t = mem.headers block t
  cells : ∀ l : MatchLoc, (∃ t i, l = .field block t i) ∨
    l.Within (bound 0) (bound I.numThreads) → mem'.cells l = mem.cells l

theorem BlockOk.same {bound : ℕ → ℕ} (hb : BlockOk I mem block I.numThreads bound)
    (hsame : SameBlock I block bound mem mem') (hfresh : mem.fresh ≤ mem'.fresh) :
    BlockOk I mem' block I.numThreads bound := by
  refine ⟨hb.lt, hb.mono, Nat.le_trans hb.le hfresh, fun t ht => ?_⟩
  rw [hsame.headers]
  refine (hb.objects t ht).congr (Nat.le_refl _) (Nat.le_refl _) fun l hl => hsame.cells l ?_
  rcases hl with ⟨i, hi⟩ | hl
  · exact Or.inl ⟨t, i, hi⟩
  · exact Or.inr (hl.mono (hb.mono (Nat.zero_le t)) (hb.mono ht))

/-- **The first half of a retrieval** finds the block in use, or puts a new one there. -/
theorem findBlock_spec (ok : MemOk I mem) (seen : Bool) :
    ∃ mem₁ block bound, (if mem.block.isSome && seen then some mem
      else (I.newBlock st mem).map fun new =>
        { new with nextBlock := mem.nextBlock + 1, block := mem.block.or (some mem.nextBlock) }) =
          some mem₁ ∧ mem₁.block = some block ∧ block < mem₁.nextBlock ∧ 1 < mem₁.fresh ∧
      BlockOk I mem₁ block I.numThreads bound ∧
      ∀ b, mem.block = some b → b = block ∧ BlockOk I mem block I.numThreads bound ∧
        SameBlock I block bound mem mem₁ := by
  by_cases hfind : (mem.block.isSome && seen) = true
  · rw [if_pos hfind]
    obtain ⟨block, hblock⟩ := Option.isSome_iff_exists.mp (Bool.and_eq_true_iff.mp hfind).1
    obtain ⟨hlt, bound, hb⟩ := ok.block block hblock
    refine ⟨mem, block, bound, rfl, hblock, hlt, ok.fresh, hb, fun b hb' => ?_⟩
    rw [hblock, Option.some.injEq] at hb'
    exact ⟨hb'.symm, hb, fun _ => rfl, fun _ _ => rfl⟩
  · rw [if_neg hfind]
    obtain ⟨new, hnew, hn⟩ := @newBlock_spec I st _ ok.fresh
    have hfresh := hn.fresh
    have hfresh' := ok.fresh
    rw [hnew, Option.map_some]
    cases hblock : mem.block with
    | none =>
      obtain ⟨bound, hb, -⟩ := hn.ok
      refine ⟨_, mem.nextBlock, bound, rfl, rfl, Nat.lt_succ_self _, by
        show 1 < new.fresh
        omega, ⟨hb.lt, hb.mono, hb.le, hb.objects⟩, fun b hb' => by cases hb'⟩
    | some block =>
      obtain ⟨hlt, bound, hb⟩ := ok.block block hblock
      have hsame : SameBlock I block bound mem new := by
        refine ⟨fun t => hn.headers block t (Nat.ne_of_lt hlt), fun l hl => ?_⟩
        have hle := hb.le
        rcases hl with ⟨t, i, rfl⟩ | hl
        · refine hn.frame _ (fun t' i' heq => ?_) (old_field _ _)
          injection heq with h1 _ _
          omega
        · refine hn.frame l (fun t' i' heq => ?_) (hl.old hle)
          subst heq
          exact not_within_field hl
      have hb' := hb.same hsame hfresh
      refine ⟨_, block, bound, rfl, rfl, Nat.lt_succ_of_lt hlt, by
        show 1 < new.fresh
        omega, ⟨hb'.lt, hb'.mono, hb'.le, hb'.objects⟩, fun b hbb => ?_⟩
      exact ⟨(Option.some.inj hbb).symm, hb, hsame.headers, hsame.cells⟩

/-- What a retrieval leaves: the object of the thread is a patched one, and those of the other
threads are as they were. -/
structure Retrieved (I : MatchInstruction) (thread : ℕ) (st : MatchState) (mem mem' : MatchMemory)
    (block : ℕ) : Prop where
  ok : MemOk I mem'
  object : ∃ cells lo hi, 1 < lo ∧
    ObjectOk I cells (mem'.headers block thread) block thread lo hi ∧
    mem'.cells = patched st (mem'.headers block thread).vmt cells
  others : ∀ b, mem.block = some b → ∀ t < I.numThreads, t ≠ thread → ∃ lo hi, 1 < lo ∧
    ObjectOk I mem.cells (mem.headers b t) b t lo hi ∧ mem'.headers b t = mem.headers b t ∧
    ∀ l : MatchLoc, (∃ i, l = .field b t i) ∨ l.Within lo hi → mem'.cells l = mem.cells l

/-- **A retrieval.** -/
theorem retrieveMatchObject_spec (ok : MemOk I mem) (ht : thread < I.numThreads) (seen : Bool) :
    ∃ mem' block, I.retrieveMatchObject thread st seen mem = some (mem', block) ∧
      Retrieved I thread st mem mem' block := by
  obtain ⟨mem₁, block, bound, hfind, hslot, hlt, hfresh, hb, hold⟩ :=
    @findBlock_spec _ st _ ok seen
  have hobj := hb.objects thread ht
  have hrun : I.retrieveMatchObject thread st seen mem =
      some ({ mem₁ with cells := patched st (mem₁.headers block thread).vmt mem₁.cells }, block) := by
    rw [MatchInstruction.retrieveMatchObject, hfind]
    simp only [Option.bind_eq_bind, Option.bind_some, hslot]
    cases hconst : I.constant with
    | true =>
      rw [if_pos rfl, hobj.patched_of_constant hconst]
      rw [← hslot]
    | false => rw [if_neg Bool.false_ne_true, patch_eq hobj.varSize, Option.bind_some]
  have hbound : ∀ t, 1 < bound t := fun t => Nat.lt_of_lt_of_le hb.lt (hb.mono (Nat.zero_le t))
  -- the patch writes the object of the thread only
  have hothers : ∀ t ≠ thread, ∀ l : MatchLoc, (∃ i, l = .field block t i) ∨
      l.Within (bound t) (bound (t + 1)) →
        patched st (mem₁.headers block thread).vmt mem₁.cells l = mem₁.cells l := by
    rintro t hne l (⟨i, rfl⟩ | hl)
    · refine hobj.patched_of_ne (fun j hj => ?_) not_within_field
      injection hj with _ htt _
      exact hne htt
    · refine hobj.patched_of_ne (fun j hj => ?_) (hb.apart hne hl)
      subst hj
      exact not_within_field hl
  refine ⟨_, block, hrun, ⟨hfresh, fun b hb' => ?_⟩,
    ⟨mem₁.cells, bound thread, bound (thread + 1), hbound thread, hobj, rfl⟩,
    fun b hb' t htn hne => ?_⟩
  · obtain rfl : block = b := Option.some.inj (hslot.symm.trans hb')
    refine ⟨hlt, bound, hb.lt, hb.mono, hb.le, fun t htn => ?_⟩
    by_cases hne : t = thread
    · subst hne
      exact hobj.patched
    · exact (hb.objects t htn).congr (Nat.le_refl _) (Nat.le_refl _) (hothers t hne)
  · obtain ⟨rfl, hb₀, hsame⟩ := hold b hb'
    refine ⟨bound t, bound (t + 1), hbound t, hb₀.objects t htn, hsame.headers t, fun l hl => ?_⟩
    refine (hothers t hne l hl).trans (hsame.cells l ?_)
    rcases hl with ⟨i, hi⟩ | hl
    · exact Or.inl ⟨t, i, hi⟩
    · exact Or.inr (hl.mono (hb.mono (Nat.zero_le t)) (hb.mono htn))

end Retrieve

/-! ## New objects and patched ones -/

/-- The memory before the instruction is executed for the first time. -/
def MatchMemory.start (cells : MatchLoc → MatchCell) (headers : ℕ → ℕ → MatchHeader) :
    MatchMemory :=
  ⟨cells, 2, headers, 0, none⟩

/-- The memory after retrievals of any threads in any states. -/
inductive MatchReach (I : MatchInstruction) : MatchMemory → Prop where
  | start (cells : MatchLoc → MatchCell) (headers : ℕ → ℕ → MatchHeader) :
      MatchReach I (.start cells headers)
  | retrieve {mem mem' : MatchMemory} {thread block : ℕ} {st : MatchState} {seen : Bool}
      (h : MatchReach I mem) (ht : thread < I.numThreads)
      (hrun : I.retrieveMatchObject thread st seen mem = some (mem', block)) : MatchReach I mem'

/-- The two objects denote the same pattern, field by field. -/
structure SameObject (I : MatchInstruction) (mem : MatchMemory) (block thread : ℕ)
    (mem' : MatchMemory) (block' thread' : ℕ) : Prop where
  anyExact : (mem.headers block thread).anyExact = (mem'.headers block' thread').anyExact
  fields : ∀ i ty, I.types[i]? = some ty → ∃ p, Reads mem.cells ty (.field block thread i) p ∧
    Reads mem'.cells ty (.field block' thread' i) p

/-- A retrieval returns an object that denotes the pattern of a new one, and leaves the objects of
the other threads alone. -/
structure Served (I : MatchInstruction) (mem : MatchMemory) (thread : ℕ) (st : MatchState)
    (seen : Bool) (mem' : MatchMemory) (block : ℕ) : Prop where
  run : I.retrieveMatchObject thread st seen mem = some (mem', block)
  same : ∀ cells headers, ∃ new, I.newBlock st (.start cells headers) = some new ∧
    SameObject I mem' block thread new 0 thread
  others : ∀ b, mem.block = some b → ∀ t < I.numThreads, t ≠ thread → SameObject I mem' b t mem b t

/-- Every retrieval, by any thread in any state and after any retrievals, is served. -/
def MatchInstruction.Faithful (I : MatchInstruction) : Prop :=
  ∀ mem, MatchReach I mem → ∀ thread < I.numThreads, ∀ st seen, ∃ mem' block,
    Served I mem thread st seen mem' block

/-- The last operand for a field decides: if it is constant, no operand for the field reads a
source. -/
def MatchInstruction.LastDecides (I : MatchInstruction) : Prop :=
  ∀ i op, lastOperand I.ops i = some op → op.source? = none → lastVariable I.ops i = none

section Faithful

variable {I : MatchInstruction} {mem : MatchMemory}

theorem memOk_of_reach (h : MatchReach I mem) : MemOk I mem := by
  induction h with
  | start cells headers => exact ⟨Nat.lt_succ_self 1, fun block hblock => by cases hblock⟩
  | retrieve h ht hrun ih =>
    obtain ⟨mem₁, block₁, hrun₁, hret⟩ := retrieveMatchObject_spec ih ht _
    rw [hrun, Option.some.injEq, Prod.mk.injEq] at hrun₁
    exact hrun₁.1 ▸ hret.ok

/-- An operand has a pattern, and the same one in memory that is the same where the operand is. -/
theorem OperandShape.exists_reads {cells cells' : MatchLoc → MatchCell}
    {var : FieldType → MatchLoc → MatchSource → Prop} {const : MatchLoc → Prop} {lo hi : ℕ}
    {op : MatchOperand} {ty : FieldType} {loc : MatchLoc}
    (h : OperandShape cells var const lo hi op ty loc) (hlo : 1 < lo)
    (hcells : ∀ l, l = loc ∨ l.Within lo hi → cells' l = cells l) :
    ∃ p, Reads cells' ty loc p ∧ Reads cells ty loc p := by
  induction h with
  | source hs hty h _ =>
    have heq := hcells _ (Or.inl rfl)
    refine ⟨_, .value (by rw [heq]; exact h) hty, ?_⟩
    rw [heq]
    exact .value h hty
  | literal _ hty h _ _ =>
    have heq := hcells _ (Or.inl rfl)
    refine ⟨_, .value (by rw [heq]; exact h) hty, ?_⟩
    rw [heq]
    exact .value h hty
  | any h => exact ⟨.any, .any (by rw [hcells _ (Or.inl rfl)]; exact h), .any h⟩
  | nil h hp _ =>
    have heq := hcells _ (Or.inl rfl)
    exact ⟨.nil, .nil (by rw [heq]; exact h) (by rw [heq]; exact hp), .nil h hp⟩
  | nonNil h hp _ =>
    have heq := hcells _ (Or.inl rfl)
    exact ⟨.nonNil, .nonNil (by rw [heq]; exact h) (by rw [heq]; exact hp), .nonNil h hp⟩
  | list h hp _ hlm hlm' _ _ ihead itail =>
    have heq := hcells _ (Or.inl rfl)
    obtain ⟨p, hp₁, hp₂⟩ := ihead fun l hl => hcells l (Or.inr (by
      rcases hl with rfl | hl
      · exact ⟨_, rfl, hlm, hlm'⟩
      · exact hl))
    obtain ⟨q, hq₁, hq₂⟩ := itail fun l hl => hcells l (Or.inr (by
      rcases hl with rfl | hl
      · exact ⟨_, rfl, hlm, hlm'⟩
      · exact hl))
    exact ⟨.list p q, .list (by rw [heq]; exact h) (by rw [heq]; exact hp) (by omega) hp₁ hq₁,
      .list h hp (by omega) hp₂ hq₂⟩

/-- A new block, built in memory that is not in use yet. -/
theorem newBlock_start (st : MatchState) (cells : MatchLoc → MatchCell)
    (headers : ℕ → ℕ → MatchHeader) {thread : ℕ} (ht : thread < I.numThreads) :
    ∃ new, I.newBlock st (.start cells headers) = some new ∧
      (new.headers 0 thread).anyExact = (I.ops.any fun x => !x.2.isAny) ∧
      ∀ i ty, I.types[i]? = some ty →
        (lastOperand I.ops i = none → Reads new.cells ty (.field 0 thread i) .any) ∧
        ∀ op, lastOperand I.ops i = some op →
          Reads new.cells ty (.field 0 thread i) (op.pattern st ty) := by
  obtain ⟨new, hnew, hn⟩ := @newBlock_spec I st
    (.start cells headers) (Nat.lt_succ_self 1)
  obtain ⟨bound, hb, hval⟩ := hn.ok
  have hlo : 1 < bound thread := Nat.lt_of_lt_of_le hb.lt (hb.mono (Nat.zero_le thread))
  refine ⟨new, hnew, (hb.objects thread ht).anyExact, fun i ty hty => ⟨fun hnone => ?_,
    fun op hop => ?_⟩⟩
  · exact .any ((hb.objects thread ht).free i ty hty hnone)
  · exact (hval thread ht i op ty hop hty).reads hlo

/-- **If the last operands decide, every retrieval is served.** -/
theorem faithful_of_lastDecides (hlast : I.LastDecides) : I.Faithful := by
  intro mem hreach thread ht st seen
  obtain ⟨mem', block, hrun, hret⟩ :=
    @retrieveMatchObject_spec _ st _ _ (memOk_of_reach hreach) ht seen
  obtain ⟨cells₀, lo, hi, hlo, hobj, hcells⟩ := hret.object
  refine ⟨mem', block, hrun, fun cells headers => ?_, fun b hb t htn hne => ?_⟩
  · obtain ⟨new, hnew, hany, hfields⟩ := newBlock_start st cells headers ht
    refine ⟨new, hnew, hobj.anyExact.trans hany.symm, fun i ty hty => ?_⟩
    obtain ⟨hfree, hop⟩ := hfields i ty hty
    cases hl : lastOperand I.ops i with
    | none =>
      refine ⟨.any, .any ?_, hfree hl⟩
      rw [hcells]
      exact exact_patched.trans (hobj.free i ty hty hl)
    | some op =>
      refine ⟨op.pattern st ty, ?_, hop op hl⟩
      rw [hcells]
      exact (hobj.tracked i op ty hl hty (hlast i op hl)).valued_patched.reads hlo
  · obtain ⟨lo', hi', hlo', hobj', hheader, hsame⟩ := hret.others b hb t htn hne
    refine ⟨by rw [hheader], fun i ty hty => ?_⟩
    cases hl : lastOperand I.ops i with
    | none =>
      have hfree := hobj'.free i ty hty hl
      refine ⟨.any, .any ?_, .any hfree⟩
      rw [hsame _ (Or.inl ⟨i, rfl⟩)]
      exact hfree
    | some op =>
      refine (hobj'.tracked i op ty hl hty (hlast i op hl)).exists_reads hlo' fun l hl' => ?_
      exact hsame l (hl'.imp_left fun heq => ⟨i, heq⟩)

/-- Two values that differ by one have different patterns. -/
theorem ofValue_succ_ne {ty : FieldType} (hty : ty.IsPlain) (v : ℕ) :
    MatchPattern.ofValue ty (v + 1) ≠ .ofValue ty v := by
  rcases hty with rfl | rfl | rfl
  · intro heq
    injection heq with heq
    simp only [valueAt] at heq
    omega
  · intro heq
    injection heq with heq
    simp only [valueAt] at heq
    omega
  · intro heq
    injection heq with heq
    simp only [valueAt] at heq
    omega

/-- The last source for a field is that of one of the operands. -/
theorem mem_of_lastVariable {ops : List (ℕ × MatchOperand)} {i : ℕ} {s : MatchSource}
    (h : lastVariable ops i = some s) : ∃ op, (i, op) ∈ ops ∧ op.source? = some s := by
  rw [lastVariable, List.findSome?_eq_some_iff] at h
  obtain ⟨l₁, x, l₂, hrev, hx, -⟩ := h
  split at hx
  · rename_i hi
    have hmem : x ∈ ops := by
      rw [← List.mem_reverse, hrev]
      exact List.mem_append_right _ List.mem_cons_self
    obtain ⟨j, op⟩ := x
    exact ⟨op, hi ▸ hmem, hx⟩
  · cases hx

/-- An operand for a plain type reads a source or is a constant. -/
theorem exists_literal {op : MatchOperand} {ty : FieldType} (hty : ty.IsPlain)
    (hacc : op.accepted ty = true) (hs : op.source? = none) : ∃ v, op.literal? = some v := by
  cases op with
  | int i => exact ⟨i, rfl⟩
  | float x => exact ⟨x, rfl⟩
  | node n => exact ⟨n, rfl⟩
  | reg | field | host => cases hs
  | any | nil | nonNil | list => rcases hty with rfl | rfl | rfl <;> cases hacc

/-- **If a constant comes after a source, the patched object is wrong**: in a state in which the
source has another value, it looks for that value, and a new object looks for the constant. -/
theorem lastDecides_of_faithful (h : I.Faithful) : I.LastDecides := by
  intro i op hop hs
  by_contra hvar
  obtain ⟨s, hvar⟩ := Option.ne_none_iff_exists'.mp hvar
  obtain ⟨ty, hty, hacc⟩ := I.accepted (i, op) (mem_of_lastOperand hop)
  obtain ⟨op', hmem', hs'⟩ := mem_of_lastVariable hvar
  obtain ⟨ty', hty', hacc'⟩ := I.accepted (i, op') hmem'
  obtain rfl : ty = ty' := Option.some.inj (hty.symm.trans hty')
  have hplain : ty.IsPlain := (@buildMatchElement_source ⟨fun _ => 0, fun _ _ => 0, 0⟩ _ _
    (.head 0) ⟨fun _ => ⟨false, .int, 0⟩, 0, false, 0, []⟩ _ hacc' hs').1
  obtain ⟨v, hv⟩ := exists_literal hplain hacc hs
  -- every source has the value `v + 1`
  let st : MatchState := ⟨fun _ => v + 1, fun _ _ => v + 1, v + 1⟩
  have hvalue : s.value st = v + 1 := by cases s <;> rfl
  let cells : MatchLoc → MatchCell := fun _ => ⟨false, .int, 0⟩
  let headers : ℕ → ℕ → MatchHeader := fun _ _ => ⟨false, 0, []⟩
  have hreach : MatchReach I (.start cells headers) := .start cells headers
  obtain ⟨mem', block, hserved⟩ := h _ hreach 0 I.numThreads_pos st true
  obtain ⟨mem₁, block₁, hrun, hret⟩ :=
    @retrieveMatchObject_spec _ st _ _ (memOk_of_reach hreach) I.numThreads_pos true
  have hsame := hserved.run.symm.trans hrun
  rw [Option.some.injEq, Prod.mk.injEq] at hsame
  obtain ⟨rfl, rfl⟩ := hsame
  obtain ⟨cells₀, lo, hi, -, hobj, hcells⟩ := hret.object
  obtain ⟨new, hnew, hsame⟩ := hserved.same cells headers
  obtain ⟨new', hnew', -, hfields⟩ := newBlock_start (I := I) st cells headers I.numThreads_pos
  obtain rfl : new = new' := Option.some.inj (hnew.symm.trans hnew')
  obtain ⟨p, hp, hp'⟩ := hsame.fields i ty hty
  have hcell : mem'.cells (.field block 0 i) =
      ⟨(cells₀ (.field block 0 i)).exact, (cells₀ (.field block 0 i)).ty, v + 1⟩ := by
    rw [hcells, patched_of_some ((hobj.last i).trans hvar), hvalue]
  have hread : Reads mem'.cells ty (.field block 0 i) (.ofValue ty (v + 1)) := by
    have hexact : (mem'.cells (.field block 0 i)).exact = true := by
      rw [hcell]
      exact hobj.literal i op v hop hv
    have hval := Reads.value hexact hplain
    rw [hcell] at hval
    exact hval
  have hnewread : Reads new.cells ty (.field 0 0 i) (.ofValue ty v) := by
    have := (hfields i ty hty).2 op hop
    rwa [MatchOperand.pattern_of_literal hv] at this
  exact ofValue_succ_ne hplain v ((hread.unique hp).trans (hp'.unique hnewread))

/-- **A patched match object is as good as a new one if and only if the last operands decide**: in
every state, after any retrievals by any threads, and with no effect on the objects of the other
threads. -/
theorem faithful_iff (I : MatchInstruction) : I.Faithful ↔ I.LastDecides :=
  ⟨lastDecides_of_faithful, faithful_of_lastDecides⟩

/-- One field of type `int`, matched with a register and then with a constant. -/
def twiceMatched : MatchInstruction where
  types := [.int]
  ops := [(0, .reg 1), (0, .int 5)]
  constant := false
  numThreads := 1
  ops_ne_nil := by simp
  numThreads_pos := Nat.one_pos
  accepted := by
    intro x hx
    refine ⟨.int, ?_⟩
    simp only [List.mem_cons, List.not_mem_nil, or_false] at hx
    rcases hx with rfl | rfl <;> exact ⟨rfl, rfl⟩
  constant_ok := fun h => absurd h Bool.false_ne_true
  fits := by decide

/-- There is an instruction whose patched match object is wrong. -/
theorem not_forall_faithful_match : ¬ ∀ I : MatchInstruction, I.Faithful := by
  intro hall
  have hlast := lastDecides_of_faithful (hall twiceMatched) 0 (.int 5) rfl rfl
  cases hlast

end Faithful

end Meld
