import Meld.Vm.ByteCodeImage
import Meld.Vm.RuleMatcherInvariant

/-!
# The tables of a loaded program

The loader keeps several lists beside the table of predicates: the linear and the persistent
predicates, which a predicate knows its place in, those with routes and those of threads, the
highest stratum, and the places of the arguments.  The rest of the virtual machine reads them
without a check.

* `Declared`: the lists say the same as the table.
* `Declared.addPredicate`: reading a predicate keeps that.
* `load_declared`: it holds of every program that is loaded.
-/

namespace Meld.ByteCode

open Bytes Format

/-- The end of a list and what was there before. -/
theorem getElem?_concat_iff {α : Type} {l : List α} {a b : α} {i : ℕ} :
    (l ++ [a])[i]? = some b ↔ l[i]? = some b ∨ (i = l.length ∧ a = b) := by
  rcases Nat.lt_trichotomy i l.length with hi | rfl | hi
  · rw [List.getElem?_append_left hi, or_iff_left fun h => absurd h.1 (Nat.ne_of_lt hi)]
  · rw [List.getElem?_concat_length, Option.some_inj, List.getElem?_eq_none (Nat.le_refl _)]
    simp
  · have hend : (l ++ [a]).length ≤ i := by
      rw [List.length_append, List.length_singleton]
      exact hi
    rw [List.getElem?_eq_none (Nat.le_of_lt hi), List.getElem?_eq_none hend,
      or_iff_left fun h => absurd h.1 (Nat.ne_of_gt hi)]

theorem exists_getElem?_concat_iff {α : Type} {l : List α} {a : α} {i : ℕ} {Q : α → Prop} :
    (∃ b, (l ++ [a])[i]? = some b ∧ Q b) ↔
      (∃ b, l[i]? = some b ∧ Q b) ∨ (i = l.length ∧ Q a) := by
  simp only [getElem?_concat_iff, or_and_right, exists_or]
  simp

variable {Q : Predicate → Bool} {ps : List Predicate} {L : List ℕ} {pred : Predicate}

/-- The list has the predicates with `Q`, each at the place of its second number. -/
def Listed (Q : Predicate → Bool) (ps : List Predicate) (L : List ℕ) : Prop :=
  ∀ k i, L[k]? = some i ↔ ∃ p, ps[i]? = some p ∧ Q p = true ∧ p.id2 = k

/-- The list has the predicates with `Q`, in their order. -/
def Marked (Q : Predicate → Bool) (ps : List Predicate) (L : List ℕ) : Prop :=
  L.Pairwise (· < ·) ∧ ∀ i, i ∈ L ↔ ∃ p, ps[i]? = some p ∧ Q p = true

theorem listed_nil : Listed Q [] [] := fun _ _ => by simp

theorem marked_nil : Marked Q [] [] := ⟨List.Pairwise.nil, fun _ => by simp⟩

theorem Listed.concat (h : Listed Q ps L) (pred : Predicate)
    (hplace : Q pred = true → pred.id2 = L.length) :
    Listed Q (ps ++ [pred]) (if Q pred then L ++ [ps.length] else L) := by
  intro k i
  rw [exists_getElem?_concat_iff, ← h k i]
  by_cases hQ : Q pred = true
  · rw [if_pos hQ, getElem?_concat_iff, hplace hQ]
    exact or_congr_right ⟨fun ⟨hk, hi⟩ => ⟨hi.symm, hQ, hk.symm⟩,
      fun ⟨hi, _, hk⟩ => ⟨hk.symm, hi.symm⟩⟩
  · rw [if_neg hQ, or_iff_left fun hlast => hQ hlast.2.1]

theorem Marked.concat (h : Marked Q ps L) (pred : Predicate) :
    Marked Q (ps ++ [pred]) (if Q pred then L ++ [ps.length] else L) := by
  have hlt : ∀ i ∈ L, i < ps.length := by
    intro i hi
    obtain ⟨p, hp, -⟩ := (h.2 i).1 hi
    exact (List.getElem?_eq_some_iff.1 hp).1
  constructor
  · split
    · refine List.pairwise_append.2 ⟨h.1, List.pairwise_singleton .., fun i hi j hj => ?_⟩
      rw [List.mem_singleton.1 hj]
      exact hlt i hi
    · exact h.1
  · intro i
    rw [exists_getElem?_concat_iff, ← h.2 i]
    by_cases hQ : Q pred = true
    · rw [if_pos hQ, List.mem_append, List.mem_singleton]
      exact or_congr_right ⟨fun hi => ⟨hi, hQ⟩, And.left⟩
    · rw [if_neg hQ, or_iff_left fun hlast => hQ hlast.2]

/-- The lists that are kept of the predicates `ps` say the same as these. -/
@[mk_iff]
structure Declared (ps : List Predicate) (P : Program) : Prop where
  /-- A predicate is known by its place. -/
  id : ∀ i (p : Predicate), ps[i]? = some p → p.id = i
  linear : Listed (fun p => p.isLinear) ps P.linearPredicates
  persistent : Listed (fun p => !p.isLinear) ps P.persistentPredicates
  route : Marked (fun p => p.isRoutePred) ps P.routePredicates
  thread : Marked (fun p => p.isThread) ps P.threadPredicates
  threadMap : ∀ i, P.threadPredicatesMap.getBit i = true ↔ i ∈ P.threadPredicates
  /-- The arguments of the predicates stand one behind the other. -/
  argument : ∀ i (p : Predicate), ps[i]? = some p →
    p.argumentPosition = ((ps.take i).map Predicate.numFields).sum
  totalArguments : P.totalArguments = (ps.map Predicate.numFields).sum
  /-- The strata are those below the highest one, which is used. -/
  level : ∀ p ∈ ps, p.level < P.maxStratLevel
  maxLevel : ∀ l, P.maxStratLevel = l + 1 → ∃ p ∈ ps, p.level = l
  /-- A special fact is the last predicate with its name. -/
  special : ∀ f i, P.special f = some i ↔ ∃ p, ps[i]? = some p ∧ specialFact p.name = some f ∧
    ∀ j, i < j → ∀ q : Predicate, ps[j]? = some q → specialFact q.name ≠ some f
  codeSize : P.codeSize.length = ps.length
  hasCode : ∀ (i size : ℕ) (p : Predicate), ps[i]? = some p → P.codeSize[i]? = some size →
    (p.hasCode = true ↔ 0 < size)

/-- The special facts when one more predicate is read. -/
theorem special_concat (pred : Predicate) {special : SpecialFact → Option ℕ} {f : SpecialFact} {i : ℕ}
    (h : special f = some i ↔ ∃ p, ps[i]? = some p ∧ specialFact p.name = some f ∧
      ∀ j, i < j → ∀ q : Predicate, ps[j]? = some q → specialFact q.name ≠ some f) :
    (match specialFact pred.name with
      | some g => Function.update special g (some ps.length)
      | none => special) f = some i ↔
    ∃ p, (ps ++ [pred])[i]? = some p ∧ specialFact p.name = some f ∧
      ∀ j, i < j → ∀ q : Predicate, (ps ++ [pred])[j]? = some q → specialFact q.name ≠ some f := by
  have hnew : (∀ j, ps.length < j → ∀ q : Predicate, (ps ++ [pred])[j]? = some q →
      specialFact q.name ≠ some f) := by
    intro j hj q hq
    have hlt := (List.getElem?_eq_some_iff.1 hq).1
    rw [List.length_append, List.length_singleton] at hlt
    omega
  have hold (hf : specialFact pred.name ≠ some f) (i : ℕ) :
      (∀ j, i < j → ∀ q : Predicate, (ps ++ [pred])[j]? = some q → specialFact q.name ≠ some f) ↔
        ∀ j, i < j → ∀ q : Predicate, ps[j]? = some q → specialFact q.name ≠ some f := by
    constructor
    · exact fun hall j hj q hq => hall j hj q (getElem?_concat_iff.2 (Or.inl hq))
    · intro hall j hj q hq
      rcases getElem?_concat_iff.1 hq with hq | ⟨-, rfl⟩
      · exact hall j hj q hq
      · exact hf
  rw [exists_getElem?_concat_iff]
  by_cases hf : specialFact pred.name = some f
  · -- the new predicate has the name: it takes the place of what was there
    rw [hf]
    simp only [Function.update_self, Option.some_inj]
    constructor
    · rintro rfl
      exact Or.inr ⟨rfl, trivial, hnew⟩
    · rintro (⟨p, hp, -, hall⟩ | ⟨hi, -⟩)
      · have hlt := (List.getElem?_eq_some_iff.1 hp).1
        exact absurd hf (hall ps.length hlt pred (List.getElem?_concat_length ..))
      · exact hi.symm
  · rw [or_iff_left fun hlast => hf hlast.2.1, hold hf]
    rw [← h]
    cases hg : specialFact pred.name with
    | none => rfl
    | some g =>
      dsimp only
      rw [Function.update_of_ne]
      rintro rfl
      exact hf hg

variable {P : Program}

theorem predicates_addPredicate (pred : Predicate) (size : ℕ) :
    (P.addPredicate pred size).predicates = P.predicates ++ [P.numbered pred size] :=
  rfl

theorem capacity_addPredicate (pred : Predicate) (size : ℕ) :
    (P.addPredicate pred size).threadPredicatesMap.capacity = P.threadPredicatesMap.capacity := by
  have hmap : (P.addPredicate pred size).threadPredicatesMap =
    if pred.isThread then P.threadPredicatesMap.setBit pred.id else P.threadPredicatesMap := rfl
  rw [hmap]
  split
  · exact Bitmap.capacity_setBit ..
  · rfl

/-- Reading a predicate keeps the lists in step with the table. -/
theorem Declared.addPredicate (h : Declared P.predicates P) (hid : pred.id = P.predicates.length)
    (hmap : P.predicates.length < P.threadPredicatesMap.capacity) (size : ℕ) :
    Declared (P.addPredicate pred size).predicates (P.addPredicate pred size) := by
  have hlast (i : ℕ) (p : Predicate)
      (hp : (P.addPredicate pred size).predicates[i]? = some p) :
      P.predicates[i]? = some p ∨ (i = P.predicates.length ∧ P.numbered pred size = p) :=
    getElem?_concat_iff.1 hp
  constructor
  case id =>
    intro i p hp
    rcases hlast i p hp with hp | ⟨rfl, rfl⟩
    · exact h.id i p hp
    · exact hid
  case linear =>
    have hlist := h.linear.concat (P.numbered pred size) fun hQ => if_pos hQ
    rw [← hid] at hlist
    exact hlist
  case persistent =>
    have hlist := h.persistent.concat (P.numbered pred size)
      fun hQ => if_neg (by simpa [Program.numbered] using hQ)
    have hif : (if !pred.isLinear then P.persistentPredicates ++ [pred.id]
        else P.persistentPredicates) = (P.addPredicate pred size).persistentPredicates := by
      rw [Program.addPredicate]
      cases pred.isLinear <;> rfl
    rw [← hid, Program.numbered, hif] at hlist
    exact hlist
  case route =>
    have hlist := h.route.concat (P.numbered pred size)
    rw [← hid] at hlist
    exact hlist
  case thread =>
    have hlist := h.thread.concat (P.numbered pred size)
    rw [← hid] at hlist
    exact hlist
  case threadMap =>
    intro i
    by_cases ht : pred.isThread = true
    · rw [Program.addPredicate]
      simp only [if_pos ht]
      rw [Bitmap.getBit_setBit (hid ▸ hmap), Bool.or_eq_true, h.threadMap, List.mem_append,
        List.mem_singleton, decide_eq_true_iff, or_comm, eq_comm]
    · rw [Program.addPredicate]
      simp only [if_neg ht]
      exact h.threadMap i
  case argument =>
    intro i p hp
    rcases hlast i p hp with hp | ⟨rfl, rfl⟩
    · have hlt := (List.getElem?_eq_some_iff.1 hp).1
      rw [h.argument i p hp, predicates_addPredicate,
        List.take_append_of_le_length (Nat.le_of_lt hlt)]
    · rw [predicates_addPredicate, List.take_left]
      exact h.totalArguments
  case totalArguments =>
    rw [predicates_addPredicate, List.map_append, List.sum_append, ← h.totalArguments]
    rfl
  case level =>
    intro p hp
    rcases List.mem_append.1 hp with hp | hp
    · exact Nat.lt_of_lt_of_le (h.level p hp) (Nat.le_max_right ..)
    · obtain rfl := List.mem_singleton.1 hp
      exact Nat.le_max_left ..
  case maxLevel =>
    intro l hl
    rcases Nat.le_total (pred.level + 1) P.maxStratLevel with hle | hle
    · obtain ⟨p, hp, hpl⟩ := h.maxLevel l ((Nat.max_eq_right hle).symm.trans hl)
      exact ⟨p, List.mem_append_left _ hp, hpl⟩
    · refine ⟨_, List.mem_append_right _ (List.mem_singleton_self _), ?_⟩
      exact Nat.succ.inj ((Nat.max_eq_left hle).symm.trans hl)
  case special =>
    intro f i
    have hf := special_concat (P.numbered pred size) (h.special f i)
    rw [← hid] at hf
    exact hf
  case codeSize =>
    rw [Program.addPredicate, List.length_append, List.length_append, h.codeSize]
    rfl
  case hasCode =>
    intro i s p hp hs
    rcases hlast i p hp with hp | ⟨rfl, rfl⟩
    · refine h.hasCode i s p hp ?_
      rw [← hs, Program.addPredicate, List.getElem?_append_left]
      rw [h.codeSize]
      exact (List.getElem?_eq_some_iff.1 hp).1
    · rw [Program.addPredicate, ← h.codeSize, List.getElem?_concat_length, Option.some_inj] at hs
      rw [← hs]
      exact decide_eq_true_iff

/-- So does reading all of them. -/
theorem Declared.addPredicates (h : Declared P.predicates P) (xs : List PredicateImage)
    (hmap : P.predicates.length + xs.length ≤ P.threadPredicatesMap.capacity) :
    Declared (P.addPredicates xs).predicates (P.addPredicates xs) := by
  induction xs generalizing P with
  | nil => exact h
  | cons x xs ih =>
    rw [List.length_cons] at hmap
    refine ih (h.addPredicate rfl (by omega) x.codeSize) ?_
    rw [capacity_addPredicate, predicates_addPredicate, List.length_append, List.length_singleton]
    omega

/-! ## What the rest of the loader leaves alone -/

/-- What is known of a predicate when the table has been read: without the layout, the pointer of
the aggregate, and the rules. -/
def Predicate.declaration (p : Predicate) : Predicate :=
  { p with
    fieldsSize := []
    fieldsOffset := []
    tupleSize := 0
    aggInfo := none
    affectedRules := []
    linearRules := [] }

/-- The lists that are kept of the predicates. -/
def Program.lists (P : Program) : List ℕ × List ℕ × List ℕ × List ℕ × Bitmap ×
    (SpecialFact → Option ℕ) × ℕ × ℕ × List ℕ :=
  (P.linearPredicates, P.persistentPredicates, P.routePredicates, P.threadPredicates,
    P.threadPredicatesMap, P.special, P.maxStratLevel, P.totalArguments, P.codeSize)

/-- The table and the lists. -/
def Program.declarations (P : Program) :=
  (P.predicates.map Predicate.declaration, P.lists)

theorem Declared.of_lists (h : Declared ps P) {P' : Program} (heq : P'.lists = P.lists) :
    Declared ps P' := by
  simp only [Program.lists, Prod.mk.injEq] at heq
  obtain ⟨h1, h2, h3, h4, h5, h6, h7, h8, h9⟩ := heq
  constructor
  case id => exact h.id
  case linear => exact h1 ▸ h.linear
  case persistent => exact h2 ▸ h.persistent
  case route => exact h3 ▸ h.route
  case thread => exact h4 ▸ h.thread
  case threadMap => exact h4 ▸ h5 ▸ h.threadMap
  case argument => exact h.argument
  case totalArguments => exact h8 ▸ h.totalArguments
  case level => exact h7 ▸ h.level
  case maxLevel => exact h7 ▸ h.maxLevel
  case special => exact h6 ▸ h.special
  case codeSize => exact h9 ▸ h.codeSize
  case hasCode => exact h9 ▸ h.hasCode

namespace Predicate

variable (p : Predicate)

@[simp] theorem declaration_id : p.declaration.id = p.id := rfl
@[simp] theorem declaration_id2 : p.declaration.id2 = p.id2 := rfl
@[simp] theorem declaration_name : p.declaration.name = p.name := rfl
@[simp] theorem declaration_level : p.declaration.level = p.level := rfl
@[simp] theorem declaration_isLinear : p.declaration.isLinear = p.isLinear := rfl
@[simp] theorem declaration_isThread : p.declaration.isThread = p.isThread := rfl
@[simp] theorem declaration_isRoutePred : p.declaration.isRoutePred = p.isRoutePred := rfl
@[simp] theorem declaration_hasCode : p.declaration.hasCode = p.hasCode := rfl
@[simp] theorem declaration_numFields : p.declaration.numFields = p.numFields := rfl
@[simp] theorem declaration_argumentPosition :
    p.declaration.argumentPosition = p.argumentPosition := rfl

end Predicate

/-- The lists are about the declarations. -/
theorem declared_map_iff : Declared (ps.map Predicate.declaration) P ↔ Declared ps P := by
  have hfields : Predicate.numFields ∘ Predicate.declaration = Predicate.numFields := rfl
  simp only [declared_iff, Listed, Marked, List.getElem?_map, Option.map_eq_some_iff,
    List.mem_map, List.length_map, ← List.map_take, List.map_map, hfields, exists_exists_and_eq_and,
    forall_exists_index, and_imp, forall_apply_eq_imp_iff₂, Predicate.declaration_id,
    Predicate.declaration_id2, Predicate.declaration_name, Predicate.declaration_level,
    Predicate.declaration_isLinear, Predicate.declaration_isThread,
    Predicate.declaration_isRoutePred, Predicate.declaration_hasCode,
    Predicate.declaration_argumentPosition]

/-! ## The whole loader -/

/-- A predicate without the rules that depend on it. -/
def Predicate.withoutRules (p : Predicate) : Predicate :=
  { p with
    affectedRules := []
    linearRules := [] }

/-- The predicates without the rules, and the lists. -/
def Program.base (P : Program) :=
  (P.predicates.map Predicate.withoutRules, P.lists, P.fixed, P.hasAggregatesFlag, P.safe)

namespace Program

theorem base_addAffected (P : Program) (i id : ℕ) : (P.addAffected i id).base = P.base := by
  have hmap : (P.addAffected i id).predicates.map Predicate.withoutRules =
      P.predicates.map Predicate.withoutRules := by
    rw [addAffected]
    refine List.ext_getElem? fun k => ?_
    rw [List.getElem?_map, List.getElem?_map, List.getElem?_modify]
    by_cases hk : id = k
    · simp only [if_pos hk]
      cases P.predicates[k]? <;> rfl
    · simp only [if_neg hk, id_map']
  exact Prod.ext hmap rfl

theorem base_setRule (P : Program) (i : ℕ) (c : List (BitVec 8) × List (ℕ × ℕ)) (ids : List ℕ) :
    (P.setRule i c ids).base = P.base := by
  refine (foldl_keeps base (fun P id => P.base_addAffected i id) _ ids).trans ?_
  simp [base, lists, fixed, pushReferences]

theorem base_setRules (P : Program) (rules : List RuleImage) : (P.setRules rules).base = P.base :=
  foldl_keeps base (fun _ _ => base_setRule ..) P _

theorem base_addCodes (P : Program) (cs : List (Option (List (BitVec 8) × List (ℕ × ℕ)))) :
    (cs.foldl addCode P).base = P.base :=
  foldl_keeps base (fun _ _ => by rfl) P cs

theorem base_apply (P : Program) (g : GlobalImage) : (g.apply P).base = P.base := by
  cases g <;> rfl

end Program

variable (getFunctionPointer : List (BitVec 8) → List (BitVec 8) → ℕ)

/-- The code and the rules leave the predicates as they were declared. -/
theorem Image.base_program (x : Image) : (x.program getFunctionPointer).base =
    (x.tables.declare getFunctionPointer x.version x.predicates.length x.predicates).base :=
  (Program.base_setRules _ _).trans ((Program.base_addCodes _ _).trans (Program.base_apply _ _))

theorem declarations_of_base {P P' : Program} (h : P'.base = P.base) :
    P'.predicates.map Predicate.declaration = P.predicates.map Predicate.declaration := by
  have hcomp : Predicate.declaration ∘ Predicate.withoutRules = Predicate.declaration := rfl
  have hmap := congrArg (List.map Predicate.declaration) (congrArg Prod.fst h)
  simpa only [Program.base, List.map_map, hcomp] using hmap

/-- There are no predicates yet, and no lists of them. -/
theorem declared_tables (x : TablesImage) (v : Version) (numPreds : ℕ) :
    Declared (x.program getFunctionPointer v numPreds).predicates
      (x.program getFunctionPointer v numPreds) := by
  rw [(x.unset_program ..).1]
  have hlists : (x.program getFunctionPointer v numPreds).lists =
      ([], [], [], [], .create (Meld.Program.nextUint numPreds), fun _ => none, 0, 0, []) :=
    foldl_keeps Program.lists (fun _ _ => by rfl) _ _
  simp only [Program.lists, Prod.mk.injEq] at hlists
  obtain ⟨h1, h2, h3, h4, h5, h6, h7, h8, h9⟩ := hlists
  constructor
  case id => simp
  case linear => exact h1 ▸ listed_nil
  case persistent => exact h2 ▸ listed_nil
  case route => exact h3 ▸ marked_nil
  case thread => exact h4 ▸ marked_nil
  case threadMap => simp [h4, h5]
  case argument => simp
  case totalArguments => exact h8
  case level => simp
  case maxLevel => simp [h7]
  case special => simp [h6]
  case codeSize => exact congrArg List.length h9
  case hasCode => simp

/-- Whatever file is loaded with the assertions checked, the lists of the predicates say the same as
the table. -/
theorem load_declared {bs rest : List (BitVec 8)} {P : Program}
    (h : (load getFunctionPointer).run bs = .ok (P, rest)) : Declared P.predicates P := by
  obtain ⟨x, hx, -, rfl⟩ := (reads_load getFunctionPointer).bytes_of_run h
  have hbase := x.base_program getFunctionPointer
  have hlists : (x.program getFunctionPointer).lists = _ := congrArg (fun b => b.2.1) hbase
  have hmap : x.predicates.length ≤ (x.tables.program getFunctionPointer x.version
      x.predicates.length).threadPredicatesMap.capacity := by
    have hcap : (x.tables.program getFunctionPointer x.version
        x.predicates.length).threadPredicatesMap = _ :=
      foldl_keeps Program.threadPredicatesMap (fun _ _ => by rfl) _ _
    rw [hcap]
    exact RuleMatcher.numPredicates_le_capacity _
  have hdeclared := (declared_tables getFunctionPointer x.tables x.version
    x.predicates.length).addPredicates x.predicates (by
      rw [(x.tables.unset_program ..).1]
      simpa using hmap)
  rw [← declared_map_iff, declarations_of_base hbase]
  refine Declared.of_lists ?_ hlists
  rw [TablesImage.declare, Program.cachePredicates, List.map_map]
  exact declared_map_iff.2 (hdeclared.of_lists rfl)

theorem load_declared_small :
    Declared (Image.small.program noFunction).predicates (Image.small.program noFunction) :=
  load_declared noFunction run_load_small

end Meld.ByteCode
