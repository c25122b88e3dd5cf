import Meld.Vm.ByteCodeTables

/-!
# The rules of a loaded program

The matcher of `Vm.RuleMatcher` works with the list of predicates of every rule and with the list of
rules of every predicate, and counts the facts of a rule in a byte.  Here the loader is connected to
it: the two lists of a loaded program are those of the matcher, and the counters are wide enough.

* `Program.linearTable`, `linearTable_setRules`: the rules of every predicate.
* `getElem?_setRules`: the rules with their code and their predicates.
* `load_matcher`: the matcher of a loaded program is faithful.
-/

namespace Meld.ByteCode

open Bytes Format

namespace Program

variable (P : Program)

/-- The rules of every predicate. -/
def linearTable (p : ℕ) : List ℕ := ((P.predicates[p]?).map Predicate.linearRules).getD []

theorem linearTable_addAffected {i id : ℕ} (hid : id < P.predicates.length) :
    (P.addAffected i id).linearTable =
      fun p => if p = id then P.linearTable p ++ [i] else P.linearTable p := by
  funext p
  rw [linearTable, addAffected, List.getElem?_modify]
  by_cases hp : p = id
  · subst hp
    rw [if_pos rfl, linearTable, List.getElem?_eq_getElem hid]
    simp
  · rw [if_neg hp, linearTable]
    simp [Ne.symm hp]

theorem length_addAffected (i id : ℕ) :
    (P.addAffected i id).predicates.length = P.predicates.length := List.length_modify ..

/-- The rule is put into the list of each of its predicates. -/
theorem linearTable_foldl_addAffected (i : ℕ) {ids : List ℕ}
    (hids : ∀ id ∈ ids, id < P.predicates.length) :
    (ids.foldl (fun P id => P.addAffected i id) P).linearTable =
      Meld.Program.addRule P.linearTable i ids := by
  induction ids generalizing P with
  | nil => rfl
  | cons id ids ih =>
    rw [List.forall_mem_cons] at hids
    rw [List.foldl_cons, ih (P.addAffected i id) (by simpa [length_addAffected] using hids.2),
      P.linearTable_addAffected hids.1]
    rfl

theorem linearTable_setRule (i : ℕ) (c : List (BitVec 8) × List (ℕ × ℕ)) {ids : List ℕ}
    (hids : ∀ id ∈ ids, id < P.predicates.length) :
    (P.setRule i c ids).linearTable = Meld.Program.addRule P.linearTable i ids :=
  linearTable_foldl_addAffected _ i hids

theorem length_setRule (i : ℕ) (c : List (BitVec 8) × List (ℕ × ℕ)) (ids : List ℕ) :
    (P.setRule i c ids).predicates.length = P.predicates.length :=
  foldl_keeps (fun P : Program => P.predicates.length) (fun P id => P.length_addAffected i id) _ ids

/-- The rules of every predicate, when the code of the rules has been read. -/
theorem linearTable_setRules (n : ℕ) {rules : List RuleImage}
    (hids : ∀ r ∈ rules, ∀ id ∈ r.ids, id < P.predicates.length) :
    (((rules.map RuleImage.value).zipIdx n).foldl
        (fun P r => P.setRule r.2 r.1.1 r.1.2) P).linearTable =
      Meld.Program.addRules P.linearTable n (rules.map RuleImage.ids) := by
  induction rules generalizing P n with
  | nil => rfl
  | cons r rules ih =>
    rw [List.forall_mem_cons] at hids
    have hrule : (P.setRule n r.value.1 r.value.2).linearTable =
        Meld.Program.addRule P.linearTable n r.ids := P.linearTable_setRule n _ hids.1
    rw [List.map_cons, List.zipIdx_cons, List.foldl_cons, ih _ (n + 1)
      (by simpa [length_setRule] using hids.2)]
    exact congrArg (Meld.Program.addRules · (n + 1) (rules.map RuleImage.ids)) hrule

/-- A predicate has the rules in both of its lists. -/
def ListsAgree : Prop := ∀ p ∈ P.predicates, p.affectedRules = p.linearRules

variable {P}

theorem ListsAgree.addAffected (h : P.ListsAgree) (i id : ℕ) : (P.addAffected i id).ListsAgree := by
  intro p hp
  obtain ⟨k, hk⟩ := List.getElem?_of_mem hp
  rw [Program.addAffected, List.getElem?_modify] at hk
  obtain ⟨q, hq, rfl⟩ := Option.map_eq_some_iff.1 hk
  have hagree := h q (List.mem_of_getElem? hq)
  split
  · exact congrArg (· ++ [i]) hagree
  · exact hagree

theorem ListsAgree.setRules (h : P.ListsAgree) (rules : List RuleImage) :
    (P.setRules rules).ListsAgree :=
  List.foldlRecOn _ _ h fun _ hP r _ => List.foldlRecOn r.1.2 _ hP fun _ hQ id _ =>
    hQ.addAffected r.2 id

variable (P)

/-- The code and the predicates of a rule. -/
def Rule.withCode (rule : Rule) (r : RuleImage) : Rule :=
  { rule with
    code := some r.code.code
    predicates := rule.predicates ++ r.ids }

theorem getElem?_setRule (n : ℕ) (r : RuleImage) (k : ℕ) :
    (P.setRule n r.value.1 r.value.2).rules[k]? =
      if n = k then (P.rules[k]?).map (Rule.withCode · r) else P.rules[k]? := by
  have hrules : (P.setRule n r.value.1 r.value.2).rules = P.rules.modify n (Rule.withCode · r) :=
    foldl_keeps Program.rules (fun _ _ => by rfl) _ _
  rw [hrules, List.getElem?_modify]
  split
  · rfl
  · exact id_map _

/-- The code and the predicates of the rules from number `n` on. -/
theorem getElem?_setRules (n : ℕ) (rules : List RuleImage) (k : ℕ) :
    (((rules.map RuleImage.value).zipIdx n).foldl
        (fun P r => P.setRule r.2 r.1.1 r.1.2) P).rules[k]? =
      if k < n then P.rules[k]? else
        (P.rules[k]?).map fun rule => (rules[k - n]?).elim rule (Rule.withCode rule) := by
  induction rules generalizing P n with
  | nil => simp
  | cons r rules ih =>
    rw [List.map_cons, List.zipIdx_cons, List.foldl_cons, ih _ (n + 1)]
    rcases Nat.lt_trichotomy k n with hk | rfl | hk
    · rw [if_pos (by omega), if_pos hk, getElem?_setRule, if_neg (by omega)]
    · rw [if_pos (Nat.lt_succ_self k), if_neg (Nat.lt_irrefl k), getElem?_setRule, if_pos rfl,
        Nat.sub_self]
      rfl
    · rw [if_neg (by omega), if_neg (by omega), getElem?_setRule, if_neg (by omega),
        show k - n = k - (n + 1) + 1 by omega]
      rfl

end Program

section Loaded

variable (getFunctionPointer : List (BitVec 8) → List (BitVec 8) → ℕ)

/-- The program in front of the code of the rules. -/
def Image.unruled (x : Image) : Program :=
  (x.codes.map CodeImage.predicateValue).foldl Program.addCode
    (x.globalInfo.apply (x.tables.declare getFunctionPointer x.version x.predicates.length
      x.predicates))

namespace Image

variable (x : Image)

theorem rules_unruled : (x.unruled getFunctionPointer).rules =
    (x.tables.ruleStrings.map cString).mapIdx fun i str => ⟨i, str, none, []⟩ := by
  have htables : (x.tables.program getFunctionPointer x.version x.predicates.length).rules =
      (x.tables.ruleStrings.map cString).mapIdx fun i str => ⟨i, str, none, []⟩ :=
    foldl_keeps Program.rules (fun _ _ => by rfl) _ _
  have hpreds : (x.tables.declare getFunctionPointer x.version x.predicates.length
      x.predicates).rules = _ :=
    (foldl_keeps Program.rules (fun _ _ => by rfl) _ x.predicates).trans htables
  have hglobal (P : Program) (g : GlobalImage) : (g.apply P).rules = P.rules := by
    cases g <;> rfl
  exact (foldl_keeps Program.rules (fun _ _ => by rfl) _ _).trans ((hglobal _ _).trans hpreds)

/-- No predicate has rules yet. -/
theorem no_rules_unruled : ∀ p ∈ (x.unruled getFunctionPointer).predicates,
    p.affectedRules = [] ∧ p.linearRules = [] := by
  have hpreds : (x.unruled getFunctionPointer).predicates = (x.tables.declare getFunctionPointer
      x.version x.predicates.length x.predicates).predicates :=
    (Program.predicates_addCodes _ _).trans (Program.predicates_apply _ _)
  rw [hpreds]
  intro p hp
  have hmap := (x.tables.program getFunctionPointer x.version
    x.predicates.length).map_addPredicates (fun q => (q.affectedRules, q.linearRules))
      (fun _ => ([], [])) (fun _ _ => rfl) x.predicates
  rw [(x.tables.unset_program ..).1, List.map_nil, List.nil_append] at hmap
  obtain ⟨q, hq, rfl⟩ := List.mem_map.1 hp
  have hmem := List.mem_map_of_mem (f := fun q : Predicate => (q.affectedRules, q.linearRules)) hq
  rw [hmap] at hmem
  obtain ⟨y, -, heq⟩ := List.mem_map.1 hmem
  exact ⟨(congrArg Prod.fst heq).symm, (congrArg Prod.snd heq).symm⟩

variable {x}

/-- The rules of a loaded program: their number, their text, their code and their predicates. -/
theorem getElem?_rules (hx : x.Fits) (k : ℕ) :
    (x.program getFunctionPointer).rules[k]? = (x.rules[k]?).map fun r =>
      ⟨k, cString (x.tables.ruleStrings.getD k []), some r.code.code, r.ids⟩ := by
  have hrules := (x.unruled getFunctionPointer).getElem?_setRules 0 x.rules k
  rw [if_neg (Nat.not_lt_zero k), Nat.sub_zero, x.rules_unruled, List.getElem?_mapIdx,
    List.getElem?_map] at hrules
  refine hrules.trans ?_
  have hlen := hx.numRules
  cases hr : x.rules[k]? with
  | none =>
    have hle := List.getElem?_eq_none_iff.1 hr
    rw [List.getElem?_eq_none (by omega)]
    rfl
  | some r =>
    have hlt := (List.getElem?_eq_some_iff.1 hr).1
    rw [List.getD_eq_getElem?_getD, List.getElem?_eq_getElem (by omega : k < _)]
    rfl

end Image

/-- Whatever file is loaded with the assertions checked, the lists of rules of its predicates are
those that the matcher works with, and the matcher of the program is faithful: no counter wraps, and
after each announcement of a fact no rule that it completes is left asleep.  One of the assertions
bounds the length of a body. -/
theorem load_matcher {bs rest : List (BitVec 8)} {P : Program}
    (h : (load getFunctionPointer).run bs = .ok (P, rest)) :
    ∃ M : Meld.Program, M.numPredicates = P.predicates.length ∧
      M.ruleBodies = P.rules.map Rule.predicates ∧
      (∀ (i : ℕ) (p : Predicate), P.predicates[i]? = some p →
        p.linearRules = M.linearRules i ∧ p.affectedRules = M.linearRules i) ∧
      RuleMatcher.Faithful M := by
  obtain ⟨x, hx, -, rfl⟩ := (reads_load getFunctionPointer).bytes_of_run h
  obtain ⟨-, -, -, -, -, -, -, hpreds⟩ := x.states getFunctionPointer
  have hids : ∀ r ∈ x.rules, ∀ id ∈ r.ids, id < (x.unruled getFunctionPointer).predicates.length :=
    fun r hr id hid => Nat.lt_of_lt_of_eq ((hx.rules r hr).2.2 id hid).2 hpreds.symm
  have hlen : (x.program getFunctionPointer).predicates.length = x.predicates.length :=
    (foldl_keeps (fun P : Program => P.predicates.length) (fun P _ => P.length_setRule ..) _ _).trans
      hpreds
  refine ⟨⟨x.predicates.length, x.rules.map RuleImage.ids, ?_⟩, hlen.symm, ?_, ?_, ?_⟩
  · rw [List.forall_mem_map]
    exact fun r hr id hid => ((hx.rules r hr).2.2 id hid).2
  · refine List.ext_getElem? fun k => ?_
    rw [List.getElem?_map, List.getElem?_map, Image.getElem?_rules getFunctionPointer hx,
      Option.map_map]
    rfl
  · intro i p hp
    have hagree : (x.program getFunctionPointer).ListsAgree :=
      Program.ListsAgree.setRules (fun p hp => by
        obtain ⟨h1, h2⟩ := x.no_rules_unruled getFunctionPointer p hp
        rw [h1, h2]) x.rules
    have htable : (x.unruled getFunctionPointer).linearTable = fun _ => [] := by
      funext q
      rw [Program.linearTable]
      cases hq : (x.unruled getFunctionPointer).predicates[q]? with
      | none => rfl
      | some q' => exact (x.no_rules_unruled getFunctionPointer q' (List.mem_of_getElem? hq)).2
    have hrules := congrFun (Program.linearTable_setRules _ 0 hids) i
    rw [htable] at hrules
    have hlinear : (x.program getFunctionPointer).linearTable i = p.linearRules := by
      rw [Program.linearTable, hp]
      rfl
    have hp' : p.linearRules = _ := hlinear.symm.trans hrules
    exact ⟨hp', (hagree p (List.mem_of_getElem? hp)).trans hp'⟩
  · refine RuleMatcher.faithful_of_bodiesFit ?_
    intro body hbody
    obtain ⟨r, hr, rfl⟩ := List.mem_map.1 hbody
    have hlt := (hx.rules r hr).2.1
    omega

theorem load_matcher_small :
    let P := Image.small.program noFunction
    ∃ M : Meld.Program, M.numPredicates = P.predicates.length ∧
      M.ruleBodies = P.rules.map Rule.predicates ∧
      (∀ (i : ℕ) (p : Predicate), P.predicates[i]? = some p →
        p.linearRules = M.linearRules i ∧ p.affectedRules = M.linearRules i) ∧
      RuleMatcher.Faithful M :=
  load_matcher noFunction run_load_small

end Loaded

end Meld.ByteCode
