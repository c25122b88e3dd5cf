import Meld.Db.FieldHash
import Meld.Vm.LinearIter

/-!
# An iterate with a match on the hashed field

When a linear predicate is stored as a list, an iterate tests every tuple with `do_matches`.  When
it is stored as a hash table and the match object has a value for the hashed field, the iterate only
goes through the tuples that `lookup_list` returns for this value.  The first test compares with
`do_rec_match`, the second hashes the value and compares with `same_field0`.

A tuple has its fields, and an identity beyond them; the runs of an iterate are those of
`LinearIter`, whose body is arbitrary.

* `FieldPattern`, `matchesTuple`: the match object, and `do_matches`.
* `executeLinearIter`, `executeRlinearIter`: the two iterates, on both forms of storage.
* `TableReach`: the hash tables that insertions and removals lead to.
* `same_offers_iff`: the forms agree unless a zero is to be matched and a stored zero of the other
  sign is somewhere else.
-/

namespace Meld
namespace HashLookup

open HashTree

/-! ## Match objects -/

/-- A `match_field`; `any` is one that is not exact. -/
inductive FieldPattern where
  | any
  | int (i : BitVec 32)
  | float (x : BitVec 64)
  | node (n : BitVec 64)
  | nil
  | nonNil
  | list (head tail : FieldPattern)
  deriving DecidableEq

namespace FieldPattern

/-- `exact`. -/
def exact : FieldPattern → Bool
  | any => false
  | _ => true

/-- `do_rec_match`, or true if the field is not exact. -/
def recMatch : FieldPattern → StoredField → Bool
  | any, _ => true
  | int i, .int j => i == j
  | float x, .float y => Ieee.eq x y
  | node m, .node n => m == n
  | nil, .nil => true
  | nonNil, .cons _ _ => true
  | list head tail, .cons x xs => head.recMatch x && tail.recMatch xs
  | _, _ => false

/-- The `tuple_field` of an exact match field, as a key: `match_non_nil` writes the address one, and
`match_list` that of the pattern. -/
def field : FieldPattern → StoredField
  | any => .nil
  | int i => .int i
  | float x => .float x
  | node n => .node n
  | nil => .nil
  | nonNil => .cons .nil .nil
  | list _ _ => .cons .nil .nil

/-- What matches counts as the same as the key. -/
theorem same_of_recMatch {m : FieldPattern} {x : StoredField} (hexact : m.exact = true)
    (h : m.recMatch x = true) : sameStored m.field x = true := by
  cases m with
  | any => cases hexact
  | int i =>
    cases x with
    | int j => exact h
    | _ => cases h
  | float y =>
    cases x with
    | float z => exact h
    | _ => cases h
  | node m =>
    cases x with
    | node n => exact h
    | _ => cases h
  | nil =>
    cases x with
    | nil => rfl
    | _ => cases h
  | nonNil =>
    cases x with
    | cons y ys => rfl
    | _ => cases h
  | list head tail =>
    cases x with
    | cons y ys => rfl
    | _ => cases h

end FieldPattern

/-- The match field of a field. -/
def getMatch (m : List FieldPattern) (i : ℕ) : FieldPattern := m.getD i .any

/-- `has_match`. -/
def hasMatch (m : List FieldPattern) (i : ℕ) : Bool := (getMatch m i).exact

/-- `do_matches`.  Each call that makes a match field exact sets `any_exact`. -/
def matchesTuple (m : Option (List FieldPattern)) (tpl : List StoredField) : Bool :=
  match m with
  | none => true
  | some m =>
    if m.any FieldPattern.exact then
      (List.range m.length).all fun i => !hasMatch m i || (getMatch m i).recMatch (getStored i tpl)
    else true

theorem recMatch_of_matchesTuple {m : List FieldPattern} {tpl : List StoredField} {i : ℕ}
    (hmatch : hasMatch m i = true) (h : matchesTuple (some m) tpl = true) :
    (getMatch m i).recMatch (getStored i tpl) = true := by
  have hlt : i < m.length := by
    by_contra hle
    rw [hasMatch, getMatch, List.getD_eq_default _ _ (Nat.le_of_not_lt hle)] at hmatch
    cases hmatch
  have hany : m.any FieldPattern.exact = true := by
    refine List.any_eq_true.2 ⟨m[i], List.getElem_mem hlt, ?_⟩
    rw [hasMatch, getMatch, List.getD_eq_getElem _ _ hlt] at hmatch
    exact hmatch
  unfold matchesTuple at h
  dsimp only at h
  rw [if_pos hany] at h
  have hi := List.all_eq_true.1 h i (List.mem_range.2 hlt)
  simpa [hmatch] using hi

/-! ## The iterates -/

/-- The tuples of a linear predicate, in one of the two forms. -/
inductive StoredTuples (α : Type) where
  | list (ls : List α)
  | table (T : Tree StoredField α)

/-- What an iterate knows besides its body: its register, `old_is_linear`, `tuple_is_used` for its
register, and its match object. -/
structure StoredIter (α : Type) where
  reg : ℕ
  oldIsLinear : Bool
  tupleIsUsed : α → Bool
  pattern : Option (List FieldPattern)

/-- The loop of `execute_rlinear_iter_list`: no tuple is consumed. -/
def reuseList {σ α : Type} (I : LinearIter σ α) : σ → List α → Visit σ α
  | s, [] => ⟨s, .noReturn, []⟩
  | s, x :: rest =>
    if I.skips x then reuseList I s rest
    else
      let b := I.body s x
      if I.returns b.ret then ⟨b.state, b.ret, [x]⟩
      else
        let v := reuseList I b.state rest
        ⟨v.state, v.ret, x :: v.offered⟩

/-- The loop of `execute_rlinear_iter` over the bucket lists. -/
def reuseBuckets {σ α : Type} (I : LinearIter σ α) : σ → List (List α) → Visit σ α
  | s, [] => ⟨s, .noReturn, []⟩
  | s, xs :: bs =>
    let v := reuseList I s xs
    if v.ret ≠ .noReturn then v
    else
      let w := reuseBuckets I v.state bs
      ⟨w.state, w.ret, v.offered ++ w.offered⟩

section Iterates

variable {σ α : Type} (fields : α → List StoredField) (hashed : ℕ) (I : StoredIter α)
  (body : σ → α → Answer σ)

/-- The iterate with its body, on tuples with the given fields. -/
def StoredIter.linear : LinearIter σ α :=
  ⟨I.reg, I.oldIsLinear, I.tupleIsUsed, fun x => matchesTuple I.pattern (fields x), body⟩

/-- The value that `lookup_list` is called with, if the match object is exact on the hashed
field. -/
def StoredIter.lookupField : Option StoredField :=
  match I.pattern with
  | none => none
  | some m => if hasMatch m hashed then some (getMatch m hashed).field else none

/-- `execute_linear_iter`.  A key without a bucket list has no tuples. -/
def executeLinearIter (s : σ) : StoredTuples α → Visit σ α
  | .table T =>
    match I.lookupField hashed with
    | some v => ((I.linear fields body).visitList s (lookupItems tableScheme v T)).1
    | none => (I.linear fields body).visitBuckets s ((walk tableScheme T).map Prod.snd)
  | .list ls => ((I.linear fields body).visitList s ls).1

/-- `execute_rlinear_iter`. -/
def executeRlinearIter (s : σ) : StoredTuples α → Visit σ α
  | .table T =>
    match I.lookupField hashed with
    | some v => reuseList (I.linear fields body) s (lookupItems tableScheme v T)
    | none => reuseBuckets (I.linear fields body) s ((walk tableScheme T).map Prod.snd)
  | .list ls => reuseList (I.linear fields body) s ls

end Iterates

/-! ## Hash tables -/

section Tables

variable {α : Type} (fields : α → List StoredField) (hashed : ℕ)

/-- The hash tables that insertions and removals lead to. -/
inductive TableReach : Tree StoredField α → Prop where
  | setup : TableReach HashTree.empty
  | insert {T : Tree StoredField α} (x : α) (hT : TableReach T) :
      TableReach (HashTree.insert tableScheme (getStored hashed (fields x)) x T)
  | erase {T : Tree StoredField α} (path : List ℕ) (k pos : ℕ) (hT : TableReach T) :
      TableReach (HashTree.erase tableScheme T path k pos)

variable {fields hashed} {T : Tree StoredField α}

theorem TableReach.ok (hT : TableReach fields hashed T) :
    Ok tableScheme (fun x => getStored hashed (fields x)) (fun _ => True) 0 T := by
  induction hT with
  | setup => exact ok_empty
  | insert x hT ih => exact ih.insert symm_tableScheme
  | erase path k pos hT ih => exact ih.erase path k pos

variable (fields hashed) in
/-- The tuples of a list, inserted from the last one on. -/
def tableOf (ls : List α) : Tree StoredField α :=
  ls.foldr (fun x T => HashTree.insert tableScheme (getStored hashed (fields x)) x T) HashTree.empty

theorem tableReach_tableOf (ls : List α) : TableReach fields hashed (tableOf fields hashed ls) := by
  induction ls with
  | nil => exact .setup
  | cons x ls ih => exact .insert x ih

/-- Every list of tuples can be stored. -/
theorem items_tableOf (ls : List α) : (items tableScheme (tableOf fields hashed ls)).Perm ls := by
  induction ls with
  | nil =>
    have hnil : items tableScheme (HashTree.empty : Tree StoredField α) = [] := by
      rw [HashTree.empty, items_table]
      exact List.flatMap_eq_nil_iff.2 fun _ _ => rfl
    exact hnil ▸ List.Perm.refl _
  | cons x ls ih => exact (items_insert _ x _).trans (ih.cons x)

end Tables

/-! ## What is offered -/

section Offers

variable {σ α : Type} {I : LinearIter σ α}

/-- The run offers the tuples of the list in turn, until the body ends it. -/
structure Offers (v : Visit σ α) (C : List α) : Prop where
  first : v.offered <+: C
  all : v.ret = .noReturn → v.offered = C

theorem offers_visitList (I : LinearIter σ α) (s : σ) (xs : List α) :
    Offers (I.visitList s xs).1 (xs.filter fun x => !I.skips x) :=
  ⟨(I.visitList_offered s xs).1, (I.visitList_offered s xs).2⟩

/-- A body that never ends the iterate is run on all tuples. -/
theorem ret_visitList (hbody : ∀ s x, I.returns (I.body s x).ret = false) (s : σ) (xs : List α) :
    (I.visitList s xs).1.ret = .noReturn := by
  induction xs generalizing s with
  | nil => rfl
  | cons x rest ih =>
    unfold LinearIter.visitList
    split
    · exact ih s
    · dsimp only
      rw [if_neg (by simp [hbody])]
      exact ih _

/-- The two loops run the same bodies. -/
theorem reuseList_eq (I : LinearIter σ α) (s : σ) (xs : List α) :
    reuseList I s xs = (I.visitList s xs).1 := by
  induction xs generalizing s with
  | nil => rfl
  | cons x rest ih =>
    unfold reuseList LinearIter.visitList
    split
    · exact ih s
    · dsimp only
      split
      · rfl
      · rw [ih]

end Offers

variable {α : Type} {fields : α → List StoredField} {hashed : ℕ} {I : StoredIter α}
  {m : List FieldPattern} {T : Tree StoredField α} {ls : List α}

/-- The tuple is not used, and matches. -/
def StoredIter.passes (fields : α → List StoredField) (I : StoredIter α) (x : α) : Bool :=
  !(I.tupleIsUsed x || !matchesTuple I.pattern (fields x))

/-- The iterates offer the same tuples from the hash table as from the list: there is one multiset
of tuples, and every run with either form offers them in some order, until its body ends it. -/
def SameOffers (fields : α → List StoredField) (hashed : ℕ) (I : StoredIter α)
    (T : Tree StoredField α) (ls : List α) : Prop :=
  ∃ C C' : List α, C.Perm C' ∧ ∀ (σ : Type) (body : σ → α → Answer σ) (s : σ),
    Offers (executeLinearIter fields hashed I body s (.table T)) C ∧
    Offers (executeLinearIter fields hashed I body s (.list ls)) C' ∧
    Offers (executeRlinearIter fields hashed I body s (.table T)) C ∧
    Offers (executeRlinearIter fields hashed I body s (.list ls)) C'

theorem lookupField_eq (hpattern : I.pattern = some m) (hmatch : hasMatch m hashed = true) :
    I.lookupField hashed = some (getMatch m hashed).field := by
  unfold StoredIter.lookupField
  rw [hpattern]
  exact if_pos hmatch

/-- The forms agree if their candidates do. -/
theorem sameOffers_iff_perm {v : StoredField} (hv : I.lookupField hashed = some v) :
    SameOffers fields hashed I T ls ↔
      ((lookupItems tableScheme v T).filter (I.passes fields)).Perm
        (ls.filter (I.passes fields)) := by
  constructor
  · rintro ⟨C, C', hperm, hruns⟩
    -- a body that does not end the iterate
    obtain ⟨htable, hlist, -, -⟩ := hruns Unit (fun _ _ => ⟨(), .ok, false⟩) ()
    let J : LinearIter Unit α := I.linear fields fun _ _ => ⟨(), .ok, false⟩
    have hbody (s : Unit) (x : α) : J.returns (J.body s x).ret = false := by
      show (false || (I.oldIsLinear && false)) = false
      rw [Bool.and_false, Bool.or_false]
    have hret := ret_visitList hbody ()
    unfold executeLinearIter at htable hlist
    rw [hv] at htable
    have hC := ((offers_visitList J () _).all (hret _)).symm.trans (htable.all (hret _))
    have hC' := ((offers_visitList J () _).all (hret _)).symm.trans (hlist.all (hret _))
    exact hC ▸ hC' ▸ hperm
  · intro hperm
    refine ⟨_, _, hperm, fun σ body s => ?_⟩
    unfold executeLinearIter executeRlinearIter
    rw [hv]
    dsimp only
    rw [reuseList_eq, reuseList_eq]
    exact ⟨offers_visitList _ _ _, offers_visitList _ _ _, offers_visitList _ _ _,
      offers_visitList _ _ _⟩

/-- A tuple that is offered has a hashed field that counts as the same as the value in the match
object. -/
theorem same_of_passes (hpattern : I.pattern = some m) (hmatch : hasMatch m hashed = true) {x : α}
    (h : I.passes fields x = true) :
    sameStored (getMatch m hashed).field (getStored hashed (fields x)) = true := by
  have hmatches : matchesTuple (some m) (fields x) = true := by
    unfold StoredIter.passes at h
    rw [hpattern, Bool.not_eq_true', Bool.or_eq_false_iff] at h
    simpa using h.2
  exact FieldPattern.same_of_recMatch hmatch (recMatch_of_matchesTuple hmatch hmatches)

/-- No tuple that would be offered is a zero of the other sign, in a slot that is a table. -/
def ZerosTogether (fields : α → List StoredField) (I : StoredIter α) (v : StoredField)
    (T : Tree StoredField α) : Prop :=
  isZeroField v = true → slotIsTable T v = true → ∀ b ∈ walk tableScheme T,
    isZeroField b.1 = true → b.1 ≠ v → ∀ x ∈ b.2, I.passes fields x = false

/-- **An exact match on the hashed field** offers the same tuples from a hash table as from a list
of the same tuples, exactly if zeros of different signs are not kept apart. -/
theorem same_offers_iff (hpattern : I.pattern = some m) (hmatch : hasMatch m hashed = true)
    (hT : TableReach fields hashed T) (hls : ls.Perm (items tableScheme T)) :
    SameOffers fields hashed I T ls ↔ ZerosTogether fields I (getMatch m hashed).field T := by
  rw [sameOffers_iff_perm (lookupField_eq hpattern hmatch)]
  set v := (getMatch m hashed).field with hv
  have hsame : ∀ b ∈ walk tableScheme T, ∀ x ∈ b.2, I.passes fields x = true →
      sameStored v b.1 = true := by
    intro b hb x hx hpass
    have hkey := same_of_passes hpattern hmatch hpass
    rcases hT.ok.keys hb hx with heq | heq
    · exact heq ▸ hkey
    · exact trans_tableScheme _ _ _ hkey heq
  constructor
  · intro hperm hzero htable b hb hbzero hne x hx
    by_contra hpass
    rw [Bool.not_eq_false] at hpass
    have hleads : ¬ Leads tableScheme T (tableScheme.hash v) 0 b.1 := by
      intro hleads
      have := (leads_zero_iff hzero hbzero (Ne.symm hne)).1 hleads
      rw [htable] at this
      cases this
    have hlt := hT.ok.filter_lt_of_not_leads symm_tableScheme trans_tableScheme hb hx hpass hleads
    rw [hperm.length_eq, (hls.filter _).length_eq] at hlt
    exact Nat.lt_irrefl _ hlt
  · intro htogether
    refine List.Perm.trans ?_ (hls.filter _).symm
    rw [hT.ok.filter_lookupItems symm_tableScheme trans_tableScheme hsame ?_]
    intro b hb x hx hpass
    rcases hash_eq_of_same (hsame b hb x hx hpass) with heq | heq | ⟨hzero, hbzero⟩
    · rw [heq]
      exact leads_of_hash T 0 b.1
    · have hleads := leads_of_hash (S := tableScheme) T 0 b.1
      rw [show tableScheme.hash b.1 = tableScheme.hash v from heq.symm] at hleads
      exact hleads
    · by_cases hne : b.1 = v
      · rw [← hne]
        exact leads_of_hash T 0 b.1
      · refine (leads_zero_iff hzero hbzero (Ne.symm hne)).2 ?_
        by_contra htable
        rw [Bool.not_eq_false] at htable
        rw [htogether hzero htable b hb hbzero hne x hx] at hpass
        cases hpass

/-- An iterate at register zero with a match for the only field. -/
def oneMatch (m : FieldPattern) : StoredIter (List StoredField) :=
  ⟨0, false, fun _ => false, some [m]⟩

theorem same_offers_seven :
    SameOffers id 0 (oneMatch (.int 7)) (tableOf id 0 [[.int 7], [.int 8]])
      [[.int 7], [.int 8]] := by
  refine (same_offers_iff rfl rfl (tableReach_tableOf _) (items_tableOf _).symm).2 ?_
  intro hzero
  cases hzero

/-- Eight tuples with different floats whose hashes have their first digit in common, the positive
zero among them. -/
def zeroTuples : List (List StoredField) :=
  [[.float 32], [.float 64], [.float 96], [.float 128], [.float 160], [.float 192], [.float 224],
    [.float 0]]

/-- **The zero of the other sign** is offered from the list, and not from the hash table of the same
tuples. -/
theorem negative_zero_not_found :
    ¬ SameOffers id 0 (oneMatch (.float 0x8000000000000000#64)) (tableOf id 0 zeroTuples)
      zeroTuples := by
  rw [sameOffers_iff_perm (lookupField_eq rfl rfl)]
  intro hperm
  have hlen := hperm.length_eq
  revert hlen
  decide +kernel

end HashLookup
end Meld
