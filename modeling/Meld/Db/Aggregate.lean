import Meld.Lib.Changes
import Meld.Db.TupleTrie
import Mathlib.Data.BitVec

/-!
# Aggregates

The tuples contributed to an aggregate predicate are grouped by the fields before the aggregated
one.  Every group has an `agg_configuration`: the trie of its tuples, and the tuple that was last
announced for it (`corresponds`).  After each contribution the aggregate is computed anew, and when
it differs, the old tuple is retracted and the new one derived.

* `doGenerate`: the aggregate of a trie; `AggConfiguration.generate`: what is announced.
* `TupleAggregate.findConfiguration`, `TupleAggregate.addToSet`: the trie of groups.
* `doGenerate_spec`: the tuple of a group carries the maximum, minimum or sum of the multiset.
* `TupleAggregate.Inv`, `TupleAggregate.addToSet_spec`: every group has its share of the tuples.
-/

namespace Meld

/-- `aggregate_type`, over integers. -/
inductive AggregateType where
  | first
  | maxInt
  | minInt
  | sumInt
  deriving DecidableEq

/-- `agg_configuration`. -/
structure AggConfiguration where
  changed : Bool
  corresponds : Option Tuple
  lastDepth : ℕ
  vals : TupleTrie

/-- The loop of `generate_max_int` and `generate_min_int`: the best tuple so far is given up for a
leaf that is better. -/
def generateExtreme (better : BitVec 32 → BitVec 32 → Bool) (field : ℕ) (best : Tuple)
    (leaves : List TrieLeaf) : Tuple :=
  leaves.foldl (fun best l => if better (getInt field l.tpl) (getInt field best) then l.tpl
    else best) best

/-- The loops of `generate_sum_int`, which add a value as often as its leaf counts it. -/
def generateSum (field : ℕ) (leaves : List TrieLeaf) : BitVec 32 :=
  leaves.foldl (fun sum l => (· + getInt field l.tpl)^[l.count] sum) 0

/-- `do_generate`: nothing of an empty trie. -/
def doGenerate (typ : AggregateType) (field : ℕ) (T : TupleTrie) : Option Tuple :=
  if T.size = 0 then none
  else
    match T.toTrie.leaves with
    | [] => none
    | l :: leaves =>
      some (match typ with
        | .first => l.tpl
        | .maxInt => generateExtreme (fun a b => b.slt a) field l.tpl leaves
        | .minInt => generateExtreme (fun a b => a.slt b) field l.tpl leaves
        | .sumInt => setInt field (generateSum field (l :: leaves)) l.tpl)

/-- The depth that `do_generate` reports: the largest one of the leaves. -/
def generateDepth (T : TupleTrie) : ℕ :=
  T.toTrie.leaves.foldl (fun d l => max d (DepthCounter.maxDepth (T.depths l.node))) 0

namespace AggConfiguration

/-- `agg_configuration()`. -/
def create : AggConfiguration := ⟨false, none, 0, TupleTrie.empty⟩

/-- `agg_configuration::add_to_set`. -/
def addToSet (nodeId : BitVec 64 → ℕ) (isCycle : Bool) (c : AggConfiguration) (tpl : Tuple)
    (depth : ℕ) : Direction → Option AggConfiguration
  | .positive =>
    some { c with changed := true, vals := (c.vals.insertTuple nodeId isCycle tpl depth).1 }
  | .negative =>
    (c.vals.remove nodeId isCycle tpl depth).map fun r =>
      { c with changed := r.2.1, vals := r.1 }

/-- `agg_configuration::generate`: the configuration, and the tuples pushed on `cont`. -/
def generate (c : AggConfiguration) (pred : ℕ) (typ : AggregateType) (field : ℕ) :
    AggConfiguration × List FullTuple :=
  let depth := generateDepth c.vals
  match c.corresponds, doGenerate typ field c.vals with
  | none, none => ({ c with changed := false }, [])
  | none, some generated =>
    ({ c with changed := false, corresponds := some generated, lastDepth := depth },
      [⟨generated, pred, .positive, depth, false⟩])
  | some old, none =>
    ({ c with changed := false, corresponds := none, lastDepth := 0 },
      [⟨old, pred, .negative, c.lastDepth, false⟩])
  | some old, some generated =>
    if old = generated then ({ c with changed := false }, [])
    else
      ({ c with changed := false, corresponds := some generated, lastDepth := depth },
        [⟨old, pred, .negative, c.lastDepth, false⟩,
          ⟨generated, pred, .positive, depth, false⟩])

end AggConfiguration

/-- What a full tuple does to the multiset of the tuples of its predicate. -/
def FullTuple.change (x : FullTuple) : Change Tuple :=
  match x.dir with
  | .positive => .add x.data
  | .negative => .remove x.data

/-- `tuple_aggregate`: the trie of groups, and the configuration at each of its leaves. -/
structure TupleAggregate where
  vals : Trie
  confs : TriePath → Option AggConfiguration

namespace TupleAggregate

/-- `tuple_aggregate()`. -/
def create : TupleAggregate := ⟨Trie.empty, fun _ => none⟩

/-- `agg_trie::find_configuration`: a group that is not there gets a leaf. -/
def findConfiguration (nodeId : BitVec 64 → ℕ) (T : Trie) (key : Tuple) : Trie × TriePath :=
  let found := ¬ (key = [] ∧ T.child [] ≠ .leaf) ∧
    (Trie.descend nodeId T.child (Trie.stackSize key) [] key).2 = []
  let T' := if found then T else (T.insertAny nodeId key).1
  (T', T'.leafNode nodeId key)

/-- The configuration of a group, a new one when there is none yet. -/
def conf (A : TupleAggregate) (p : TriePath) : AggConfiguration := (A.confs p).getD .create

/-- `tuple_aggregate::add_to_set`, with the leaf of the configuration that it returns. -/
def addToSet (nodeId : BitVec 64 → ℕ) (isCycle : Bool) (field : ℕ) (A : TupleAggregate)
    (tpl : Tuple) (dir : Direction) (depth : ℕ) : Option (TupleAggregate × TriePath) :=
  let (vals, p) := findConfiguration nodeId A.vals (tpl.take field)
  ((A.conf p).addToSet nodeId isCycle tpl depth dir).map fun c =>
    (⟨vals, Function.update A.confs p (some c)⟩, p)

end TupleAggregate

/-! ## The aggregate of a multiset -/

/-- The value is the aggregate of the multiset: a largest or smallest value of the field as a signed
integer, or the sum of all values, modulo `2 ^ 32` and with multiplicities. -/
def IsAggregate (typ : AggregateType) (field : ℕ) (M : Multiset Tuple) (v : BitVec 32) : Prop :=
  match typ with
  | .first => ∃ t ∈ M, getInt field t = v
  | .maxInt => (∃ t ∈ M, getInt field t = v) ∧ ∀ t ∈ M, (getInt field t).toInt ≤ v.toInt
  | .minInt => (∃ t ∈ M, getInt field t = v) ∧ ∀ t ∈ M, v.toInt ≤ (getInt field t).toInt
  | .sumInt => v = (M.map (getInt field)).sum

/-- The loop ends with one of the tuples, and none is better in an order `key` in which `better` is
strict. -/
theorem generateExtreme_spec {better : BitVec 32 → BitVec 32 → Bool} {key : BitVec 32 → ℤ}
    (hbetter : ∀ a b, better a b = true ↔ key b < key a) (field : ℕ) (best : Tuple)
    (leaves : List TrieLeaf) :
    (generateExtreme better field best leaves = best ∨
        ∃ l ∈ leaves, l.tpl = generateExtreme better field best leaves) ∧
      key (getInt field best) ≤ key (getInt field (generateExtreme better field best leaves)) ∧
      ∀ l ∈ leaves, key (getInt field l.tpl) ≤
        key (getInt field (generateExtreme better field best leaves)) := by
  induction leaves generalizing best with
  | nil => simp [generateExtreme]
  | cons m leaves ih =>
    have hstep : generateExtreme better field best (m :: leaves) =
        generateExtreme better field
          (if better (getInt field m.tpl) (getInt field best) then m.tpl else best) leaves := rfl
    rw [hstep]
    by_cases hb : better (getInt field m.tpl) (getInt field best) = true
    · rw [if_pos hb]
      obtain ⟨hmem, hbest, hrest⟩ := ih m.tpl
      refine ⟨Or.inr ?_, ?_, ?_⟩
      · rcases hmem with heq | ⟨l, hl, heq⟩
        · exact ⟨m, List.mem_cons_self, heq.symm⟩
        · exact ⟨l, List.mem_cons_of_mem _ hl, heq⟩
      · exact le_trans (le_of_lt ((hbetter _ _).1 hb)) hbest
      · intro l hl
        rcases List.mem_cons.1 hl with rfl | hl
        · exact hbest
        · exact hrest l hl
    · rw [if_neg hb]
      obtain ⟨hmem, hbest, hrest⟩ := ih best
      refine ⟨?_, hbest, ?_⟩
      · rcases hmem with heq | ⟨l, hl, heq⟩
        · exact Or.inl heq
        · exact Or.inr ⟨l, List.mem_cons_of_mem _ hl, heq⟩
      · intro l hl
        rcases List.mem_cons.1 hl with rfl | hl
        · exact le_trans (not_lt.1 fun hlt => hb ((hbetter _ _).2 hlt)) hbest
        · exact hrest l hl

/-- The loops add every value with the count of its leaf. -/
theorem generateSum_eq (field : ℕ) (leaves : List TrieLeaf) :
    generateSum field leaves = (leaves.map fun l => l.count • getInt field l.tpl).sum := by
  have hiter : ∀ (n : ℕ) (v s : BitVec 32), (· + v)^[n] s = s + n • v := by
    intro n v s
    induction n generalizing s with
    | zero => simp
    | succ n ih =>
      rw [Function.iterate_succ_apply, ih, succ_nsmul, add_assoc, add_comm v]
  have hfold : ∀ (ls : List TrieLeaf) (s : BitVec 32),
      ls.foldl (fun sum l => (· + getInt field l.tpl)^[l.count] sum) s =
        s + (ls.map fun l => l.count • getInt field l.tpl).sum := by
    intro ls
    induction ls with
    | nil => simp
    | cons l ls ih =>
      intro s
      rw [List.foldl_cons, ih, hiter, List.map_cons, List.sum_cons, add_assoc]
  rw [generateSum, hfold, zero_add]

section Generate

variable {nodeId : BitVec 64 → ℕ} {fields : List FieldType} {T : TupleTrie} {M : Multiset Tuple}

theorem getInt_setInt {field : ℕ} {tpl : Tuple} (hlt : field < tpl.length) (v : BitVec 32) :
    getInt field (setInt field v tpl) = v := by
  simp [getInt, setInt, getField, hlt]

theorem take_setInt (field : ℕ) (v : BitVec 32) (tpl : Tuple) :
    (setInt field v tpl).take field = tpl.take field := by
  rw [setInt, List.take_set_of_le le_rfl]

/-- Writing an integer to an integer field keeps the types. -/
theorem typed_setInt {field : ℕ} {tpl : Tuple} (ht : TupleHasType tpl fields)
    (hfield : fields[field]? = some .int) (v : BitVec 32) :
    TupleHasType (setInt field v tpl) fields := by
  induction ht generalizing field with
  | nil => simp at hfield
  | cons hv ht ih =>
    cases field with
    | zero =>
      obtain rfl := Option.some.inj hfield
      exact List.Forall₂.cons (.int v) ht
    | succ field => exact List.Forall₂.cons hv (ih hfield)

/-- **The aggregate of a trie is the aggregate of its multiset.**  Nothing is generated for an empty
one; else the tuple has the types of the predicate, belongs to the group of the tuples and carries
the aggregate in its field. -/
theorem doGenerate_spec (h : T.toTrie.Inv nodeId fields M) {field : ℕ}
    (hfield : fields[field]? = some .int) (typ : AggregateType) {key : Tuple}
    (hkey : ∀ t ∈ M, t.take field = key) :
    (M = 0 → doGenerate typ field T = none) ∧
      (M ≠ 0 → ∃ t, doGenerate typ field T = some t ∧ TupleHasType t fields ∧
        t.take field = key ∧ IsAggregate typ field M (getInt field t)) := by
  have hsize : T.size = M.card := h.represents.size_eq
  constructor
  · rintro rfl
    rw [doGenerate, if_pos (hsize.trans Multiset.card_zero)]
  · intro hne
    have hpos : T.size ≠ 0 := by
      rw [hsize, Ne, Multiset.card_eq_zero]
      exact hne
    rcases hleaves : T.toTrie.leaves with _ | ⟨l, leaves⟩
    · exact absurd (h.leaves_eq_nil_iff.1 hleaves) hpos
    · have hmem : ∀ t, t ∈ M ↔ t = l.tpl ∨ ∃ m ∈ leaves, m.tpl = t := by
        intro t
        rw [h.represents.mem_iff, hleaves]
        simp [eq_comm]
      have hl : l.tpl ∈ M := (hmem _).2 (Or.inl rfl)
      have htyped := h.typed hl
      have hlt : field < l.tpl.length := by
        rw [htyped.length_eq]
        exact (List.getElem?_eq_some_iff.1 hfield).1
      -- The tuple of an extreme value is one of the multiset, and bounds the others.
      have hextreme : ∀ (better : BitVec 32 → BitVec 32 → Bool) (rank : BitVec 32 → ℤ),
          (∀ a b, better a b = true ↔ rank b < rank a) →
          generateExtreme better field l.tpl leaves ∈ M ∧ ∀ t ∈ M, rank (getInt field t) ≤
            rank (getInt field (generateExtreme better field l.tpl leaves)) := by
        intro better rank hbetter
        obtain ⟨hin, hbest, hrest⟩ := generateExtreme_spec hbetter field l.tpl leaves
        refine ⟨(hmem _).2 hin, fun t ht => ?_⟩
        rcases (hmem t).1 ht with rfl | ⟨m, hm, rfl⟩
        · exact hbest
        · exact hrest m hm
      simp only [doGenerate, if_neg hpos, hleaves]
      cases typ with
      | first => exact ⟨_, rfl, htyped, hkey _ hl, _, hl, rfl⟩
      | maxInt =>
        obtain ⟨hin, hbound⟩ := hextreme (fun a b => b.slt a) BitVec.toInt
          fun a b => BitVec.slt_iff_toInt_lt
        exact ⟨_, rfl, h.typed hin, hkey _ hin, ⟨_, hin, rfl⟩, hbound⟩
      | minInt =>
        obtain ⟨hin, hbound⟩ := hextreme (fun a b => a.slt b) (fun v => - v.toInt) fun a b => by
          rw [BitVec.slt_iff_toInt_lt]
          omega
        exact ⟨_, rfl, h.typed hin, hkey _ hin, ⟨_, hin, rfl⟩, fun t ht =>
          Int.neg_le_neg_iff.1 (hbound t ht)⟩
      | sumInt =>
        refine ⟨_, rfl, typed_setInt htyped hfield _, ?_, ?_⟩
        · rw [take_setInt]
          exact hkey _ hl
        · show getInt field (setInt field _ l.tpl) = _
          rw [getInt_setInt hlt, ← hleaves, generateSum_eq, h.sum_leaves]

/-! ## Groups -/

/-- The tuples of a group. -/
def groupOf (field : ℕ) (key : Tuple) (M : Multiset Tuple) : Multiset Tuple :=
  M.filter fun t => t.take field = key

/-- The configuration holds the tuples of its group, and announced their aggregate. -/
structure AggConfiguration.Inv (nodeId : BitVec 64 → ℕ) (fields : List FieldType)
    (typ : AggregateType) (field : ℕ) (c : AggConfiguration) (M : Multiset Tuple) : Prop where
  vals : c.vals.toTrie.Inv nodeId fields M
  corresponds : c.corresponds = doGenerate typ field c.vals

/-- Every group has its share of the contributed tuples. -/
structure TupleAggregate.Inv (nodeId : BitVec 64 → ℕ) (fields : List FieldType)
    (typ : AggregateType) (field : ℕ) (A : TupleAggregate) (M : Multiset Tuple) : Prop where
  groups : ∃ K, A.vals.Inv nodeId (fields.take field) K
  conf : ∀ key, TupleHasType key (fields.take field) →
    (A.conf (Trie.word key).reverse).Inv nodeId fields typ field (groupOf field key M)

/-- The tuple a configuration announced has the types of the predicate and belongs to the group. -/
theorem AggConfiguration.Inv.typed {typ : AggregateType} {field : ℕ} {c : AggConfiguration}
    {key : Tuple} (h : c.Inv nodeId fields typ field (groupOf field key M))
    (hfield : fields[field]? = some .int) {t : Tuple} (ht : c.corresponds = some t) :
    TupleHasType t fields ∧ t.take field = key := by
  obtain ⟨hnone, hsome⟩ := doGenerate_spec h.vals hfield typ
    fun u hu => (Multiset.mem_filter.1 hu).2
  rw [h.corresponds] at ht
  by_cases hzero : groupOf field key M = 0
  · rw [hnone hzero] at ht
    cases ht
  · obtain ⟨u, hu, htyped, hkey, -⟩ := hsome hzero
    rw [hu] at ht
    obtain rfl := Option.some.inj ht
    exact ⟨htyped, hkey⟩

theorem AggConfiguration.inv_create (typ : AggregateType) (field : ℕ) :
    AggConfiguration.create.Inv nodeId fields typ field 0 where
  vals := Trie.inv_empty
  corresponds := by
    rw [doGenerate]
    rfl

theorem TupleAggregate.inv_create (typ : AggregateType) (field : ℕ) :
    TupleAggregate.create.Inv nodeId fields typ field 0 where
  groups := ⟨0, Trie.inv_empty⟩
  conf := fun _ _ => AggConfiguration.inv_create typ field

/-- Finding a group leads to the address spelled by its fields. -/
theorem TupleAggregate.findConfiguration_spec {V : Trie} {K : Multiset Tuple} {key : Tuple}
    {keys : List FieldType} (h : V.Inv nodeId keys K) (ht : TupleHasType key keys) :
    (∃ K', (findConfiguration nodeId V key).1.Inv nodeId keys K') ∧
      (findConfiguration nodeId V key).2 = (Trie.word key).reverse := by
  simp only [findConfiguration]
  split
  next hfound =>
    have hmem : key ∈ K := by
      by_contra habs
      by_cases hnil : key = []
      · refine hfound.1 ⟨hnil, fun hleaf => habs ?_⟩
        rw [hnil] at ht ⊢
        exact (h.root_leaf_iff ht).1 hleaf
      · have hne : keys ≠ [] := by
          rintro rfl
          cases ht
          exact hnil rfl
        obtain ⟨q, v, rest, hdescend, -⟩ := h.shape.descend_of_not_mem ht
          (fun l hl htpl => habs ((h.represents.mem_iff _).2 ⟨l, hl, htpl⟩)) key [] rfl
          (Or.inl rfl) (Trie.word_ne_nil ht hne) _ rfl
        rw [hdescend] at hfound
        exact List.cons_ne_nil _ _ hfound.2
    exact ⟨⟨K, h⟩, h.leafNode_eq hmem⟩
  next hfound =>
    obtain ⟨hinv, -⟩ := h.insertAny ht
    exact ⟨⟨_, hinv⟩, hinv.leafNode_eq (Multiset.mem_cons_self _ _)⟩

/-! ## A contribution -/

/-- The changes that lead from the tuple announced before to the one announced now. -/
def announce : Option Tuple → Option Tuple → List (Change Tuple)
  | none, none => []
  | none, some new => [.add new]
  | some old, none => [.remove old]
  | some old, some new => if old = new then [] else [.remove old, .add new]

/-- `generate` announces the aggregate of the trie. -/
theorem AggConfiguration.generate_spec (c : AggConfiguration) (pred : ℕ) (typ : AggregateType)
    (field : ℕ) :
    (c.generate pred typ field).2.map FullTuple.change =
        announce c.corresponds (doGenerate typ field c.vals) ∧
      (∀ x ∈ (c.generate pred typ field).2, x.pred = pred ∧
        (c.corresponds = some x.data ∨ doGenerate typ field c.vals = some x.data)) ∧
      (c.generate pred typ field).2.length ≤ 2 ∧
      (c.generate pred typ field).1.vals = c.vals ∧
      (c.generate pred typ field).1.corresponds = doGenerate typ field c.vals := by
  rcases hold : c.corresponds with _ | old <;>
    rcases hnew : doGenerate typ field c.vals with _ | new
  · simp [generate, hold, hnew, announce]
  · simp [generate, hold, hnew, announce, FullTuple.change]
  · simp [generate, hold, hnew, announce, FullTuple.change]
  · by_cases heq : old = new
    · simp [generate, hold, hnew, announce, heq]
    · simp [generate, hold, hnew, announce, heq, FullTuple.change]

theorem groupOf_apply_of_ne {field : ℕ} {key : Tuple} {c : Change Tuple} {t : Tuple}
    (hc : c = .add t ∨ c = .remove t) (hne : t.take field ≠ key) (M : Multiset Tuple) :
    groupOf field key (c.apply M) = groupOf field key M := by
  rcases hc with rfl | rfl
  · exact Multiset.filter_cons_of_neg (p := fun u : Tuple => u.take field = key) _ hne
  · by_cases hmem : t ∈ M
    · conv_rhs => rw [← Multiset.cons_erase hmem]
      exact (Multiset.filter_cons_of_neg (p := fun u : Tuple => u.take field = key) _ hne).symm
    · simp only [Change.apply, Multiset.erase_of_notMem hmem]

theorem groupOf_add {field : ℕ} (t : Tuple) (M : Multiset Tuple) :
    groupOf field (t.take field) (t ::ₘ M) = t ::ₘ groupOf field (t.take field) M :=
  Multiset.filter_cons_of_pos (p := fun u : Tuple => u.take field = t.take field) M rfl

theorem groupOf_remove {field : ℕ} {t : Tuple} {M : Multiset Tuple} (hmem : t ∈ M) :
    groupOf field (t.take field) (M.erase t) = (groupOf field (t.take field) M).erase t := by
  conv_rhs => rw [← Multiset.cons_erase hmem, groupOf_add]
  rw [Multiset.erase_cons_head]

theorem typed_take {tpl : Tuple} (ht : TupleHasType tpl fields) (n : ℕ) :
    TupleHasType (tpl.take n) (fields.take n) := by
  induction ht generalizing n with
  | nil =>
    rw [List.take_nil, List.take_nil]
    exact List.Forall₂.nil
  | cons hv ht ih =>
    cases n with
    | zero => exact List.Forall₂.nil
    | succ n => exact List.Forall₂.cons hv (ih n)

/-- A contribution to a configuration changes the tuples of its group. -/
theorem AggConfiguration.addToSet_spec {c : AggConfiguration} (stpl : FullTuple)
    (h : c.vals.toTrie.Inv nodeId fields M) (ht : TupleHasType stpl.data fields)
    (hmem : stpl.dir = .negative → stpl.data ∈ M) (depth : ℕ) :
    ∃ c', c.addToSet nodeId false stpl.data depth stpl.dir = some c' ∧
      c'.corresponds = c.corresponds ∧
      c'.vals.toTrie.Inv nodeId fields (stpl.change.apply M) := by
  rcases hdir : stpl.dir with _ | _
  · refine ⟨_, rfl, rfl, ?_⟩
    simp only [FullTuple.change, hdir]
    exact (TupleTrie.insertTuple_spec h ht false depth).1
  · obtain ⟨T', hremove, hinv⟩ := TupleTrie.remove_spec h (hmem hdir) depth
    refine ⟨{ c with changed := true, vals := T' }, ?_, rfl, ?_⟩
    · simp [addToSet, hremove]
    · simp only [FullTuple.change, hdir]
      exact hinv

theorem TupleAggregate.conf_update (A : TupleAggregate) (V : Trie) (p q : TriePath)
    (c : AggConfiguration) :
    (⟨V, Function.update A.confs p (some c)⟩ : TupleAggregate).conf q =
      if q = p then c else A.conf q := by
  by_cases hq : q = p
  · simp [conf, hq]
  · simp [conf, hq]

/-- **A contribution changes its group and announces the change.**  The tuple is added to or taken
out of its group, and what is announced leads from the group's old tuple to its new one. -/
theorem TupleAggregate.contribute_spec {A : TupleAggregate} {typ : AggregateType} {field : ℕ}
    (h : A.Inv nodeId fields typ field M) (stpl : FullTuple)
    (ht : TupleHasType stpl.data fields) (hmem : stpl.dir = .negative → stpl.data ∈ M)
    (depth : ℕ) :
    ∃ A' p, A.addToSet nodeId false field stpl.data stpl.dir depth = some (A', p) ∧
      p = (Trie.word (stpl.data.take field)).reverse ∧
      (A'.conf p).corresponds = (A.conf p).corresponds ∧
      ∀ c, c.vals = (A'.conf p).vals → c.corresponds = doGenerate typ field c.vals →
        TupleAggregate.Inv nodeId fields typ field
          { A' with confs := Function.update A'.confs p (some c) } (stpl.change.apply M) ∧
        ∀ q, q ≠ p → TupleAggregate.conf
          { A' with confs := Function.update A'.confs p (some c) } q = A.conf q := by
  obtain ⟨K, hK⟩ := h.groups
  have hkey : TupleHasType (stpl.data.take field) (fields.take field) := typed_take ht field
  obtain ⟨⟨K', hK'⟩, hp⟩ := findConfiguration_spec hK hkey
  have hchange : stpl.change = .add stpl.data ∨ stpl.change = .remove stpl.data := by
    rw [FullTuple.change]
    cases stpl.dir
    · exact Or.inl rfl
    · exact Or.inr rfl
  have hgroup : groupOf field (stpl.data.take field) (stpl.change.apply M) =
      stpl.change.apply (groupOf field (stpl.data.take field) M) := by
    rw [FullTuple.change]
    rcases hdir : stpl.dir with _ | _
    · exact groupOf_add _ _
    · exact groupOf_remove (hmem hdir)
  have hmem' : stpl.dir = .negative → stpl.data ∈ groupOf field (stpl.data.take field) M :=
    fun hdir => Multiset.mem_filter.2 ⟨hmem hdir, rfl⟩
  obtain ⟨c', hc', hcorr, hinv⟩ :=
    AggConfiguration.addToSet_spec stpl (h.conf _ hkey).vals ht hmem' depth
  rw [← hgroup] at hinv
  refine ⟨⟨(findConfiguration nodeId A.vals (stpl.data.take field)).1,
    Function.update A.confs (Trie.word (stpl.data.take field)).reverse (some c')⟩, _, ?_, rfl,
    ?_, ?_⟩
  · simp only [addToSet, hp, hc', Option.map_some]
  · rw [conf_update, if_pos rfl, hcorr]
  · intro c hvals hc
    rw [conf_update, if_pos rfl] at hvals
    have hconf : ∀ q, TupleAggregate.conf ⟨(findConfiguration nodeId A.vals
        (stpl.data.take field)).1, Function.update (Function.update A.confs
          (Trie.word (stpl.data.take field)).reverse (some c'))
          (Trie.word (stpl.data.take field)).reverse (some c)⟩ q =
        if q = (Trie.word (stpl.data.take field)).reverse then c else A.conf q := by
      intro q
      rw [Function.update_idem, conf_update]
    refine ⟨⟨⟨K', hK'⟩, fun key hk => ?_⟩, fun q hq => ?_⟩
    · rw [hconf]
      by_cases hsame : key = stpl.data.take field
      · subst hsame
        rw [if_pos rfl]
        refine ⟨?_, hc⟩
        rw [hvals]
        exact hinv
      · have hne : (Trie.word key).reverse ≠ (Trie.word (stpl.data.take field)).reverse := by
          intro heq
          refine hsame (Trie.word_inj (r := []) hk hkey ?_)
          rw [List.append_nil, List.reverse_injective heq]
        rw [if_neg hne, groupOf_apply_of_ne hchange (Ne.symm hsame)]
        exact h.conf key hk
    · rw [hconf, if_neg hq]

end Generate

end Meld
