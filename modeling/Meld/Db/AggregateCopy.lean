import Meld.Db.Aggregate
import Meld.Db.DatumTrieInsert

/-!
# Aggregates over every field type

The queue of persistent tuples once more, of one aggregate predicate that is no cycle predicate, now
with fields of every type that the trie accepts.  The tuple of a group is announced in a copy, and
`tuple::copy` throws for the types that `copy_field` leaves out: a boolean or a structure in front
of the aggregated field is enough.

* `copy`: the copy of a tuple.
* `AggregateNode.step`, `AggregateNode.doPersistentTuples`: the loop, `none` when it throws.
* `doPersistentTuples_eq_none`: what becomes of a contribution with such a field.
-/

namespace Meld

open Datum

/-- The types that `copy_field` knows. -/
def FieldType.copied : FieldType → Bool
  | .int | .float | .node | .thread | .list _ => true
  | _ => false

/-- `tuple::copy`. -/
def Datum.copy (fields : List FieldType) (tpl : List Datum) : Option (List Datum) :=
  if fields.all FieldType.copied then some tpl else none

/-- `get_int`. -/
def Datum.getInt (field : ℕ) (tpl : List Datum) : BitVec 32 :=
  match tpl[field]? with
  | some (.int i) => i
  | _ => 0

/-- `full_tuple`: derived or retracted, and whether it comes from `generate`. -/
structure Contribution where
  dir : Direction
  data : List Datum
  isAggregate : Bool

/-- `agg_configuration`. -/
structure DatumConfiguration where
  corresponds : Option (List Datum)
  vals : DatumTrie

/-- The trie of the predicate, the trie of its groups, and the configurations at the leaves. -/
structure AggregateNode where
  trie : DatumTrie
  groups : DatumTrie
  confs : List Symbol → Option DatumConfiguration

section Queue

variable (H : Hashes) (fields : List FieldType) (typ : AggregateType) (field : ℕ)

namespace DatumConfiguration

/-- `agg_configuration::add_to_set`. -/
def addToSet (c : DatumConfiguration) (tpl : List Datum) : Direction → Option DatumConfiguration
  | .positive => (c.vals.insertTuple H false tpl 0).map fun r => { c with vals := r.1 }
  | .negative => (c.vals.remove H false tpl 0).map ({ c with vals := · })

/-- `do_generate`, with the loops over the leaves. -/
def doGenerate (T : DatumTrie) : Option (Option (List Datum)) :=
  if T.numberOfReferences = 0 then some none
  else
    match T.leaves with
    | [] => none
    | l :: leaves =>
      let best (better : BitVec 32 → BitVec 32 → Bool) := leaves.foldl (fun best m =>
        if better (Datum.getInt field m.tpl) (Datum.getInt field best) then m.tpl else best) l.tpl
      let sum := (l :: leaves).foldl (fun sum m => (· + Datum.getInt field m.tpl)^[m.count] sum) 0
      match typ with
      | .first => (copy fields l.tpl).map some
      | .maxInt => (copy fields (best fun a b => b.slt a)).map some
      | .minInt => (copy fields (best fun a b => a.slt b)).map some
      | .sumInt => (copy fields l.tpl).map fun tpl => some (tpl.set field (.int sum))

/-- `agg_configuration::generate`. -/
def generate (c : DatumConfiguration) : Option (DatumConfiguration × List Contribution) := do
  match c.corresponds, ← doGenerate fields typ field c.vals with
  | none, none => some (c, [])
  | none, some generated =>
    let tpl ← copy fields generated
    some ({ c with corresponds := some generated }, [⟨.positive, tpl, true⟩])
  | some old, none => some ({ c with corresponds := none }, [⟨.negative, old, true⟩])
  | some old, some generated =>
    if ← tupleEqual fields old generated then some (c, [])
    else
      let tpl ← copy fields generated
      some ({ c with corresponds := some generated },
        [⟨.negative, old, true⟩, ⟨.positive, tpl, true⟩])

end DatumConfiguration

namespace AggregateNode

/-- A node without facts. -/
def create : AggregateNode := ⟨.empty, .empty, fun _ => none⟩

/-- `search_for_negative_tuple`: the queue without the first retraction of the tuple. -/
def searchForNegativeTuple (stpl : Contribution) :
    List Contribution → Option (Option (List Contribution))
  | [] => some none
  | stpl2 :: ls => do
    if stpl2.isAggregate = stpl.isAggregate ∧ stpl2.dir = .negative then
      if ← tupleEqual fields stpl2.data stpl.data then return some ls
    let rest ← searchForNegativeTuple stpl ls
    return rest.map (stpl2 :: ·)

/-- `process_persistent_tuple`. -/
def processPersistentTuple (s : AggregateNode) (stpl : Contribution) : Option AggregateNode :=
  match stpl.dir with
  | .positive => (s.trie.insertTuple H false stpl.data 0).map fun r => { s with trie := r.1 }
  | .negative => (s.trie.remove H false stpl.data 0).map ({ s with trie := · })

/-- `add_to_aggregate`, with `find_configuration`: the configuration of the group is at the leaf of
the fields in front of the aggregated one. -/
def addToAggregate (s : AggregateNode) (stpl : Contribution) :
    Option (AggregateNode × List Contribution) := do
  let key := stpl.data.take field
  let (groups, _) ← s.groups.checkInsert H false key 0
  let leaf := (words key).reverse
  let conf ← ((s.confs leaf).getD ⟨none, .empty⟩).addToSet H stpl.data stpl.dir
  let (conf, list) ← conf.generate fields typ field
  some ({ s with groups := groups, confs := Function.update s.confs leaf (some conf) }, list)

/-- One round of the loop of `do_persistent_tuples`. -/
def step (s : AggregateNode) (stpl : Contribution) (ls : List Contribution) :
    Option (AggregateNode × List Contribution) := do
  match ← if stpl.dir = .positive then searchForNegativeTuple fields stpl ls else some none with
  | some rest => some (s, rest)
  | none =>
    if stpl.isAggregate then (s.processPersistentTuple H stpl).map fun s => (s, ls)
    else (s.addToAggregate H fields typ field stpl).map fun r => (r.1, ls ++ r.2)

/-- The loop of `do_persistent_tuples`. -/
def drain : ℕ → AggregateNode → List Contribution → Option AggregateNode
  | _, s, [] => some s
  | 0, _, _ :: _ => none
  | fuel + 1, s, stpl :: ls =>
    match s.step H fields typ field stpl ls with
    | none => none
    | some (s', ls') => drain fuel s' ls'

/-- `do_persistent_tuples`. -/
def doPersistentTuples (s : AggregateNode) (ls : List Contribution) : Option AggregateNode :=
  s.drain H fields typ field (3 * ls.length) ls

end AggregateNode

end Queue

/-! ## Fields that cannot be copied -/

section Uncopied

variable {H : Hashes} {fields : List FieldType} {typ : AggregateType} {field : ℕ}

theorem Datum.copy_eq_none (h : fields.all FieldType.copied = false) (tpl : List Datum) :
    copy fields tpl = none := by
  rw [copy, h]
  rfl

/-- The aggregate of a group with tuples is not generated. -/
theorem DatumConfiguration.doGenerate_eq_none (h : fields.all FieldType.copied = false)
    {T : DatumTrie} (hne : T.numberOfReferences ≠ 0) : doGenerate fields typ field T = none := by
  rw [doGenerate, if_neg hne]
  cases T.leaves with
  | nil => rfl
  | cons l leaves => cases typ <;> simp [copy_eq_none h]

/-- `insert_tuple` counts the tuple. -/
theorem DatumTrie.numberOfReferences_insertTuple {T : DatumTrie} {isCycle : Bool}
    {tpl : List Datum} {depth : ℕ} {r : DatumTrie × Bool}
    (h : T.insertTuple H isCycle tpl depth = some r) :
    r.1.numberOfReferences = T.numberOfReferences + 1 := by
  obtain ⟨q, hq, rfl⟩ := Option.map_eq_some_iff.1 h
  rw [DatumTrie.checkInsert] at hq
  split at hq
  · cases hq
    rfl
  · split at hq
    · cases hq
    · cases hq
      rfl
    · dsimp only at hq
      split at hq
      · cases hq
      · split at hq <;> cases hq
        rfl

namespace AggregateNode

/-- **A contribution with a field that is not copied** throws, in every state of the node. -/
theorem addToAggregate_eq_none (h : fields.all FieldType.copied = false) (s : AggregateNode)
    (tpl : List Datum) (tag : Bool) :
    s.addToAggregate H fields typ field ⟨.positive, tpl, tag⟩ = none := by
  rw [addToAggregate, Option.bind_eq_bind, Option.bind_eq_none_iff]
  intro groups _
  rw [Option.bind_eq_bind, Option.bind_eq_none_iff]
  intro conf hconf
  obtain ⟨r, hr, rfl⟩ := Option.map_eq_some_iff.1 hconf
  have hne : r.1.numberOfReferences ≠ 0 := by
    rw [DatumTrie.numberOfReferences_insertTuple hr]
    exact Nat.succ_ne_zero _
  rw [DatumConfiguration.generate, DatumConfiguration.doGenerate_eq_none h hne]
  rfl

/-- So no queue is drained that begins with a contribution that is not retracted in it. -/
theorem doPersistentTuples_eq_none (h : fields.all FieldType.copied = false) (s : AggregateNode)
    {tpl : List Datum} {ls : List Contribution}
    (hkept : ∀ rest, searchForNegativeTuple fields ⟨.positive, tpl, false⟩ ls ≠ some (some rest)) :
    s.doPersistentTuples H fields typ field (⟨.positive, tpl, false⟩ :: ls) = none := by
  have hstep : s.step H fields typ field ⟨.positive, tpl, false⟩ ls = none := by
    rw [step, if_pos rfl, Option.bind_eq_bind, Option.bind_eq_none_iff]
    rintro (_ | rest) hsearch
    · rw [addToAggregate_eq_none h]
      rfl
    · exact absurd hsearch (hkept rest)
  rw [doPersistentTuples, List.length_cons, Nat.mul_succ, drain, hstep]

end AggregateNode

end Uncopied

end Meld
