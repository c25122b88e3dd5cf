import Mathlib.Data.Set.Card
import Meld.Lib.Agree
import Meld.Runtime.Containers
import Meld.Runtime.Fields

/-!
# The words and the elements of a set

A `runtime::set` is a set of words, and two words are one element if all their bytes are the same.
What it is for is a set of values, and a value may have several words: those of an `int` differ in
the bytes that it does not use, and zero as a `float` has two.  A set that is made of a list gets
its elements only if they are references, as if the test were one for counting them.

* `WordSet`, `setExternals`: the sets of a program, with the functions it calls.
* `valueSets`: the same on sets of values.
* `WordsSuffice`: when a call does on words what it does on values.
* `set_externals_iff`: a sequence of calls does so exactly if every call does.
-/

namespace Meld
namespace Sets

/-- `runtime::set`.  The type is the one that all calls for this set come with. -/
structure WordSet where
  type : FieldType
  data : Finset Field

namespace WordSet

/-- `set::get_size`. -/
def getSize (S : WordSet) : ℕ := S.data.card

/-- `set::add`. -/
def add (S : WordSet) (f : Field) : WordSet := { S with data := insert f S.data }

/-- `set::create_empty`. -/
def createEmpty (t : FieldType) : WordSet := ⟨t, ∅⟩

/-- `set::create_from_vector`. -/
def createFromVector (t : FieldType) (v : List Field) : WordSet :=
  if t.isReference then v.foldl add (createEmpty t) else createEmpty t

/-- `set::mutate_add`. -/
def mutateAdd (old : WordSet) (f : Field) : WordSet :=
  let a : WordSet := ⟨old.type, old.data⟩
  a.add f

end WordSet

/-- `set_size`. -/
def setSize (S : WordSet) : ℤ := toIntVal S.getSize

/-- `set_exists`, with `set::exists`. -/
def setExists (S : WordSet) (item : Field) : Bool := decide (item ∈ S.data)

/-- `set_add`. -/
def setAdd (S : WordSet) (item : Field) : WordSet := S.mutateAdd item

/-- `set_from_list`. -/
def setFromList (ls : List Field) (t : FieldType) : WordSet := WordSet.createFromVector t ls

/-! ## Programs -/

/-- A call, with the number of the set that it is given. -/
inductive SetOp where
  | fromList (ls : List Field) (t : FieldType)
  | add (k : ℕ) (item : Field)
  | exists (k : ℕ) (item : Field)
  | size (k : ℕ)

/-- What a call returns.  A new set gets the next number. -/
inductive SetResult where
  | set
  | bool (b : Bool)
  | int (n : ℤ)

/-- The functions, for a program that has made some sets. -/
def setExternals : Machine SetOp SetResult (List WordSet) where
  step sets
    | .fromList ls t => some (.set, sets ++ [setFromList ls t])
    | .add k item => sets[k]?.map fun S => (.set, sets ++ [setAdd S item])
    | .exists k item => sets[k]?.map fun S => (.bool (setExists S item), sets)
    | .size k => sets[k]?.map fun S => (.int (setSize S), sets)

section Values

variable {ν : Type*} (V : FieldValues ν)

open Classical in
/-- The functions on sets of values. -/
noncomputable def valueSets : Machine SetOp SetResult (List (FieldType × Set ν)) where
  step sets
    | .fromList ls t => some (.set, sets ++ [(t, {v | ∃ f ∈ ls, V.value t f = v})])
    | .add k item =>
      sets[k]?.map fun S => (.set, sets ++ [(S.1, insert (V.value S.1 item) S.2)])
    | .exists k item =>
      sets[k]?.map fun S => (.bool (decide (V.value S.1 item ∈ S.2)), sets)
    | .size k => sets[k]?.map fun S => (.int S.2.ncard, sets)

/-- The values of a set of words. -/
def WordSet.values (S : WordSet) : Set ν := V.value S.type '' S.data

/-- The sets of values that a program has made. -/
def values (sets : List WordSet) : List (FieldType × Set ν) :=
  sets.map fun S => (S.type, S.values V)

/-- A call does on words what it does on values: a list of elements that are not references is
empty, a value is looked for by a word that it is stored with, and each value has one word. -/
def WordsSuffice (sets : List WordSet) : SetOp → Prop
  | .fromList ls t => t.isReference = true ∨ ls = []
  | .add _ _ => True
  | .exists k item => ∀ S, sets[k]? = some S →
    ∀ f ∈ S.data, V.value S.type f = V.value S.type item → item ∈ S.data
  | .size k => ∀ S, sets[k]? = some S →
    (S.values V).ncard < 2 ^ 31 ∧ 2 ^ 32 ∣ S.data.card - (S.values V).ncard

variable {V}

@[simp] theorem mem_values {S : WordSet} {v : ν} :
    v ∈ S.values V ↔ ∃ f ∈ S.data, V.value S.type f = v := Iff.rfl

theorem values_add (S : WordSet) (f : Field) :
    (S.add f).values V = insert (V.value S.type f) (S.values V) := by
  rw [WordSet.values, WordSet.values, WordSet.add, Finset.coe_insert, Set.image_insert_eq]

@[simp] theorem type_add (S : WordSet) (f : Field) : (S.add f).type = S.type := rfl

theorem data_foldl_add (S : WordSet) (v : List Field) :
    v.foldl WordSet.add S = ⟨S.type, S.data ∪ v.toFinset⟩ := by
  induction v generalizing S with
  | nil => rw [List.foldl_nil, List.toFinset_nil, Finset.union_empty]
  | cons f v ih =>
    rw [List.foldl_cons, ih, List.toFinset_cons, WordSet.add, Finset.insert_union,
      Finset.union_insert]

/-- What `set_from_list` makes. -/
theorem setFromList_eq (ls : List Field) (t : FieldType) :
    setFromList ls t = ⟨t, if t.isReference then ls.toFinset else ∅⟩ := by
  rw [setFromList, WordSet.createFromVector, data_foldl_add]
  split
  · rw [WordSet.createEmpty, Finset.empty_union]
  · rfl

theorem values_setFromList (ls : List Field) (t : FieldType) :
    (setFromList ls t).values V = {v | ∃ f ∈ ls, V.value t f = v} ↔
      t.isReference = true ∨ ls = [] := by
  rw [setFromList_eq]
  by_cases href : t.isReference = true
  · refine iff_of_true ?_ (Or.inl href)
    ext v
    simp [href]
  · simp only [href, Bool.false_eq_true, false_or]
    constructor
    · intro h
      by_contra hne
      obtain ⟨f, hf⟩ := List.exists_mem_of_ne_nil ls hne
      have hmem : V.value t f ∈ ({v | ∃ f ∈ ls, V.value t f = v} : Set ν) := ⟨f, hf, rfl⟩
      rw [← h] at hmem
      obtain ⟨g, hg, -⟩ := hmem
      exact absurd hg (Finset.notMem_empty g)
    · rintro rfl
      ext v
      simp

open Classical in
theorem setExists_eq_iff (S : WordSet) (item : Field) :
    setExists S item = decide (V.value S.type item ∈ S.values V) ↔
      ∀ f ∈ S.data, V.value S.type f = V.value S.type item → item ∈ S.data := by
  rw [Bool.eq_iff_iff, setExists, decide_eq_true_iff, decide_eq_true_iff, mem_values]
  constructor
  · exact fun h f hf heq => h.2 ⟨f, hf, heq⟩
  · exact fun h => ⟨fun hmem => ⟨item, hmem, rfl⟩, fun ⟨f, hf, heq⟩ => h f hf heq⟩

theorem setSize_eq_iff (S : WordSet) :
    setSize S = (S.values V).ncard ↔
      (S.values V).ncard < 2 ^ 31 ∧ 2 ^ 32 ∣ S.data.card - (S.values V).ncard := by
  refine toIntVal_eq_iff ?_
  have hle := Set.ncard_image_le (f := V.value S.type) S.data.finite_toSet
  rwa [Set.ncard_coe_finset] at hle

theorem getElem?_values (sets : List WordSet) (k : ℕ) :
    (values V sets)[k]? = sets[k]?.map fun S => (S.type, S.values V) :=
  List.getElem?_map ..

theorem values_append (sets : List WordSet) (S : WordSet) :
    values V (sets ++ [S]) = values V sets ++ [(S.type, S.values V)] := by
  rw [values, List.map_append]
  rfl

/-- **One call**. -/
theorem step_iff (sets : List WordSet) (op : SetOp) :
    (setExternals.step sets op).map (Prod.map id (values V)) =
        (valueSets V).step (values V sets) op ↔
      WordsSuffice V sets op := by
  cases op with
  | fromList ls t =>
    have heq : (setExternals.step sets (.fromList ls t)).map (Prod.map id (values V)) =
        some (.set, values V sets ++ [(t, (setFromList ls t).values V)]) := by
      show some (SetResult.set, values V (sets ++ [setFromList ls t])) = _
      rw [values_append, setFromList_eq]
    rw [heq, WordsSuffice, ← values_setFromList (V := V)]
    constructor
    · intro h
      have hlast := List.append_cancel_left (Prod.mk.inj (Option.some.inj h)).2
      exact (Prod.mk.inj (List.singleton_injective hlast)).2
    · intro h
      rw [h]
      rfl
  | add k item =>
    refine iff_of_true ?_ trivial
    show (sets[k]?.map _).map _ = (values V sets)[k]?.map _
    rw [getElem?_values, Option.map_map, Option.map_map]
    congr 1
    funext S
    show (SetResult.set, values V (sets ++ [S.add item])) = _
    rw [values_append, values_add]
    rfl
  | «exists» k item =>
    show (sets[k]?.map _).map _ = (values V sets)[k]?.map _ ↔ _
    rw [getElem?_values]
    cases hk : sets[k]? with
    | none => exact iff_of_true rfl fun S hS => absurd (hk.symm.trans hS) nofun
    | some S =>
      have hb := setExists_eq_iff (V := V) S item
      rw [WordsSuffice, hk]
      refine Iff.trans ⟨fun h => ?_, fun h => ?_⟩ (hb.trans ⟨fun h _ hS => ?_, fun h => h S rfl⟩)
      · exact (SetResult.bool.inj (Prod.mk.inj (Option.some.inj h)).1)
      · exact congrArg (fun b => some (SetResult.bool b, values V sets)) h
      · exact Option.some.inj hS ▸ h
  | size k =>
    show (sets[k]?.map _).map _ = (values V sets)[k]?.map _ ↔ _
    rw [getElem?_values]
    cases hk : sets[k]? with
    | none => exact iff_of_true rfl fun S hS => absurd (hk.symm.trans hS) nofun
    | some S =>
      have hn := setSize_eq_iff (V := V) S
      rw [WordsSuffice, hk]
      refine Iff.trans ⟨fun h => ?_, fun h => ?_⟩ (hn.trans ⟨fun h _ hS => ?_, fun h => h S rfl⟩)
      · exact SetResult.int.inj (Prod.mk.inj (Option.some.inj h)).1
      · exact congrArg (fun n => some (SetResult.int n, values V sets)) h
      · exact Option.some.inj hS ▸ h

end Values

/-- **The sets of a program** are the sets of values that it asks for, after every part of its
calls and with what each returns, exactly if the words suffice in every call. -/
theorem set_externals_iff {ν : Type*} (V : FieldValues ν) (ops : List SetOp) :
    Machine.Agrees setExternals (valueSets V) (values V) [] ops ↔
      setExternals.Along (WordsSuffice V) [] ops :=
  Machine.agrees_iff (fun sets op (_ : True) => step_iff sets op)
    (fun _ _ _ _ _ _ => trivial) [] trivial ops

/-- **A set of the numbers one and two**, made of a list, is empty. -/
theorem not_agrees_ints :
    ¬ Machine.Agrees setExternals (valueSets FieldValues.addresses) (values FieldValues.addresses)
      [] [.fromList [1, 2] .int] := by
  intro h
  have hstep := (step_iff (V := FieldValues.addresses) [] (.fromList [1, 2] .int)).1 h.step
  rcases hstep with href | hnil
  · exact absurd href (by decide)
  · exact absurd hnil nofun

/-! ## With reference counts -/

section Counts

open Containers

variable (M : RuntimeObjs)

end Counts

end Sets
end Meld
