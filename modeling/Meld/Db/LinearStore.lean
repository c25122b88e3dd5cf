import Meld.Db.HashIterator

/-!
# The linear store of a node

`linear_store` keeps the tuples of every linear predicate of a node.  A predicate has a slot of raw
memory that holds a list or a hash table; the bitmap `types` says which.  A list becomes a hash
table when it would reach the threshold, and `cleanup_index` turns a sparse hash table back into a
list.

The content of a slot is a `StoreSlot`, and reading it as the wrong one of the two is `none`.

* `Faithful`: an iteration over a slot meets the tuples added to its predicate and not erased since,
  `empty` and `count_total` agree with them, and an operation leaves the other slots alone.
* `StoreOk`: the invariant behind it.  The bitmap tells the truth, and every slot holds its tuples.
* `reach_faithful`: the promises hold along every run in which no removal frees a sub-table that
  holds lists.
* `not_forall_faithful`: there are runs that lose tuples.
-/

namespace Meld

open Hash

/-- What the store reads of a linear `vm::predicate`: its number among the linear predicates,
whether it may be stored as a hash table, and by which field. -/
structure LinearPredicate where
  linearId : ℕ
  isHashTable : Bool
  hashArgument : ℕ
  deriving DecidableEq

/-- The linear predicates of a program, each at its number. -/
structure LinearProgram where
  preds : List LinearPredicate
  linearId_eq : ∀ (i : ℕ) (p : LinearPredicate), preds[i]? = some p → p.linearId = i

/-- The raw memory of one predicate. -/
inductive StoreSlot where
  | list (ls : List Tuple)
  | table (T : HashTable Tuple)

/-- `linear_store`. -/
structure LinearStore where
  data : ℕ → StoreSlot
  types : Bitmap

namespace HashTable

variable {α : Type}

/-- Insert the tuples of a list in turn. -/
def insertAll (key : α → Value) (T : HashTable α) : List α → Option (HashTable α)
  | [] => some T
  | x :: xs => (T.insert key x).bind fun r => insertAll key r.1 xs

/-- The loop of `transform_hash_table_to_list`: the bucket lists of the table, spliced in the order
of the iterator.  A list is left behind before its tuples are moved. -/
def gather (h : Heap α) : ℕ → Iterator → List α → Option (List α)
  | 0, _, _ => none
  | fuel + 1, it, ls =>
    if it.atEnd then some ls
    else do
      let bucket ← h.lists it.current
      let it ← it.next h
      gather h fuel it (ls ++ bucket.list)

/-- The tuples that an iteration over the bucket lists meets. -/
def listed (T : HashTable α) : Option (List α) := do
  let it ← Iterator.begin T.heap T.sh
  gather T.heap (T.heap.fresh + 1) it []

end HashTable

namespace LinearStore

/-- The constructor of the store: every slot is an empty list. -/
def create (P : LinearProgram) : LinearStore where
  data := fun _ => .list []
  types := Bitmap.create
    (P.preds.length / bitmapBits + if P.preds.length % bitmapBits > 0 then 1 else 0)

/-- `get_table`. -/
def getTable (st : LinearStore) (id : ℕ) : Option (HashTable Tuple) :=
  match st.data id with
  | .list _ => none
  | .table T => some T

/-- `get_list`. -/
def getList (st : LinearStore) (id : ℕ) : Option (List Tuple) :=
  match st.data id with
  | .list ls => some ls
  | .table _ => none

/-- Write the memory of one predicate. -/
def setSlot (st : LinearStore) (id : ℕ) (s : StoreSlot) : LinearStore :=
  { st with data := Function.update st.data id s }

/-- `stored_as_hash_table`. -/
def storedAsHashTable (st : LinearStore) (id : ℕ) : Bool := st.types.getBit id

/-- `transform_list_to_hash_table`. -/
def transformListToHashTable (st : LinearStore) (pred : LinearPredicate) (ls : List Tuple) :
    Option LinearStore := do
  let T ← HashTable.setup.insertAll (getField pred.hashArgument) ls
  let st := st.setSlot pred.linearId (.table T)
  some { st with types := st.types.setBit pred.linearId }

/-- `transform_hash_table_to_list`. -/
def transformHashTableToList (st : LinearStore) (id : ℕ) (T : HashTable Tuple) :
    Option LinearStore := do
  let ls ← T.listed
  let st := st.setSlot id (.list ls)
  some { st with types := st.types.unsetBit id }

/-- Insert tuples into the hash table of a predicate. -/
def insertIntoTable (st : LinearStore) (pred : LinearPredicate) (ls : List Tuple) :
    Option LinearStore := do
  let T ← st.getTable pred.linearId
  let T ← T.insertAll (getField pred.hashArgument) ls
  some (st.setSlot pred.linearId (.table T))

/-- The common body of `add_fact`, `add_fact_list` and `increment_database`: the tuples `ls` go to
the hash table of the predicate or to the end of its list, which becomes a hash table if it is to
have one and would reach the threshold. -/
def addTuples (st : LinearStore) (pred : LinearPredicate) (ls : List Tuple) :
    Option LinearStore :=
  if pred.isHashTable then
    if st.storedAsHashTable pred.linearId then st.insertIntoTable pred ls
    else do
      let mine ← st.getList pred.linearId
      if mine.length + ls.length ≥ createHashtableThreshold then do
        let st ← st.transformListToHashTable pred mine
        st.insertIntoTable pred ls
      else some (st.setSlot pred.linearId (.list (mine ++ ls)))
  else if st.storedAsHashTable pred.linearId then st.insertIntoTable pred ls
  else do
    let mine ← st.getList pred.linearId
    some (st.setSlot pred.linearId (.list (mine ++ ls)))

/-- `add_fact`. -/
def addFact (st : LinearStore) (tpl : Tuple) (pred : LinearPredicate) : Option LinearStore :=
  st.addTuples pred [tpl]

/-- `add_fact_list`. -/
def addFactList (st : LinearStore) (ls : List Tuple) (pred : LinearPredicate) :
    Option LinearStore :=
  st.addTuples pred ls

/-- `increment_database`. -/
def incrementDatabase (st : LinearStore) (pred : LinearPredicate) (ls : List Tuple) :
    Option LinearStore :=
  st.addTuples pred ls

/-- Erase the tuple at a position of the list of a predicate. -/
def eraseFromList (st : LinearStore) (id pos : ℕ) : Option LinearStore := do
  let ls ← st.getList id
  if pos < ls.length then some (st.setSlot id (.list (ls.eraseIdx pos))) else none

/-- Erase the tuple at a position of a bucket list of the hash table of a predicate. -/
def eraseFromTable (st : LinearStore) (id : ℕ) (ls : Ptr) (pos : ℕ) : Option LinearStore := do
  let T ← st.getTable id
  let T ← T.eraseFromList ls pos
  some (st.setSlot id (.table T))

/-- The body of the loop of `cleanup_index`. -/
def cleanupSlot (st : LinearStore) (id : ℕ) : Option LinearStore :=
  if st.storedAsHashTable id then do
    let T ← st.getTable id
    if T.tooSparse then st.transformHashTableToList id T else some st
  else some st

/-- `cleanup_index`.  The iterator over `types` reads the bitmap as it goes. -/
def cleanupIndex (st : LinearStore) (P : LinearProgram) : Option LinearStore :=
  (List.range P.preds.length).foldlM cleanupSlot st

/-- `empty`. -/
def empty (st : LinearStore) (id : ℕ) : Option Bool :=
  if st.storedAsHashTable id then (st.getTable id).map fun T => T.elems == 0
  else (st.getList id).map fun ls => ls.isEmpty

/-- `node::count_total`, for a linear predicate. -/
def countTotal (st : LinearStore) (id : ℕ) : Option ℕ :=
  if st.storedAsHashTable id then (st.getTable id).map fun T => T.elems
  else (st.getList id).map fun ls => ls.length

/-! ## Conversions -/

end LinearStore

namespace HashTable

variable {α : Type} {key : α → Value}

/-- Insertion of a list of tuples stores all of them. -/
theorem Inv.insertAll {T : HashTable α} {S : Shape} {M : Multiset α} (I : Inv key T S M)
    (xs : List α) : ∃ T' S', T.insertAll key xs = some T' ∧ Inv key T' S' (M + xs) := by
  induction xs generalizing T S M with
  | nil => exact ⟨T, S, rfl, by simpa using I⟩
  | cons x xs ih =>
    obtain ⟨T₁, b, S₁, hins, I₁, -⟩ := I.insert x
    obtain ⟨T', S', hall, I'⟩ := ih I₁
    refine ⟨T', S', ?_, ?_⟩
    · rw [HashTable.insertAll, hins, Option.bind_some]
      exact hall
    · rwa [← Multiset.cons_coe, Multiset.add_cons, ← Multiset.cons_add]

/-- The loop of `transform_hash_table_to_list` collects the lists that the iterator has before
it. -/
theorem gather_eq {h : Heap α} {root e : Ptr} {S : Shape} (R : Rep key h root S e)
    {L : List Ptr} (hL : ∀ a ∈ L, ∃ l, h.lists a = some l) {it : Iterator} (ok : IterOk h S it L)
    {fuel : ℕ} (hfuel : L.length < fuel) (ls : List α) :
    gather h fuel it ls = some (ls ++ L.flatMap h.tuples) := by
  induction L generalizing it fuel ls with
  | nil =>
    obtain ⟨fuel, rfl⟩ : ∃ k, fuel = k + 1 := ⟨fuel - 1, by simp at hfuel; omega⟩
    have hend : it.atEnd = true := ok.atEnd
    rw [gather, if_pos hend, List.flatMap_nil, List.append_nil]
  | cons a L ih =>
    obtain ⟨fuel, rfl⟩ : ∃ k, fuel = k + 1 := ⟨fuel - 1, by simp at hfuel; omega⟩
    have hend : it.atEnd = false := ok.atEnd
    obtain ⟨rfl, it', hnext, ok'⟩ := ok.next R
    obtain ⟨l, hl⟩ := hL it.current List.mem_cons_self
    have hrest := ih (fun b hb => hL b (List.mem_cons_of_mem _ hb)) ok'
      (Nat.lt_of_succ_lt_succ hfuel) (ls ++ l.list)
    rw [gather, hend]
    simp only [Bool.false_eq_true, if_false, hl, hnext, Option.bind_eq_bind, Option.bind_some]
    rw [hrest, List.flatMap_cons, Heap.tuples_of_list hl, List.append_assoc]

/-- The walk is no longer than the heap. -/
theorem length_walk_le {h : Heap α} {root e : Ptr} {S : Shape} (R : Rep key h root S e) :
    (walk h S maxLevels root).length ≤ h.fresh := by
  obtain ⟨t, ht, -⟩ := R.root_table
  have hsub : (walk h S maxLevels root).toFinset ⊆ Finset.range h.fresh := by
    intro a ha
    obtain ⟨l, hl⟩ := (mem_walk R).mp (List.mem_toFinset.mp ha)
    exact Finset.mem_range.mpr (R.fresh_lists a l hl)
  have hcard := Finset.card_le_card hsub
  rwa [List.toFinset_card_of_nodup (walk_nodup R maxLevels ht), Finset.card_range] at hcard

/-- **An iteration meets every stored tuple once.** -/
theorem Inv.listed {T : HashTable α} {S : Shape} {M : Multiset α} (I : Inv key T S M) :
    ∃ ls : List α, T.listed = some ls ∧ (ls : Multiset α) = M := by
  obtain ⟨it, hit, ok⟩ := iterOk_begin I.rep
  have hlen := length_walk_le I.rep
  have hgather := gather_eq I.rep (fun a ha => (mem_walk I.rep).mp ha) ok
    (Nat.lt_succ_of_le hlen) []
  refine ⟨(walk T.heap S maxLevels T.sh).flatMap T.heap.tuples, ?_, ?_⟩
  · rw [HashTable.listed, hit]
    exact hgather
  · rw [walk_stored I.rep, I.stored]

end HashTable

namespace LinearStore

/-! ## Runs -/

/-- The operations on a linear store.  A removal names the tuple its iterator points to: a position
in the list of a predicate, or a bucket list of its hash table and a position there. -/
inductive Op where
  | addFact (tpl : Tuple) (pred : LinearPredicate)
  | addFactList (ls : List Tuple) (pred : LinearPredicate)
  | incrementDatabase (pred : LinearPredicate) (ls : List Tuple)
  | eraseFromList (pred : LinearPredicate) (pos : ℕ)
  | eraseFromTable (pred : LinearPredicate) (ls : Ptr) (pos : ℕ)
  | cleanupIndex

namespace Op

/-- What the operation does to the store. -/
def run (P : LinearProgram) (st : LinearStore) : Op → Option LinearStore
  | addFact tpl pred => st.addFact tpl pred
  | addFactList ls pred => st.addFactList ls pred
  | incrementDatabase pred ls => st.incrementDatabase pred ls
  | eraseFromList pred pos => st.eraseFromList pred.linearId pos
  | eraseFromTable pred ls pos => st.eraseFromTable pred.linearId ls pos
  | cleanupIndex => st.cleanupIndex P

/-- The predicate the operation is on; `cleanup_index` is on all of them. -/
def predicate? : Op → Option LinearPredicate
  | addFact _ pred => some pred
  | addFactList _ pred => some pred
  | incrementDatabase pred _ => some pred
  | eraseFromList pred _ => some pred
  | eraseFromTable pred _ _ => some pred
  | cleanupIndex => none

/-- The tuples that the operation adds. -/
def added : Op → Multiset Tuple
  | addFact tpl _ => {tpl}
  | addFactList ls _ => (ls : Multiset Tuple)
  | incrementDatabase _ ls => (ls : Multiset Tuple)
  | _ => 0

/-- The tuple that the operation erases: the one its iterator points to.  The caller takes an
iterator of the form that `stored_as_hash_table` tells. -/
def pointed (st : LinearStore) : Op → Option Tuple
  | eraseFromList pred pos =>
    if st.storedAsHashTable pred.linearId then none
    else (st.getList pred.linearId).bind fun ls => ls[pos]?
  | eraseFromTable pred a pos =>
    if st.storedAsHashTable pred.linearId then
      (st.getTable pred.linearId).bind fun T => (T.heap.lists a).bind fun l => l.list[pos]?
    else none
  | _ => none

/-- Is it a removal? -/
def isErase : Op → Bool
  | eraseFromList _ _ => true
  | eraseFromTable _ _ _ => true
  | _ => false

/-- The operation is on a predicate of the program, and an iterator points to a tuple. -/
def Valid (P : LinearProgram) (st : LinearStore) (op : Op) : Prop :=
  (∀ pred, op.predicate? = some pred → pred ∈ P.preds) ∧
    (op.isErase = true → (op.pointed st).isSome = true)

/-- The tuples of the predicates after the operation: those added, less the one erased. -/
def account (st : LinearStore) (op : Op) (M : ℕ → Multiset Tuple) : ℕ → Multiset Tuple :=
  match op.predicate? with
  | none => M
  | some pred => Function.update M pred.linearId
      (M pred.linearId + op.added - (op.pointed st).elim 0 singleton)

/-- The operation does not take the last tuple of a bucket list out of a table whose counter would
then be `0` with lists left. -/
def Safe (st : LinearStore) : Op → Prop
  | eraseFromTable pred a _ => ∀ T l, st.getTable pred.linearId = some T →
      T.heap.lists a = some l → l.list.length = 1 →
        T.heap.held l.parent % 65536 = 1 → T.heap.held l.parent = 1
  | _ => True

end Op

/-- The states that valid operations lead to, each under the condition `ok`, with the tuples added
to each predicate and not erased since. -/
inductive Reach (P : LinearProgram) (ok : LinearStore → Op → Prop) :
    LinearStore → (ℕ → Multiset Tuple) → Prop where
  | create : Reach P ok (create P) (fun _ => 0)
  | step {st st' : LinearStore} {M : ℕ → Multiset Tuple} {op : Op} (hr : Reach P ok st M)
      (hvalid : op.Valid P st) (hok : ok st op) (hrun : op.run P st = some st') :
      Reach P ok st' (op.account st M)

/-- The tuples that an iteration over the slot of a predicate meets. -/
def contents (st : LinearStore) (id : ℕ) : Option (List Tuple) :=
  if st.storedAsHashTable id then (st.getTable id).bind fun T => T.listed else st.getList id

/-- Every slot but that of `id` is as it was, and so is its bit. -/
def SameElsewhere (id : ℕ) (st st' : LinearStore) : Prop :=
  ∀ j ≠ id, st'.data j = st.data j ∧ st'.storedAsHashTable j = st.storedAsHashTable j

/-- What a linear store that was given the tuples `M` promises. -/
structure Faithful (P : LinearProgram) (st : LinearStore) (M : ℕ → Multiset Tuple) : Prop where
  /-- an iteration meets every tuple once -/
  contents : ∀ pred ∈ P.preds, ∃ ls : List Tuple,
    st.contents pred.linearId = some ls ∧ (ls : Multiset Tuple) = M pred.linearId
  /-- `empty` and `count_total` agree -/
  empty : ∀ pred ∈ P.preds, st.empty pred.linearId = some (decide (M pred.linearId = 0))
  countTotal : ∀ pred ∈ P.preds, st.countTotal pred.linearId = some (M pred.linearId).card
  /-- an operation leaves the slots of the other predicates alone -/
  elsewhere : ∀ (op : Op) (st' : LinearStore), op.Valid P st → op.run P st = some st' →
    ∀ pred : LinearPredicate, op.predicate? = some pred → SameElsewhere pred.linearId st st'

/-- The slot of a predicate is of the form that its bit tells, and holds the tuples `M`. -/
inductive Holds (pred : LinearPredicate) (st : LinearStore) (M : Multiset Tuple) : Prop where
  | list (ls : List Tuple) (hbit : st.storedAsHashTable pred.linearId = false)
      (hdata : st.data pred.linearId = .list ls) (htuples : (ls : Multiset Tuple) = M)
  | table (T : HashTable Tuple) (S : Shape) (hbit : st.storedAsHashTable pred.linearId = true)
      (hdata : st.data pred.linearId = .table T)
      (inv : HashTable.Inv (getField pred.hashArgument) T S M)

/-- The state of a run that gave the store the tuples `M`. -/
structure StoreOk (P : LinearProgram) (st : LinearStore) (M : ℕ → Multiset Tuple) : Prop where
  capacity : ∀ pred ∈ P.preds, pred.linearId < st.types.capacity
  holds : ∀ pred ∈ P.preds, Holds pred st (M pred.linearId)

/-! ## One operation -/

section Slots

variable {st st' : LinearStore} {id : ℕ} {s : StoreSlot}

@[simp] theorem data_setSlot_self : (st.setSlot id s).data id = s := by simp [setSlot]

@[simp] theorem storedAsHashTable_setSlot (j : ℕ) :
    (st.setSlot id s).storedAsHashTable j = st.storedAsHashTable j := rfl

theorem getList_of_data {ls : List Tuple} (h : st.data id = .list ls) :
    st.getList id = some ls := by rw [getList, h]

theorem getTable_of_data {T : HashTable Tuple} (h : st.data id = .table T) :
    st.getTable id = some T := by rw [getTable, h]

theorem sameElsewhere_setSlot : SameElsewhere id st (st.setSlot id s) := by
  intro j hj
  exact ⟨by simp [setSlot, hj], rfl⟩

theorem SameElsewhere.trans {st'' : LinearStore} (h : SameElsewhere id st st')
    (h' : SameElsewhere id st' st'') : SameElsewhere id st st'' := by
  intro j hj
  obtain ⟨hdata, hbit⟩ := h j hj
  obtain ⟨hdata', hbit'⟩ := h' j hj
  exact ⟨hdata'.trans hdata, hbit'.trans hbit⟩

theorem sameElsewhere_setBit (st : LinearStore) (hcap : id < st.types.capacity) :
    SameElsewhere id st { st with types := st.types.setBit id } := by
  intro j hj
  refine ⟨rfl, ?_⟩
  rw [storedAsHashTable, Bitmap.getBit_setBit hcap]
  simp [storedAsHashTable, hj.symm]

theorem sameElsewhere_unsetBit (st : LinearStore) (hcap : id < st.types.capacity) :
    SameElsewhere id st { st with types := st.types.unsetBit id } := by
  intro j hj
  refine ⟨rfl, ?_⟩
  rw [storedAsHashTable, Bitmap.getBit_unsetBit hcap]
  simp [storedAsHashTable, hj.symm]

theorem Holds.congr {pred : LinearPredicate} {M : Multiset Tuple} (h : Holds pred st M)
    (hdata : st'.data pred.linearId = st.data pred.linearId)
    (hbit : st'.storedAsHashTable pred.linearId = st.storedAsHashTable pred.linearId) :
    Holds pred st' M := by
  cases h with
  | list ls hb hd ht => exact .list ls (hbit.trans hb) (hdata.trans hd) ht
  | table T S hb hd I => exact .table T S (hbit.trans hb) (hdata.trans hd) I

end Slots

/-- What an operation on one predicate does: its slot holds the tuples `N` then, and the others
stay. -/
structure Changes (pred : LinearPredicate) (st st' : LinearStore) (N : Multiset Tuple) : Prop where
  holds : Holds pred st' N
  elsewhere : SameElsewhere pred.linearId st st'
  capacity : st'.types.capacity = st.types.capacity

section Operations

variable {st : LinearStore} {pred : LinearPredicate} {M : Multiset Tuple}

theorem insertIntoTable_changes {T : HashTable Tuple} {S : Shape}
    (hbit : st.storedAsHashTable pred.linearId = true) (hdata : st.data pred.linearId = .table T)
    (I : HashTable.Inv (getField pred.hashArgument) T S M) (ls : List Tuple) :
    ∃ st', st.insertIntoTable pred ls = some st' ∧ Changes pred st st' (M + ls) := by
  obtain ⟨T', S', hins, I'⟩ := I.insertAll ls
  refine ⟨st.setSlot pred.linearId (.table T'), ?_, ?_, sameElsewhere_setSlot, rfl⟩
  · rw [insertIntoTable, getTable_of_data hdata]
    simp [hins]
  · exact .table T' S' hbit data_setSlot_self I'

/-- **A list becomes a hash table** with the same tuples. -/
theorem transformListToHashTable_changes (hcap : pred.linearId < st.types.capacity)
    (ls : List Tuple) :
    ∃ st' T S, st.transformListToHashTable pred ls = some st' ∧
      st'.storedAsHashTable pred.linearId = true ∧ st'.data pred.linearId = .table T ∧
      HashTable.Inv (getField pred.hashArgument) T S (ls : Multiset Tuple) ∧
      SameElsewhere pred.linearId st st' ∧ st'.types.capacity = st.types.capacity := by
  obtain ⟨T, S, hins, I⟩ := (HashTable.inv_setup (getField pred.hashArgument)).insertAll ls
  rw [zero_add] at I
  refine ⟨{ st.setSlot pred.linearId (.table T) with types := st.types.setBit pred.linearId },
    T, S, ?_, ?_, data_setSlot_self, I, ?_, Bitmap.capacity_setBit _ _⟩
  · rw [transformListToHashTable, hins]
    rfl
  · rw [storedAsHashTable, Bitmap.getBit_setBit hcap]
    simp
  · exact sameElsewhere_setSlot.trans
      (sameElsewhere_setBit (st.setSlot pred.linearId (.table T)) hcap)

/-- **A hash table becomes a list** with the same tuples. -/
theorem transformHashTableToList_changes {T : HashTable Tuple} {S : Shape}
    (hcap : pred.linearId < st.types.capacity)
    (I : HashTable.Inv (getField pred.hashArgument) T S M) :
    ∃ st', st.transformHashTableToList pred.linearId T = some st' ∧ Changes pred st st' M := by
  obtain ⟨ls, hlisted, htuples⟩ := I.listed
  refine ⟨{ st.setSlot pred.linearId (.list ls) with types := st.types.unsetBit pred.linearId },
    ?_, .list ls ?_ data_setSlot_self htuples, ?_, Bitmap.capacity_unsetBit _ _⟩
  · rw [transformHashTableToList, hlisted]
    rfl
  · rw [storedAsHashTable, Bitmap.getBit_unsetBit hcap]
    simp
  · exact sameElsewhere_setSlot.trans
      (sameElsewhere_unsetBit (st.setSlot pred.linearId (.list ls)) hcap)

/-- **Adding tuples**, with the conversion where it is due. -/
theorem addTuples_changes (hcap : pred.linearId < st.types.capacity) (hold : Holds pred st M)
    (ls : List Tuple) :
    ∃ st', st.addTuples pred ls = some st' ∧ Changes pred st st' (M + ls) := by
  cases hold with
  | table T S hbit hdata I =>
    obtain ⟨st', hins, hch⟩ := insertIntoTable_changes hbit hdata I ls
    refine ⟨st', ?_, hch⟩
    rw [addTuples, hbit, if_pos rfl, if_pos rfl, ite_self]
    exact hins
  | list mine hbit hdata htuples =>
    have happend : Changes pred st (st.setSlot pred.linearId (.list (mine ++ ls))) (M + ls) := by
      refine ⟨.list (mine ++ ls) hbit data_setSlot_self ?_, sameElsewhere_setSlot, rfl⟩
      rw [← Multiset.coe_add, htuples]
    by_cases hconvert : pred.isHashTable = true ∧
        mine.length + ls.length ≥ createHashtableThreshold
    · obtain ⟨st₁, T, S, htrans, hbit₁, hdata₁, I, helse, hcap₁⟩ :=
        transformListToHashTable_changes hcap mine
      rw [htuples] at I
      obtain ⟨st', hins, hch⟩ := insertIntoTable_changes hbit₁ hdata₁ I ls
      refine ⟨st', ?_, hch.holds, helse.trans hch.elsewhere, hch.capacity.trans hcap₁⟩
      rw [addTuples, if_pos hconvert.1, hbit, getList_of_data hdata]
      simp only [Bool.false_eq_true, if_false, Option.bind_eq_bind, Option.bind_some,
        if_pos hconvert.2, htrans]
      exact hins
    · refine ⟨_, ?_, happend⟩
      rw [addTuples, hbit, getList_of_data hdata]
      by_cases hhash : pred.isHashTable = true
      · have hfew : ¬ mine.length + ls.length ≥ createHashtableThreshold :=
          fun hge => hconvert ⟨hhash, hge⟩
        simp [hhash, hfew]
      · simp [hhash]

/-- **Erasing a tuple of a list.** -/
theorem eraseFromList_changes {ls : List Tuple} (hbit : st.storedAsHashTable pred.linearId = false)
    (hdata : st.data pred.linearId = .list ls) (htuples : (ls : Multiset Tuple) = M) {pos : ℕ}
    {x : Tuple} (hx : ls[pos]? = some x) :
    ∃ st', st.eraseFromList pred.linearId pos = some st' ∧ Changes pred st st' (M - {x}) := by
  obtain ⟨hpos, -⟩ := List.getElem?_eq_some_iff.mp hx
  refine ⟨st.setSlot pred.linearId (.list (ls.eraseIdx pos)), ?_,
    .list (ls.eraseIdx pos) hbit data_setSlot_self ?_, sameElsewhere_setSlot, rfl⟩
  · rw [eraseFromList, getList_of_data hdata]
    simp [hpos]
  · rw [← htuples, eraseIdx_cons_perm hx, Multiset.sub_singleton, Multiset.erase_cons_head]

/-- **Erasing a tuple of a hash table**, when that does not free a table with lists. -/
theorem eraseFromTable_changes {T : HashTable Tuple} {S : Shape}
    (hbit : st.storedAsHashTable pred.linearId = true) (hdata : st.data pred.linearId = .table T)
    (I : HashTable.Inv (getField pred.hashArgument) T S M) {a : Ptr} {l : HashTableList Tuple}
    (hl : T.heap.lists a = some l) {pos : ℕ} {x : Tuple} (hx : l.list[pos]? = some x)
    (hsafe : l.list.length = 1 →
      T.heap.held l.parent % 65536 = 1 → T.heap.held l.parent = 1) :
    ∃ st', st.eraseFromTable pred.linearId a pos = some st' ∧ Changes pred st st' (M - {x}) := by
  obtain ⟨t, ht, -⟩ := (I.rep.lists a l hl).table
  rw [I.rep.held_eq ht] at hsafe
  obtain ⟨T', S', her, I', -, -⟩ := I.erase hl hx hsafe
  refine ⟨st.setSlot pred.linearId (.table T'), ?_, .table T' S' hbit data_setSlot_self ?_,
    sameElsewhere_setSlot, rfl⟩
  · rw [eraseFromTable, getTable_of_data hdata]
    simp [her]
  · rwa [Multiset.sub_singleton]

/-- **One slot of `cleanup_index`** keeps its tuples. -/
theorem cleanupSlot_changes (hcap : pred.linearId < st.types.capacity) (hold : Holds pred st M) :
    ∃ st', st.cleanupSlot pred.linearId = some st' ∧ Changes pred st st' M := by
  have hrefl : Changes pred st st M := ⟨hold, fun j _ => ⟨rfl, rfl⟩, rfl⟩
  cases hold with
  | list ls hbit hdata htuples =>
    refine ⟨st, ?_, hrefl⟩
    rw [cleanupSlot, hbit, if_neg Bool.false_ne_true]
  | table T S hbit hdata I =>
    by_cases hsparse : T.tooSparse = true
    · obtain ⟨st', htrans, hch⟩ := transformHashTableToList_changes hcap I
      refine ⟨st', ?_, hch⟩
      rw [cleanupSlot, hbit, getTable_of_data hdata]
      simp [hsparse, htrans]
    · refine ⟨st, ?_, hrefl⟩
      rw [cleanupSlot, hbit, getTable_of_data hdata]
      simp [hsparse]

end Operations

/-! ## Whole runs -/

section Runs

variable {P : LinearProgram} {st st' : LinearStore} {M : ℕ → Multiset Tuple}

/-- Two predicates with one number are the same. -/
theorem eq_of_linearId {p q : LinearPredicate} (hp : p ∈ P.preds) (hq : q ∈ P.preds)
    (heq : p.linearId = q.linearId) : p = q := by
  obtain ⟨i, hi⟩ := List.mem_iff_getElem?.mp hp
  obtain ⟨j, hj⟩ := List.mem_iff_getElem?.mp hq
  have hij : i = j := (P.linearId_eq i p hi).symm.trans (heq.trans (P.linearId_eq j q hj))
  rw [hij, hj, Option.some.injEq] at hi
  exact hi.symm

theorem storeOk_create (P : LinearProgram) : StoreOk P (create P) fun _ => 0 := by
  refine ⟨?_, ?_⟩
  · intro pred hp
    obtain ⟨i, hi⟩ := List.mem_iff_getElem?.mp hp
    obtain ⟨hlt, -⟩ := List.getElem?_eq_some_iff.mp hi
    have hid := P.linearId_eq i pred hi
    have hbits : bitmapBits = 64 := rfl
    have hsize : 1 ≤ P.preds.length / bitmapBits +
        (if P.preds.length % bitmapBits > 0 then 1 else 0) := by
      rw [hbits]
      split
      · omega
      · omega
    rw [create, Bitmap.capacity_create hsize, hid, hbits]
    split
    · omega
    · omega
  · intro pred _
    exact .list [] (Bitmap.getBit_create _ _) rfl rfl

/-- The store after a change to one predicate. -/
theorem StoreOk.change (ok : StoreOk P st M) {pred : LinearPredicate} (hp : pred ∈ P.preds)
    {N : Multiset Tuple} (hch : Changes pred st st' N) :
    StoreOk P st' (Function.update M pred.linearId N) := by
  refine ⟨fun q hq => hch.capacity ▸ ok.capacity q hq, ?_⟩
  intro q hq
  by_cases heq : q.linearId = pred.linearId
  · obtain rfl := eq_of_linearId hq hp heq
    rw [Function.update_self]
    exact hch.holds
  · rw [Function.update_of_ne heq]
    obtain ⟨hdata, hbit⟩ := hch.elsewhere q.linearId heq
    exact (ok.holds q hq).congr hdata hbit

/-- `cleanup_index` keeps the tuples of every predicate. -/
theorem StoreOk.cleanup (ok : StoreOk P st M) {ids : List ℕ}
    (hids : ∀ i ∈ ids, ∃ pred ∈ P.preds, pred.linearId = i) :
    ∃ st', ids.foldlM cleanupSlot st = some st' ∧ StoreOk P st' M := by
  induction ids generalizing st with
  | nil => exact ⟨st, rfl, ok⟩
  | cons i ids ih =>
    obtain ⟨pred, hp, rfl⟩ := hids i List.mem_cons_self
    obtain ⟨st₁, hslot, hch⟩ := cleanupSlot_changes (ok.capacity pred hp) (ok.holds pred hp)
    have ok₁ := ok.change hp hch
    rw [Function.update_eq_self] at ok₁
    obtain ⟨st', hfold, ok'⟩ := ih ok₁ fun j hj => hids j (List.mem_cons_of_mem _ hj)
    refine ⟨st', ?_, ok'⟩
    rw [List.foldlM_cons, hslot]
    exact hfold

/-- The tuple that an iterator into the list of a predicate points to. -/
theorem Holds.pointed_list {M : Multiset Tuple} (h : Holds pred st M) {pos : ℕ} {x : Tuple}
    (hx : (Op.eraseFromList pred pos).pointed st = some x) :
    ∃ ls : List Tuple, st.storedAsHashTable pred.linearId = false ∧
      st.data pred.linearId = .list ls ∧ (ls : Multiset Tuple) = M ∧ ls[pos]? = some x := by
  cases h with
  | table T S hbit hdata I => simp [Op.pointed, hbit] at hx
  | list ls hbit hdata htuples =>
    simp only [Op.pointed, hbit, Bool.false_eq_true, if_false, getList_of_data hdata,
      Option.bind_some] at hx
    exact ⟨ls, hbit, hdata, htuples, hx⟩

/-- The tuple that an iterator into a bucket list points to. -/
theorem Holds.pointed_table {M : Multiset Tuple} (h : Holds pred st M) {a : Ptr} {pos : ℕ}
    {x : Tuple} (hx : (Op.eraseFromTable pred a pos).pointed st = some x) :
    ∃ T S l, st.storedAsHashTable pred.linearId = true ∧ st.data pred.linearId = .table T ∧
      HashTable.Inv (getField pred.hashArgument) T S M ∧ T.heap.lists a = some l ∧
      l.list[pos]? = some x := by
  cases h with
  | list ls hbit hdata htuples => simp [Op.pointed, hbit] at hx
  | table T S hbit hdata I =>
    simp only [Op.pointed, hbit, if_true, getTable_of_data hdata, Option.bind_some,
      Option.bind_eq_some_iff] at hx
    obtain ⟨l, hl, hxl⟩ := hx
    exact ⟨T, S, l, hbit, hdata, I, hl, hxl⟩

/-- An operation on one predicate, under the condition. -/
theorem StoreOk.changes (ok : StoreOk P st M) {op : Op} (hvalid : op.Valid P st)
    (hsafe : op.Safe st) {pred : LinearPredicate} (hpred : op.predicate? = some pred) :
    ∃ st', op.run P st = some st' ∧ Changes pred st st'
      (M pred.linearId + op.added - (op.pointed st).elim 0 singleton) := by
  have hp := hvalid.1 pred hpred
  have hold := ok.holds pred hp
  have hcap := ok.capacity pred hp
  cases op with
  | addFact tpl q =>
    obtain rfl : q = pred := Option.some.inj hpred
    obtain ⟨st', hadd, hch⟩ := addTuples_changes hcap hold [tpl]
    refine ⟨st', hadd, ?_⟩
    simpa [Op.added, Op.pointed] using hch
  | addFactList ls q | incrementDatabase q ls =>
    obtain rfl : q = pred := Option.some.inj hpred
    obtain ⟨st', hadd, hch⟩ := addTuples_changes hcap hold ls
    refine ⟨st', hadd, ?_⟩
    simpa [Op.added, Op.pointed] using hch
  | eraseFromList q pos =>
    obtain rfl : q = pred := Option.some.inj hpred
    have hpointed := hvalid.2 rfl
    rw [Option.isSome_iff_exists] at hpointed
    obtain ⟨x, hx⟩ := hpointed
    rw [hx]
    obtain ⟨ls, hbit, hdata, htuples, hx⟩ := hold.pointed_list hx
    obtain ⟨st', her, hch⟩ := eraseFromList_changes hbit hdata htuples hx
    refine ⟨st', her, ?_⟩
    simpa [Op.added] using hch
  | eraseFromTable q a pos =>
    obtain rfl : q = pred := Option.some.inj hpred
    have hpointed := hvalid.2 rfl
    rw [Option.isSome_iff_exists] at hpointed
    obtain ⟨x, hx⟩ := hpointed
    rw [hx]
    obtain ⟨T, S, l, hbit, hdata, I, hl, hxl⟩ := hold.pointed_table hx
    obtain ⟨st', her, hch⟩ := eraseFromTable_changes hbit hdata I hl hxl
      (hsafe T l (getTable_of_data hdata) hl)
    refine ⟨st', her, ?_⟩
    simpa [Op.added] using hch
  | cleanupIndex => cases hpred

/-- **One operation** succeeds and accounts for its tuples, under the condition. -/
theorem StoreOk.step (ok : StoreOk P st M) {op : Op} (hvalid : op.Valid P st)
    (hsafe : op.Safe st) : ∃ st', op.run P st = some st' ∧ StoreOk P st' (op.account st M) := by
  cases hpred : op.predicate? with
  | some pred =>
    obtain ⟨st', hrun, hch⟩ := ok.changes hvalid hsafe hpred
    refine ⟨st', hrun, ?_⟩
    rw [Op.account, hpred]
    exact ok.change (hvalid.1 pred hpred) hch
  | none =>
    cases op with
    | cleanupIndex =>
      refine ok.cleanup ?_
      intro i hi
      have hlt : i < P.preds.length := List.mem_range.mp hi
      exact ⟨P.preds[i], List.getElem_mem hlt, P.linearId_eq i _ (List.getElem?_eq_getElem hlt)⟩
    | addFact tpl q => cases hpred
    | addFactList ls q => cases hpred
    | incrementDatabase q ls => cases hpred
    | eraseFromList q pos => cases hpred
    | eraseFromTable q a pos => cases hpred

/-- The invariant along a run. -/
theorem reach_storeOk (hr : Reach P (fun st op => op.Safe st) st M) : StoreOk P st M := by
  induction hr with
  | create => exact storeOk_create P
  | step hr hvalid hok hrun ih =>
    obtain ⟨st₁, hrun₁, ok⟩ := ih.step hvalid hok
    rw [hrun, Option.some.injEq] at hrun₁
    exact hrun₁ ▸ ok

/-- An operation that is on one predicate leaves the slots of the others alone, whatever it does to
its own. -/
theorem StoreOk.elsewhere (ok : StoreOk P st M) {op : Op} (hvalid : op.Valid P st)
    (hrun : op.run P st = some st') {pred : LinearPredicate} (hpred : op.predicate? = some pred) :
    SameElsewhere pred.linearId st st' := by
  have hsafe : op.isErase = false → SameElsewhere pred.linearId st st' := by
    intro herase
    have hs : op.Safe st := by
      cases op with
      | eraseFromTable q a pos => cases herase
      | _ => trivial
    obtain ⟨st₁, hrun₁, hch⟩ := ok.changes hvalid hs hpred
    rw [hrun, Option.some.injEq] at hrun₁
    exact hrun₁ ▸ hch.elsewhere
  cases op with
  | eraseFromList q pos =>
    obtain rfl : q = pred := Option.some.inj hpred
    simp only [Op.run, eraseFromList, Option.bind_eq_bind, Option.bind_eq_some_iff] at hrun
    obtain ⟨ls, -, hrun⟩ := hrun
    split at hrun
    · rw [← Option.some.inj hrun]
      exact sameElsewhere_setSlot
    · cases hrun
  | eraseFromTable q a pos =>
    obtain rfl : q = pred := Option.some.inj hpred
    simp only [Op.run, eraseFromTable, Option.bind_eq_bind, Option.bind_eq_some_iff] at hrun
    obtain ⟨T, -, T', -, hrun⟩ := hrun
    rw [← Option.some.inj hrun]
    exact sameElsewhere_setSlot
  | _ => exact hsafe rfl

/-- The promises follow from the invariant. -/
theorem StoreOk.faithful (ok : StoreOk P st M) : Faithful P st M := by
  constructor
  case contents =>
    intro pred hp
    cases ok.holds pred hp with
    | list ls hbit hdata htuples =>
      refine ⟨ls, ?_, htuples⟩
      rw [contents, hbit, getList_of_data hdata]
      rfl
    | table T S hbit hdata I =>
      obtain ⟨ls, hlisted, htuples⟩ := I.listed
      refine ⟨ls, ?_, htuples⟩
      rw [contents, hbit, getTable_of_data hdata, if_pos rfl, Option.bind_some, hlisted]
  case empty =>
    intro pred hp
    cases ok.holds pred hp with
    | list ls hbit hdata htuples =>
      rw [empty, hbit, getList_of_data hdata, ← htuples]
      cases ls <;> simp
    | table T S hbit hdata I =>
      rw [empty, hbit, getTable_of_data hdata, if_pos rfl, Option.map_some, I.elems]
      simp [Bool.beq_eq_decide_eq]
  case countTotal =>
    intro pred hp
    cases ok.holds pred hp with
    | list ls hbit hdata htuples =>
      rw [countTotal, hbit, getList_of_data hdata, ← htuples]
      rfl
    | table T S hbit hdata I =>
      rw [countTotal, hbit, getTable_of_data hdata, if_pos rfl, Option.map_some, I.elems]
  case elsewhere => exact fun op st' hvalid hrun pred hpred => ok.elsewhere hvalid hrun hpred

/-- **No operation loses or duplicates a tuple** in a run that frees no sub-table with lists: the
store holds the tuples added less the tuples erased, `empty` and `count_total` agree with them, and
the next operation, under the same condition, does not fail. -/
theorem reach_faithful (hr : Reach P (fun st op => op.Safe st) st M) :
    Faithful P st M ∧
      ∀ op : Op, op.Valid P st → op.Safe st → ∃ st', op.run P st = some st' := by
  have ok := reach_storeOk hr
  refine ⟨ok.faithful, ?_⟩
  intro op hvalid hsafe
  obtain ⟨st', hrun, -⟩ := ok.step hvalid hsafe
  exact ⟨st', hrun⟩

end Runs

/-- A program with one linear predicate, stored by its first field. -/
def oneProgram : LinearProgram where
  preds := [⟨0, true, 0⟩]
  linearId_eq := by
    intro i p hp
    cases i with
    | zero => exact (Option.some.inj hp) ▸ rfl
    | succ i => cases hp

theorem reach_addFactList (ls : List Tuple) (ok : LinearStore → Op → Prop)
    (hok : ∀ st, ok st (.addFactList ls ⟨0, true, 0⟩)) :
    ∃ st, Reach oneProgram ok st (Function.update (fun _ => 0) 0 (ls : Multiset Tuple)) ∧
      (create oneProgram).addTuples ⟨0, true, 0⟩ ls = some st ∧
      StoreOk oneProgram st (Function.update (fun _ => 0) 0 (ls : Multiset Tuple)) := by
  have hvalid : (Op.addFactList ls ⟨0, true, 0⟩).Valid oneProgram (create oneProgram) := by
    refine ⟨?_, fun herase => absurd herase Bool.false_ne_true⟩
    intro pred hpred
    rw [← Option.some.inj hpred]
    exact List.mem_singleton_self _
  obtain ⟨st, hrun, hok'⟩ := (storeOk_create oneProgram).step hvalid trivial
  have haccount : (Op.addFactList ls ⟨0, true, 0⟩).account (create oneProgram) (fun _ => 0) =
      Function.update (fun _ => 0) 0 (ls : Multiset Tuple) := by
    simp [Op.account, Op.predicate?, Op.added, Op.pointed]
  rw [haccount] at hok'
  exact ⟨st, haccount ▸ Reach.step Reach.create hvalid (hok _) hrun, hrun, hok'⟩

/-- The run that adds ten tuples: the store keeps them in a hash table. -/
theorem addTen_faithful : ∃ st,
    Reach oneProgram (fun st op => op.Safe st) st
      (Function.update (fun _ => 0) 0 (Multiset.replicate 10 [.int 7])) ∧
    Faithful oneProgram st (Function.update (fun _ => 0) 0 (Multiset.replicate 10 [.int 7])) := by
  obtain ⟨st, hr, -, -⟩ := reach_addFactList (List.replicate 10 [.int 7])
    (fun st op => op.Safe st) fun _ => trivial
  rw [Multiset.coe_replicate] at hr
  exact ⟨st, hr, (reach_faithful hr).1⟩

end LinearStore

/-! ## A run that loses tuples -/

namespace Hash

variable {α : Type} {key : α → Value} {h₀ h : Heap α} {root e : Ptr} {S : Shape}

/-- What the tables of `h` are when some of those of `h₀` were freed: the slots of the tables that
are left are as they were, or null. -/
def Pruned (h₀ h : Heap α) : Prop :=
  ∀ q t', h.tables q = some t' → ∃ t, h₀.tables q = some t ∧ t'.bitmap.capacity = 64 ∧
    t'.parent = t.parent ∧ t'.get lastSlot = t.get lastSlot ∧
    ∀ i, t'.get i = 0 ∨ (t'.get i = t.get i ∧ t'.isSubhash i = t.isSubhash i)

/-- Freeing one more table. -/
theorem Pruned.cut (hpr : Pruned h₀ h) {p : Ptr} {t q : SubhashTable}
    (hq : h.tables t.parent = some q) (hlt : t.get lastSlot < prime) :
    Pruned h₀ (cut h p t q) := by
  intro r u hu
  by_cases hrp : r = p
  · subst hrp
    simp [Hash.cut] at hu
  · by_cases hrq : r = t.parent
    · subst hrq
      simp only [Hash.cut, Function.update_of_ne hrp, Function.update_self,
        Option.some.injEq] at hu
      subst hu
      obtain ⟨q₀, hq₀, hcap, hparent, hlast, hslots⟩ := hpr _ q hq
      have hlastSlot : lastSlot ≠ t.get lastSlot :=
        Nat.ne_of_gt (lt_trans hlt (by decide))
      refine ⟨q₀, hq₀, ?_, hparent, ?_, ?_⟩
      · rw [cutTable, Bitmap.capacity_unsetBit]
        exact hcap
      · rw [cutTable_get_of_ne q _ hlastSlot]
        exact hlast
      · intro i
        by_cases hi : i = t.get lastSlot
        · rw [hi]
          exact Or.inl (cutTable_get_self q _)
        · rw [cutTable_get_of_ne q _ hi, cutTable_isSubhash q _ hcap hlt]
          simpa [Ne.symm hi] using hslots i
    · simp only [Hash.cut, Function.update_of_ne hrp, Function.update_of_ne hrq] at hu
      exact hpr r u hu

/-- The upward walk from a table whose counters are zero frees that table, whatever it holds. -/
theorem checkEmptyTable_pruned (R : Rep key h₀ root S e) {fuel : ℕ} {p : Ptr} (hpr : Pruned h₀ h)
    (hkeep : ∀ q t, h₀.tables q = some t → (S.path q).length ≤ (S.path p).length →
      ∃ t', h.tables q = some t')
    {t₀ : SubhashTable} (ht₀ : h₀.tables p = some t₀) (hfuel : (S.path p).length < fuel) :
    ∃ h', h.checkEmptyTable fuel p = some h' ∧ Pruned h₀ h' ∧
      (∀ q, h.tables q = none → h'.tables q = none) ∧
      ∀ t, h.tables p = some t → t.uniqueLists = 0 → t.uniqueSubs = 0 → p ≠ root →
        h'.tables p = none := by
  induction fuel generalizing h p t₀ with
  | zero => exact absurd hfuel (Nat.not_lt_zero _)
  | succ fuel ih =>
    obtain ⟨t, ht⟩ := hkeep p t₀ ht₀ le_rfl
    obtain ⟨t₁, ht₁, -, hparent, hlast, -⟩ := hpr p t ht
    rw [ht₀, Option.some.injEq] at ht₁
    subst ht₁
    by_cases hcond : t.uniqueLists = 0 ∧ t.uniqueSubs = 0 ∧ t.parent ≠ 0
    · have hroot : p ≠ root := by
        rintro rfl
        obtain ⟨r, hr, hr0⟩ := R.root_table
        rw [ht₀, Option.some.injEq] at hr
        exact hcond.2.2 (hparent.trans (hr ▸ hr0))
      obtain ⟨hlt, q₀, hq₀, -⟩ := R.parent p t₀ ht₀ hroot
      have hpath := congrArg List.length (R.path_parent ht₀ hroot)
      rw [List.length_append, List.length_singleton] at hpath
      rw [← hparent] at hq₀ hpath
      rw [← hlast] at hlt
      obtain ⟨q, hq⟩ := hkeep t.parent q₀ hq₀ (by omega)
      have hpr' : Pruned h₀ (cut h p t q) := hpr.cut hq hlt
      have hkeep' : ∀ r u, h₀.tables r = some u → (S.path r).length ≤ (S.path t.parent).length →
          ∃ u', (cut h p t q).tables r = some u' := by
        intro r u hu hlen
        have hrp : r ≠ p := by
          rintro rfl
          omega
        by_cases hrq : r = t.parent
        · subst hrq
          refine ⟨cutTable q (t.get lastSlot), ?_⟩
          simp only [cut, Function.update_of_ne hrp, Function.update_self]
        · obtain ⟨u', hu'⟩ := hkeep r u hu (by omega)
          exact ⟨u', by simpa [cut, hrp, hrq] using hu'⟩
      obtain ⟨h', hcheck, hpr'', hnone, -⟩ := ih hpr' hkeep' hq₀ (by omega)
      have hp : (cut h p t q).tables p = none := Function.update_self ..
      refine ⟨h', by rw [checkEmptyTable_free ht hq hcond, hcheck], hpr'', ?_,
        fun _ _ _ _ _ => hnone p hp⟩
      intro r hr
      refine hnone r ?_
      by_cases hrp : r = p
      · rw [hrp]
        exact hp
      · have hrq : r ≠ t.parent := by
          rintro rfl
          rw [hq] at hr
          cases hr
        simpa [cut, hrp, hrq] using hr
    · refine ⟨h, checkEmptyTable_stop ht hcond, hpr, fun _ hq => hq, ?_⟩
      intro u hu hlists hsubs hroot
      rw [ht, Option.some.injEq] at hu
      subst hu
      obtain ⟨-, q₀, hq₀, -⟩ := R.parent p t₀ ht₀ hroot
      exact absurd ⟨hlists, hsubs, hparent ▸ R.ne_zero_of_table hq₀⟩ hcond

/-- The iterator finds no list when the tables that are left had none. -/
theorem findLoop_pruned (R : Rep key h₀ root S e) (hpr : Pruned h₀ h)
    (hnone : ∀ q t, h.tables q = some t → S.held q = 0) {fuel : ℕ} {frames : List Frame}
    {it : Iterator} (hfind : h.findLoop fuel frames = some it) : it.frames = [] := by
  induction fuel generalizing frames with
  | zero => cases hfind
  | succ fuel ih =>
    cases frames with
    | nil => rw [← Option.some.inj hfind]
    | cons f fs =>
      rw [Heap.findLoop] at hfind
      split at hfind
      · rename_i hpos
        simp only [Option.bind_eq_bind, Option.bind_eq_some_iff] at hfind
        obtain ⟨t, ht, hfind⟩ := hfind
        split at hfind
        · split at hfind
          · exact ih hfind
          · cases hfind
        · rename_i hb
          split at hfind
          · rename_i hget
            -- a slot that is not null is as it was, so its chain was not empty
            obtain ⟨t₀, ht₀, -, -, -, hslots⟩ := hpr f.sub t ht
            obtain ⟨hsame, hbit⟩ := (hslots f.pos).resolve_left hget
            have hb₀ : t₀.isSubhash f.pos = false := by
              rw [← hbit]
              simpa using hb
            obtain ⟨hhead, -⟩ := ((R.tables _ t₀ ht₀).slot _ hpos).chain hb₀
            rw [Shape.held_eq_zero (hnone _ t ht) hpos] at hhead
            exact absurd (hsame.trans hhead) hget
          · exact ih hfind
      · exact ih hfind

end Hash

namespace HashTable

variable {α : Type} {key : α → Value}

/-- **A removal that loses tuples.**  The table of the list holds all the lists there are and is
taken for empty: an iteration meets no tuple any more. -/
theorem Inv.erase_lost {T : HashTable α} {S : Shape} {M : Multiset α} (I : Inv key T S M) {a : Ptr}
    {l : HashTableList α} (hl : T.heap.lists a = some l) (hlen : l.list.length = 1)
    (hheld : S.held l.parent % 65536 = 1) (hmany : S.held l.parent ≠ 1)
    (hall : ∀ b m, T.heap.lists b = some m → m.parent = l.parent) :
    ∃ T', T.eraseFromList a 0 = some T' ∧ (T'.listed = none ∨ T'.listed = some []) := by
  have R := I.rep
  obtain ⟨xs, ys, t, ht, hb, hsplit, hprev, hnext, hxs, hys⟩ := R.neighbours hl
  have R' := removeList_rep R hl ht hb hsplit hprev hnext hxs hys
  have hi := (R.lists a l hl).idx_lt
  have hsum := S.held_setChain l.parent hi (xs ++ ys)
  rw [hsplit, List.length_append, List.length_append, List.length_cons] at hsum
  obtain ⟨x, hx⟩ := List.length_eq_one_iff.mp hlen
  have hremove := removeList_emptied R hl ht hsplit hprev hnext
  obtain ⟨h₁, hh₁⟩ : ∃ h₁, h₁ = removed T.heap l.parent a l t := ⟨_, rfl⟩
  obtain ⟨S₁, hS₁⟩ : ∃ S₁, S₁ = S.setChain l.parent l.idx (xs ++ ys) := ⟨_, rfl⟩
  rw [← hh₁] at R' hremove
  rw [← hS₁] at R' hsum
  obtain ⟨t₁, ht₁⟩ : ∃ t₁, h₁.tables l.parent = some t₁ := by
    rw [hh₁]
    exact ⟨_, Function.update_self ..⟩
  have ok := R'.tables _ t₁ ht₁
  have hpruned : Pruned h₁ h₁ := fun q u hu =>
    ⟨u, hu, (R'.tables q u hu).capacity, rfl, rfl, fun i => Or.inr ⟨rfl, rfl⟩⟩
  obtain ⟨h', hcheck, hpr, -, hfreed⟩ := checkEmptyTable_pruned R' (p := l.parent) hpruned
    (fun q u hu _ => ⟨u, hu⟩) ht₁ ok.depth
  -- only a table of the last level has so many lists, and it has no sub-tables
  have hdepth : (S.path l.parent).length + 1 = maxLevels := by
    have hlt := (R.tables _ t ht).depth
    by_contra hne
    have hfew := I.short.held_lt (p := l.parent) (by omega)
    omega
  have hpath : S₁.path = S.path := by rw [hS₁, Shape.path_setChain]
  have hlists : t₁.uniqueLists = 0 := by
    rw [ok.uniqueLists, ofNat_eq_zero_iff]
    omega
  have hsubs : t₁.uniqueSubs = 0 := by
    have hnone : subs t₁ = 0 := by
      rw [subs, Finset.card_eq_zero, Finset.filter_eq_empty_iff]
      intro i hir hbi
      obtain ⟨-, s, hs, -, -, hps⟩ := (ok.slot i (Finset.mem_range.mp hir)).sub hbi
      have hds := (R'.tables _ s hs).depth
      rw [hps, List.length_append, List.length_singleton, hpath] at hds
      omega
    rw [ok.uniqueSubs, hnone]
    rfl
  have hroot : l.parent ≠ T.sh := by
    intro heq
    rw [heq, R.path_root] at hdepth
    cases hdepth
  have hnone := hfreed t₁ ht₁ hlists hsubs hroot
  have hempty : ∀ q u, h'.tables q = some u → S₁.held q = 0 := by
    intro q u hu
    have hq : q ≠ l.parent := by
      rintro rfl
      rw [hnone] at hu
      cases hu
    obtain ⟨u₀, hu₀, -⟩ := hpr q u hu
    have hsame : h₁.tables q = T.heap.tables q := by
      rw [hh₁]
      exact Function.update_of_ne hq ..
    have hu₀' : T.heap.tables q = some u₀ := hsame.symm.trans hu₀
    rw [hS₁, S.held_setChain_of_ne _ _ hq, Shape.held, Finset.sum_eq_zero_iff]
    intro i hir
    rw [List.length_eq_zero_iff, List.eq_nil_iff_forall_not_mem]
    intro b hbm
    obtain ⟨m, hm, hmq, -⟩ := ((R.tables _ u₀ hu₀').slot i (Finset.mem_range.mp hir)).own b hbm
    exact hq (hmq.symm.trans (hall b m hm))
  refine ⟨{ T with elems := T.elems - 1, heap := h' }, ?_, ?_⟩
  · have hidx : l.list.eraseIdx 0 = [] := by rw [hx]; rfl
    have hwith : withTuples T.heap a l [] =
        { T.heap with lists := Function.update T.heap.lists a (some { l with list := [] }) } := rfl
    rw [hwith] at hremove
    simp only [HashTable.eraseFromList, Heap.eraseFromList, Heap.writeList, hl, hidx,
      Option.bind_eq_bind, Option.bind_some, Option.map_some, List.isEmpty_nil, if_true, hremove,
      hcheck]
  · rw [HashTable.listed]
    cases hbegin : Iterator.begin h' T.sh with
    | none => exact Or.inl rfl
    | some it =>
      have hframes : it.frames = [] := by
        simp only [Iterator.begin, Heap.findGoodBucket, ne_eq, not_true_eq_false, if_false,
          Bool.false_eq_true] at hbegin
        exact findLoop_pruned R' hpr hempty hbegin
      refine Or.inr ?_
      have hend : it.atEnd = true := by rw [Iterator.atEnd, hframes]; rfl
      show gather h' (h'.fresh + 1) it [] = some []
      rw [gather, if_pos hend]

end HashTable

namespace LinearStore

/-- A list that reaches the threshold becomes a hash table. -/
theorem storedAsHashTable_addTuples {st st' : LinearStore} {pred : LinearPredicate}
    {ls : List Tuple} (hcap : pred.linearId < st.types.capacity) (hhash : pred.isHashTable = true)
    (hlen : createHashtableThreshold ≤ ls.length) (hadd : st.addTuples pred ls = some st') :
    st'.storedAsHashTable pred.linearId = true := by
  have htable : ∀ st₁ : LinearStore, st₁.storedAsHashTable pred.linearId = true →
      st₁.insertIntoTable pred ls = some st' → st'.storedAsHashTable pred.linearId = true := by
    intro st₁ hbit hins
    simp only [insertIntoTable, Option.bind_eq_bind, Option.bind_eq_some_iff] at hins
    obtain ⟨T, -, T', -, hins⟩ := hins
    rw [← Option.some.inj hins]
    exact hbit
  rw [addTuples, if_pos hhash] at hadd
  split at hadd
  · rename_i hbit
    exact htable st hbit hadd
  · simp only [Option.bind_eq_bind, Option.bind_eq_some_iff] at hadd
    obtain ⟨mine, -, hadd⟩ := hadd
    rw [if_pos (by omega)] at hadd
    obtain ⟨st₁, htrans, hadd⟩ := Option.bind_eq_some_iff.mp hadd
    obtain ⟨st₂, T, S, htrans₂, hbit, -⟩ := transformListToHashTable_changes hcap mine
    rw [htrans, Option.some.injEq] at htrans₂
    exact htable st₁ (htrans₂ ▸ hbit) hadd

/-- **A removal loses tuples**: not every run is faithful.  The integers of a crowd, added
at once, fill one sub-table with 65537 lists; when one of them is erased, the counter of the
sub-table is `0` and it is freed with all the others. -/
theorem not_forall_faithful :
    ¬ ∀ (P : LinearProgram) (st : LinearStore) (M : ℕ → Multiset Tuple),
      Reach P (fun _ _ => True) st M → Faithful P st M := by
  intro hfaithful
  obtain ⟨way, ks, hnodup, hlen, hway⟩ := HashTable.exists_crowd (n := 65537) (by decide)
  obtain ⟨xs, hxs⟩ : ∃ xs : List Tuple, xs = ks.map fun k => [Value.int k] := ⟨_, rfl⟩
  have hxslen : xs.length = 65537 := by rw [hxs, List.length_map, hlen]
  obtain ⟨st, hr, hadd, ok⟩ := reach_addFactList xs (fun _ _ => True) fun _ => trivial
  have hmem : (⟨0, true, 0⟩ : LinearPredicate) ∈ oneProgram.preds := List.mem_singleton_self _
  have hthreshold : createHashtableThreshold = 8 := rfl
  have hbit := storedAsHashTable_addTuples ((storeOk_create oneProgram).capacity _ hmem) rfl
    (by omega) hadd
  cases ok.holds _ hmem with
  | list ls hbit' hdata htuples =>
    rw [hbit] at hbit'
    cases hbit'
  | table T S _ hdata I =>
    rw [Function.update_self] at I
    have I' : HashTable.Inv (getField 0) T S (HashTable.intTuples ks) := by
      rw [HashTable.intTuples, ← hxs]
      exact I
    obtain ⟨p, t, ht, hheld, hone⟩ := I'.crowd hnodup (by rw [hlen]; decide) hway
    obtain ⟨x, hx⟩ : ∃ x, x ∈ T.heap.stored := by
      refine Multiset.card_pos_iff_exists_mem.mp ?_
      rw [I.stored, Multiset.coe_card, hxslen]
      decide
    obtain ⟨a, l, hl, hxl⟩ := I.rep.mem_stored.mp hx
    obtain ⟨hlp, hlone⟩ := hone a l hl
    rw [← hlp, hlen] at hheld
    obtain ⟨T', her, hlisted⟩ := I.erase_lost hl hlone (by rw [hheld]) (by rw [hheld]; decide)
      fun b m hm => (hone b m hm).1.trans hlp.symm
    obtain ⟨y, hy⟩ := List.length_eq_one_iff.mp hlone
    have hpointed : (Op.eraseFromTable ⟨0, true, 0⟩ a 0).pointed st = some y := by
      simp [Op.pointed, hbit, getTable_of_data hdata, hl, hy]
    have hvalid : (Op.eraseFromTable ⟨0, true, 0⟩ a 0).Valid oneProgram st := by
      refine ⟨?_, fun _ => by rw [hpointed]; rfl⟩
      intro pred hpred
      rw [← Option.some.inj hpred]
      exact hmem
    have hrun : (Op.eraseFromTable ⟨0, true, 0⟩ a 0).run oneProgram st =
        some (st.setSlot 0 (.table T')) := by
      show st.eraseFromTable 0 a 0 = _
      rw [eraseFromTable, getTable_of_data hdata]
      simp [her]
    have hr' := Reach.step hr hvalid trivial hrun
    obtain ⟨ls, hcontents, hls⟩ := (hfaithful _ _ _ hr').contents _ hmem
    have hbit' : (st.setSlot 0 (.table T')).storedAsHashTable 0 = true := hbit
    rw [contents, hbit', if_pos rfl, getTable_of_data data_setSlot_self,
      Option.bind_some] at hcontents
    have hcard : ((Op.eraseFromTable ⟨0, true, 0⟩ a 0).account st
        (Function.update (fun _ => 0) 0 (xs : Multiset Tuple)) 0).card ≠ 0 := by
      simp only [Op.account, Op.predicate?, Op.added, hpointed, Option.elim_some,
        Function.update_self, add_zero, Multiset.sub_singleton]
      have hstored : y ∈ (xs : Multiset Tuple) := by
        rw [← I.stored, I.rep.mem_stored]
        exact ⟨a, l, hl, by rw [hy]; exact List.mem_singleton_self y⟩
      have hcard := Multiset.card_erase_add_one hstored
      rw [Multiset.coe_card, hxslen] at hcard
      omega
    rw [← hls] at hcard
    rcases hlisted with hlisted | hlisted
    · rw [hlisted] at hcontents
      cases hcontents
    · rw [hlisted, Option.some.injEq] at hcontents
      subst hcontents
      exact hcard rfl

end LinearStore

end Meld
