import Meld.Db.LinearStore

/-!
# A hash table in memory that held something else

The allocator of a node hands out blocks without clearing them.  `hash_table` constructs its bucket
lists, and of a table it writes every field in `setup` but one: the bitmap that tells which slots
hold tables.  A new table takes its bitmap from the block.

So the table is modelled again, now with the contents of the blocks (`Memory`) as a parameter.  A
table is `masked` when the bits of its bitmap that belong to no slot are cleared.  If the blocks
have none of the other bits set (`Memory.Clean`), then masking turns a run in this memory into a run
in blank memory, operation by operation, and the answers are the same.  If a block has such a bit,
some run meets it: the table takes a null pointer for a sub-table.

* `Memory`, `setupIn`, `splitIn`, `insertIn`: the operations that allocate.
* `TableOp`, `observe`: a sequence of operations and its answers.
* `clean_iff`: the answers do not depend on the memory exactly if it is clean.
* `not_forall_observe_eq`: they do depend on it.
-/

namespace Meld

open Hash

/-! ## The contents of the blocks -/

/-- What the blocks hold that the allocator hands out, the first, the second and so on: their bytes
read as a `subhash_table` and as a `hash_table_list`.  The bitmap of a table is one word. -/
structure Memory (α : Type) where
  tables : ℕ → SubhashTable
  lists : ℕ → HashTableList α
  one_word : ∀ k, (tables k).bitmap.rest = []

namespace Memory

variable {α : Type}

/-- Memory that is all zeros. -/
def blank : Memory α where
  tables := fun _ => ⟨fun _ => 0, ⟨0, []⟩, 0, 0, 0⟩
  lists := fun _ => ⟨[], .nil, 0, 0, 0, 0⟩
  one_word := fun _ => rfl

/-- No block that may become a table has a bit set where the bitmap of a table has the bit of a
slot. -/
def Clean (mem : Memory α) : Prop :=
  ∀ k, ∀ i < prime, (mem.tables k).isSubhash i = false

theorem clean_blank : (blank : Memory α).Clean := by
  intro k i _
  exact Bitmap.getBit_create 1 i

end Memory

namespace Hash

/-- `subhash_table::setup`, on the contents of a block. -/
def SubhashTable.setupIn (t : SubhashTable) (parent : Ptr) : SubhashTable :=
  { t with table := fun _ => 0, parent := parent, uniqueLists := 0, uniqueSubs := 0 }

/-- `construct`, on the contents of a block: the members with an initialiser. -/
def HashTableList.construct {α : Type} (l : HashTableList α) : HashTableList α :=
  { l with list := [], prev := 0, next := 0 }

variable {α : Type}

namespace Heap

/-- The number of blocks handed out so far. -/
def handedOut (h : Heap α) : ℕ := h.fresh - 1

/-- The part of `insert` that allocates a list for a new key. -/
def newListIn (mem : Memory α) (h : Heap α) (p : Ptr) (idx : ℕ) (last : Ptr) (v : Value)
    (item : α) : Option (Heap α) := do
  let newls := h.fresh
  let l := (mem.lists h.handedOut).construct
  let l := { l with prev := last }
  let l := { l with idx := idx, value := v, next := 0 }
  let l := { l with list := l.list ++ [item] }
  let l := { l with parent := p }
  let h := h.allocList l
  let h ←
    if last ≠ 0 then h.writeList last fun l => { l with next := newls }
    else h.writeTable p fun t => t.set idx newls
  h.writeTable p fun t => { t with uniqueLists := t.uniqueLists + 1 }

/-- The part of `insert` that replaces a crowded chain by a sub-table. -/
def splitIn (mem : Memory α) (h : Heap α) (p : Ptr) (idx level : ℕ) : Option (Heap α) := do
  let sub := h.fresh
  let h := h.allocTable ((mem.tables h.handedOut).setupIn p)
  let t ← h.tables p
  let (h, total) ← moveBuckets sub level h.fresh h (t.get idx) 0
  let h ← h.writeTable sub fun s => { s with uniqueLists := UInt16.ofNat total }
  let h ← h.writeTable p fun t =>
    { t with uniqueLists := t.uniqueLists - UInt16.ofNat total, uniqueSubs := t.uniqueSubs + 1 }
  h.setSubhash p idx sub

/-- `subhash_table::insert` once the slot is known to hold a chain. -/
def insertBucketIn (mem : Memory α) (h : Heap α) (p : Ptr) (idx level : ℕ) (v : Value)
    (item : α) : Option (Heap α × ℕ) := do
  let t ← h.tables p
  let (bucket, last, count) ← findBucket h v h.fresh (t.get idx) 0 0
  if bucket ≠ 0 then
    let l ← h.lists bucket
    let h ← h.writeList bucket fun l => { l with list := l.list ++ [item] }
    some (h, l.list.length + 1)
  else
    let h ← newListIn mem h p idx last v item
    if count + 1 ≥ createHashtableThreshold ∧ level + 1 < maxLevels then
      let h ← splitIn mem h p idx level
      some (h, 1)
    else some (h, 1)

/-- `subhash_table::insert`. -/
def insertIn (mem : Memory α) (v : Value) (item : α) :
    ℕ → Heap α → Ptr → ℕ → ℕ → Option (Heap α × ℕ)
  | 0, _, _, _, _ => none
  | fuel + 1, h, p, id, level => do
    let t ← h.tables p
    let idx := modHash (id &&& subhashMask)
    if t.isSubhash idx then
      insertIn mem v item fuel h (t.get idx) (id >>> subhashShift) (level + 1)
    else insertBucketIn mem h p idx level v item

end Heap

end Hash

namespace HashTable

variable {α : Type}

/-- `setup`: the root comes from the allocator that the node goes on using. -/
def setupIn (mem : Memory α) (T : HashTable α) : HashTable α :=
  ⟨T.heap.fresh, 0, T.heap.allocTable ((mem.tables T.heap.handedOut).setupIn 0)⟩

/-- `hash_table::insert`. -/
def insertIn (mem : Memory α) (key : α → Value) (T : HashTable α) (item : α) :
    Option (HashTable α × Bool) := do
  let id := hashField (key item)
  let (h, size) ← Heap.insertIn mem (key item) item maxLevels T.heap T.sh id 0
  some ({ T with elems := T.elems + 1, heap := h }, size == 1)

end HashTable

/-- The operations of a hash table. -/
inductive TableOp (α : Type) where
  | setup
  | insert (item : α)
  | lookupList (v : Value)
  | iterate
  | eraseFromList (ls : Ptr) (pos : ℕ)

/-- What an operation returns: whether the list of a new tuple has size one, the list that was found
with its tuples, or the tuples that an iteration meets. -/
inductive TableAnswer (α : Type) where
  | done
  | inserted (single : Bool)
  | found (ls : Ptr) (tuples : Option (List α))
  | iterated (tuples : List α)

namespace TableOp

variable {α : Type}

/-- One operation. -/
def run (mem : Memory α) (key : α → Value) (T : HashTable α) :
    TableOp α → Option (HashTable α × TableAnswer α)
  | setup => some (T.setupIn mem, .done)
  | insert item => (T.insertIn mem key item).map fun r => (r.1, .inserted r.2)
  | lookupList v =>
    (T.lookupList v).map fun a => (T, .found a ((T.heap.lists a).map fun l => l.list))
  | iterate => T.listed.map fun ls => (T, .iterated ls)
  | eraseFromList ls pos => (T.eraseFromList ls pos).map fun T => (T, .done)

end TableOp

/-- Before the first `setup` there is no table. -/
def HashTable.unset {α : Type} : HashTable α := ⟨0, 0, ⟨fun _ => none, fun _ => none, 1⟩⟩

/-- The answers of a sequence of operations; `none` if one of them goes wrong. -/
def HashTable.answers {α : Type} (mem : Memory α) (key : α → Value) :
    HashTable α → List (TableOp α) → Option (List (TableAnswer α))
  | _, [] => some []
  | T, op :: ops => do
    let (T, a) ← op.run mem key T
    let as ← answers mem key T ops
    some (a :: as)

/-- The answers of a sequence of operations that starts without a table. -/
def HashTable.observe {α : Type} (mem : Memory α) (key : α → Value) (ops : List (TableOp α)) :
    Option (List (TableAnswer α)) :=
  HashTable.unset.answers mem key ops

/-! ## Masking -/

/-- The bits of the slots. -/
def slotBits : BitmapWord := BitVec.ofNat 64 (2 ^ prime - 1)

theorem getLsbD_slotBits {i : ℕ} (hi : i < 64) : slotBits.getLsbD i = decide (i < prime) := by
  revert i
  decide

/-- The bitmap without the bits that belong to no slot. -/
def Bitmap.masked (b : Bitmap) : Bitmap := { b with first := b.first &&& slotBits }

namespace Bitmap

theorem getArray_of_lt {b : Bitmap} {i : ℕ} (hi : i < prime) : b.getArray i = b.first := by
  have h0 : i / bitmapBits = 0 := Nat.div_eq_of_lt (lt_trans hi (by decide))
  rw [getArray, if_pos h0]

theorem getBit_masked (b : Bitmap) {i : ℕ} (hi : i < prime) : b.masked.getBit i = b.getBit i := by
  have hmod : i % bitmapBits = i := Nat.mod_eq_of_lt (lt_trans hi (by decide))
  have h64 : i < 64 := lt_trans hi (by decide)
  rw [getBit, getBit, getArray_of_lt hi, getArray_of_lt hi, hmod, masked, BitVec.getLsbD_and,
    getLsbD_slotBits h64]
  simp [hi]

theorem setBit_masked (b : Bitmap) {i : ℕ} (hi : i < prime) :
    (b.setBit i).masked = b.masked.setBit i := by
  have h0 : i / bitmapBits = 0 := Nat.div_eq_of_lt (lt_trans hi (by decide))
  have hmod : i % bitmapBits = i := Nat.mod_eq_of_lt (lt_trans hi (by decide))
  rw [setBit, setBit, getArray_of_lt hi, getArray_of_lt hi, setArray, if_pos h0, setArray,
    if_pos h0, masked, masked]
  refine congrArg (Bitmap.mk · b.rest) ?_
  refine BitVec.eq_of_getLsbD_eq fun j hj => ?_
  simp only [BitVec.getLsbD_and, BitVec.getLsbD_or, getLsbD_slotBits hj, bitMask, hmod,
    BitVec.getLsbD_twoPow]
  by_cases hij : i = j
  · subst hij
    simp [hi]
  · simp [hij]

theorem unsetBit_masked (b : Bitmap) (i : ℕ) : (b.unsetBit i).masked = b.masked.unsetBit i := by
  by_cases h0 : i / bitmapBits = 0
  · rw [unsetBit, unsetBit, setArray, if_pos h0, setArray, if_pos h0, getArray, if_pos h0, getArray,
      if_pos h0, masked, masked]
    refine congrArg (Bitmap.mk · b.rest) ?_
    rw [BitVec.and_assoc, BitVec.and_assoc, BitVec.and_comm (~~~_)]
  · rw [unsetBit, unsetBit, setArray, if_neg h0, setArray, if_neg h0, getArray, if_neg h0, getArray,
      if_neg h0]
    rfl

end Bitmap

namespace Hash

/-- The table without the bits that belong to no slot. -/
def SubhashTable.masked (t : SubhashTable) : SubhashTable := { t with bitmap := t.bitmap.masked }

theorem SubhashTable.isSubhash_masked (t : SubhashTable) {i : ℕ} (hi : i < prime) :
    t.masked.isSubhash i = t.isSubhash i := t.bitmap.getBit_masked hi

/-- A table in a clean block is a fresh table. -/
theorem SubhashTable.masked_setupIn {t : SubhashTable} (hone : t.bitmap.rest = [])
    (hclean : ∀ i < prime, t.isSubhash i = false) (parent : Ptr) :
    (t.setupIn parent).masked = SubhashTable.setup parent := by
  have hword : t.bitmap.first &&& slotBits = 0 := by
    refine BitVec.eq_of_getLsbD_eq fun j hj => ?_
    rw [BitVec.getLsbD_and, getLsbD_slotBits hj]
    by_cases hjp : j < prime
    · have hbit := hclean j hjp
      have hmod : j % bitmapBits = j := Nat.mod_eq_of_lt hj
      rw [isSubhash, Bitmap.getBit, Bitmap.getArray_of_lt hjp, hmod] at hbit
      simp [hbit]
    · simp [hjp]
  have hbitmap : t.bitmap.masked = Bitmap.create 1 := by
    rw [Bitmap.masked, hword, hone]
    rfl
  rw [masked, setupIn, setup]
  exact congrArg (SubhashTable.mk _ · _ _ _) hbitmap

variable {α : Type}

namespace Heap

/-- The heap with all its tables masked. -/
def masked (h : Heap α) : Heap α := { h with tables := fun p => (h.tables p).map (·.masked) }

/-! ### The operations commute with masking -/

/-- A computation that goes on from a heap. -/
theorem bind_masked {β γ : Type} {x : Option (Heap α)} {f : Heap α → Option β}
    {g : Heap α → Option γ} {k : β → γ} (h : ∀ a, g a.masked = (f a).map k) :
    (x.map masked).bind g = (x.bind f).map k := by
  cases x with
  | none => rfl
  | some a => exact h a

variable (h : Heap α)

theorem writeList_masked (a : Ptr) (f : HashTableList α → HashTableList α) :
    h.masked.writeList a f = (h.writeList a f).map masked := by
  rw [writeList, writeList, Option.map_map]
  rfl

theorem writeTable_masked (p : Ptr) {f : SubhashTable → SubhashTable}
    (hf : ∀ t, (f t).masked = f t.masked) :
    h.masked.writeTable p f = (h.writeTable p f).map masked := by
  rw [writeTable, writeTable, Option.map_map]
  have htab : h.masked.tables p = (h.tables p).map (·.masked) := rfl
  rw [htab, Option.map_map]
  refine congrArg (Option.map · (h.tables p)) ?_
  funext t
  have hupd : Function.update (fun q => (h.tables q).map (·.masked)) p (some (f t.masked)) =
      fun q => (Function.update h.tables p (some (f t)) q).map (·.masked) := by
    funext q
    by_cases hq : q = p
    · rw [hq, Function.update_self, Function.update_self, Option.map_some, hf]
    · rw [Function.update_of_ne hq, Function.update_of_ne hq]
  exact congrArg (Heap.mk · h.lists h.fresh) hupd

/-- A write to a list, and what follows. -/
theorem writeList_bind_masked {β γ : Type} {a : Ptr} {f : HashTableList α → HashTableList α}
    {x : Heap α → Option β} {y : Heap α → Option γ} {k : β → γ}
    (hxy : ∀ a, y a.masked = (x a).map k) :
    (h.masked.writeList a f).bind y = ((h.writeList a f).bind x).map k := by
  rw [writeList_masked]
  exact bind_masked hxy

/-- A write to a table, and what follows. -/
theorem writeTable_bind_masked {β γ : Type} {p : Ptr} {f : SubhashTable → SubhashTable}
    {x : Heap α → Option β} {y : Heap α → Option γ} {k : β → γ}
    (hf : ∀ t, (f t).masked = f t.masked) (hxy : ∀ a, y a.masked = (x a).map k) :
    (h.masked.writeTable p f).bind y = ((h.writeTable p f).bind x).map k := by
  rw [writeTable_masked h p hf]
  exact bind_masked hxy

theorem allocTable_masked (t : SubhashTable) :
    (h.allocTable t).masked = h.masked.allocTable t.masked := by
  have hupd : (fun q => (Function.update h.tables h.fresh (some t) q).map (·.masked)) =
      Function.update (fun q => (h.tables q).map (·.masked)) h.fresh (some t.masked) := by
    funext q
    by_cases hq : q = h.fresh
    · rw [hq, Function.update_self, Function.update_self, Option.map_some]
    · rw [Function.update_of_ne hq, Function.update_of_ne hq]
  exact congrArg (Heap.mk · h.lists (h.fresh + 1)) hupd

theorem freeTable_masked (p : Ptr) : (h.freeTable p).masked = h.masked.freeTable p := by
  have hupd : (fun q => (Function.update h.tables p none q).map (·.masked)) =
      Function.update (fun q => (h.tables q).map (·.masked)) p none := by
    funext q
    by_cases hq : q = p
    · rw [hq, Function.update_self, Function.update_self, Option.map_none]
    · rw [Function.update_of_ne hq, Function.update_of_ne hq]
  exact congrArg (Heap.mk · h.lists h.fresh) hupd

theorem findBucket_masked (v : Value) (fuel : ℕ) (bucket last : Ptr) (count : ℕ) :
    h.masked.findBucket v fuel bucket last count = h.findBucket v fuel bucket last count := by
  induction fuel generalizing bucket last count with
  | zero => rfl
  | succ fuel ih =>
    rw [findBucket, findBucket]
    simp only [ih]
    rfl

theorem findList_masked (v : Value) (fuel : ℕ) (ls : Ptr) :
    h.masked.findList v fuel ls = h.findList v fuel ls := by
  induction fuel generalizing ls with
  | zero => rfl
  | succ fuel ih =>
    rw [findList, findList]
    simp only [ih]
    rfl

/-- A branch on something the mask does not touch. -/
theorem ite_masked {β γ : Type} {k : β → γ} {c : Prop} [Decidable c] {x y : Option β}
    {x' y' : Option γ} (hx : x' = x.map k) (hy : y' = y.map k) :
    (if c then x' else y') = (if c then x else y).map k := by
  split
  · exact hx
  · exact hy

theorem newList_masked (p : Ptr) (idx : ℕ) (last : Ptr) (v : Value) (item : α) :
    h.masked.newList p idx last v item = (h.newList p idx last v item).map masked := by
  rw [newList, newList]
  simp only [Option.bind_eq_bind]
  have halloc : h.masked.allocList ⟨[item], v, p, idx, last, 0⟩ =
      (h.allocList ⟨[item], v, p, idx, last, 0⟩).masked := rfl
  have hfresh : h.masked.fresh = h.fresh := rfl
  rw [halloc, hfresh]
  refine ite_masked ?_ ?_
  · exact writeList_bind_masked _ fun a => writeTable_masked a p fun _ => rfl
  · exact writeTable_bind_masked _ (fun _ => rfl) fun a => writeTable_masked a p fun _ => rfl

theorem moveBucket_masked (sub : Ptr) (level : ℕ) (bucket : Ptr) :
    h.masked.moveBucket sub level bucket = (h.moveBucket sub level bucket).map masked := by
  rw [moveBucket, moveBucket]
  have hlists : h.masked.lists bucket = h.lists bucket := rfl
  simp only [Option.bind_eq_bind]
  rw [hlists]
  cases h.lists bucket with
  | none => rfl
  | some l =>
    simp only [Option.bind_some]
    refine writeList_bind_masked _ fun h₁ => ?_
    have htab : h₁.masked.tables sub = (h₁.tables sub).map (·.masked) := rfl
    rw [htab]
    cases h₁.tables sub with
    | none => rfl
    | some s =>
      simp only [Option.map_some, Option.bind_some]
      have hget : ∀ i, s.masked.get i = s.get i := fun _ => rfl
      simp only [hget]
      refine ite_masked ?_ ?_
      · refine writeList_bind_masked _ fun h₂ => ?_
        refine writeList_bind_masked _ fun h₃ => ?_
        exact writeTable_bind_masked _ (fun _ => rfl) fun h₄ => writeList_masked h₄ _ _
      · refine writeList_bind_masked _ fun h₃ => ?_
        exact writeTable_bind_masked _ (fun _ => rfl) fun h₄ => writeList_masked h₄ _ _

theorem moveBuckets_masked (sub : Ptr) (level fuel : ℕ) (bucket : Ptr) (total : ℕ) :
    moveBuckets sub level fuel h.masked bucket total =
      (moveBuckets sub level fuel h bucket total).map fun r => (r.1.masked, r.2) := by
  induction fuel generalizing h bucket total with
  | zero =>
    rw [moveBuckets, moveBuckets]
    split <;> rfl
  | succ fuel ih =>
    rw [moveBuckets, moveBuckets]
    split
    · rfl
    · have hlists : h.masked.lists bucket = h.lists bucket := rfl
      simp only [Option.bind_eq_bind]
      rw [hlists]
      cases h.lists bucket with
      | none => rfl
      | some l =>
        simp only [Option.bind_some]
        rw [moveBucket_masked]
        exact bind_masked fun h₁ => ih h₁ l.next (total + 1)

theorem setSubhash_masked (p : Ptr) {idx : ℕ} (hidx : idx < prime) (sub : Ptr) :
    h.masked.setSubhash p idx sub = (h.setSubhash p idx sub).map masked := by
  rw [setSubhash, setSubhash]
  simp only [Option.bind_eq_bind]
  refine writeTable_bind_masked _ (fun t =>
    congrArg (SubhashTable.mk t.table · t.uniqueLists t.uniqueSubs t.parent)
      (t.bitmap.setBit_masked hidx)) fun h₁ => ?_
  exact writeTable_bind_masked _ (fun _ => rfl) fun h₂ => writeTable_masked h₂ p fun _ => rfl

/-- **A split in clean memory** is the split of the blank table. -/
theorem splitIn_masked {mem : Memory α} (hmem : mem.Clean) (p : Ptr) {idx : ℕ} (hidx : idx < prime)
    (level : ℕ) : (h.splitIn mem p idx level).map masked = h.masked.split p idx level := by
  rw [splitIn, split]
  simp only [Option.bind_eq_bind]
  have halloc : (h.allocTable ((mem.tables h.handedOut).setupIn p)).masked =
      h.masked.allocTable (SubhashTable.setup p) := by
    rw [allocTable_masked, SubhashTable.masked_setupIn (mem.one_word _) (hmem _)]
  have hfresh : h.masked.fresh = h.fresh := rfl
  rw [← halloc, hfresh]
  generalize h.allocTable ((mem.tables h.handedOut).setupIn p) = h₀
  have htab : h₀.masked.tables p = (h₀.tables p).map (·.masked) := rfl
  have hfresh₀ : h₀.masked.fresh = h₀.fresh := rfl
  rw [htab, hfresh₀]
  cases h₀.tables p with
  | none => rfl
  | some t =>
    simp only [Option.map_some, Option.bind_some]
    have hget : t.masked.get idx = t.get idx := rfl
    rw [hget, moveBuckets_masked]
    cases moveBuckets h.fresh level h₀.fresh h₀ (t.get idx) 0 with
    | none => rfl
    | some r =>
      simp only [Option.map_some, Option.bind_some]
      symm
      refine writeTable_bind_masked _ (fun _ => rfl) fun h₁ => ?_
      exact writeTable_bind_masked _ (fun _ => rfl) fun h₂ => setSubhash_masked h₂ p hidx _

theorem newListIn_eq (mem : Memory α) (p : Ptr) (idx : ℕ) (last : Ptr) (v : Value) (item : α) :
    h.newListIn mem p idx last v item = h.newList p idx last v item := rfl

theorem insertBucketIn_masked {mem : Memory α} (hmem : mem.Clean) (p : Ptr) {idx : ℕ}
    (hidx : idx < prime) (level : ℕ) (v : Value) (item : α) :
    (h.insertBucketIn mem p idx level v item).map (fun r => (r.1.masked, r.2)) =
      h.masked.insertBucket p idx level v item := by
  rw [insertBucketIn, insertBucket]
  simp only [Option.bind_eq_bind, newListIn_eq]
  have htab : h.masked.tables p = (h.tables p).map (·.masked) := rfl
  have hfresh : h.masked.fresh = h.fresh := rfl
  rw [htab, hfresh]
  cases h.tables p with
  | none => rfl
  | some t =>
    simp only [Option.map_some, Option.bind_some]
    have hget : t.masked.get idx = t.get idx := rfl
    rw [hget, findBucket_masked]
    cases h.findBucket v h.fresh (t.get idx) 0 0 with
    | none => rfl
    | some r =>
      obtain ⟨bucket, last, count⟩ := r
      simp only [Option.bind_some]
      split
      · have hlists : h.masked.lists bucket = h.lists bucket := rfl
        rw [hlists]
        cases h.lists bucket with
        | none => rfl
        | some l =>
          simp only [Option.bind_some]
          exact (writeList_bind_masked _ fun h₁ => rfl).symm
      · rw [newList_masked]
        refine (bind_masked fun h₁ => ?_).symm
        split
        · rw [← splitIn_masked h₁ hmem p hidx level]
          exact bind_masked fun h₂ => rfl
        · rfl

/-- **An insertion in clean memory** is the insertion into the masked table. -/
theorem insertIn_masked {mem : Memory α} (hmem : mem.Clean) (v : Value) (item : α) (fuel : ℕ)
    (p : Ptr) (id level : ℕ) :
    (Heap.insertIn mem v item fuel h p id level).map (fun r => (r.1.masked, r.2)) =
      Heap.insert v item fuel h.masked p id level := by
  induction fuel generalizing p id level with
  | zero => rfl
  | succ fuel ih =>
    rw [Heap.insertIn, Heap.insert]
    simp only [Option.bind_eq_bind]
    have htab : h.masked.tables p = (h.tables p).map (·.masked) := rfl
    rw [htab]
    cases h.tables p with
    | none => rfl
    | some t =>
      simp only [Option.map_some, Option.bind_some]
      rw [t.isSubhash_masked (modHash_lt _)]
      split
      · exact ih _ _ _
      · exact insertBucketIn_masked h hmem p (modHash_lt _) level v item

theorem checkEmptyTable_masked (fuel : ℕ) (p : Ptr) :
    h.masked.checkEmptyTable fuel p = (h.checkEmptyTable fuel p).map masked := by
  induction fuel generalizing h p with
  | zero => rfl
  | succ fuel ih =>
    rw [checkEmptyTable, checkEmptyTable]
    simp only [Option.bind_eq_bind]
    have htab : h.masked.tables p = (h.tables p).map (·.masked) := rfl
    rw [htab]
    cases h.tables p with
    | none => rfl
    | some t =>
      simp only [Option.map_some, Option.bind_some]
      refine ite_masked ?_ rfl
      have hparent : t.masked.parent = t.parent := rfl
      have hget : ∀ i, t.masked.get i = t.get i := fun _ => rfl
      rw [hparent]
      simp only [hget]
      refine writeTable_bind_masked _ (fun _ => rfl) fun h₁ => ?_
      refine writeTable_bind_masked _ (fun q =>
        congrArg (SubhashTable.mk q.table · q.uniqueLists q.uniqueSubs q.parent)
          (q.bitmap.unsetBit_masked _)) fun h₂ => ?_
      refine writeTable_bind_masked _ (fun _ => rfl) fun h₃ => ?_
      rw [← freeTable_masked]
      exact ih _ _

theorem removeList_masked (p a : Ptr) :
    h.masked.removeList p a = (h.removeList p a).map masked := by
  rw [removeList, removeList]
  simp only [Option.bind_eq_bind]
  have hlists : h.masked.lists a = h.lists a := rfl
  rw [hlists]
  cases h.lists a with
  | none => rfl
  | some l =>
    simp only [Option.bind_some]
    -- the second link and the counter, whichever way the first link went
    have hrest : ∀ h₁ : Heap α,
        (if l.next ≠ 0 then (h₁.masked.writeList l.next fun m => { m with prev := l.prev }).bind
            fun h₂ => (h₂.freeList a).writeTable p fun t => { t with uniqueLists := t.uniqueLists - 1 }
          else (h₁.masked.freeList a).writeTable p
            fun t => { t with uniqueLists := t.uniqueLists - 1 }) =
        (if l.next ≠ 0 then (h₁.writeList l.next fun m => { m with prev := l.prev }).bind
            fun h₂ => (h₂.freeList a).writeTable p fun t => { t with uniqueLists := t.uniqueLists - 1 }
          else (h₁.freeList a).writeTable p
            fun t => { t with uniqueLists := t.uniqueLists - 1 }).map masked := by
      intro h₁
      refine ite_masked ?_ (writeTable_masked (h₁.freeList a) p fun _ => rfl)
      exact writeList_bind_masked _ fun h₂ => writeTable_masked (h₂.freeList a) p fun _ => rfl
    refine ite_masked ?_ ?_
    · exact writeList_bind_masked _ hrest
    · exact writeTable_bind_masked _ (fun _ => rfl) hrest

theorem eraseFromList_masked (p a : Ptr) (pos : ℕ) :
    h.masked.eraseFromList p a pos = (h.eraseFromList p a pos).map masked := by
  rw [Heap.eraseFromList, Heap.eraseFromList]
  simp only [Option.bind_eq_bind]
  have hlists : h.masked.lists a = h.lists a := rfl
  rw [hlists]
  cases h.lists a with
  | none => rfl
  | some l =>
    simp only [Option.bind_some]
    rw [writeList_masked]
    refine bind_masked fun h₁ => ite_masked ?_ rfl
    rw [removeList_masked]
    exact bind_masked fun h₂ => checkEmptyTable_masked h₂ maxLevels p

/-! ### Searching and iterating do not see the mask -/

theorem lookupList_masked (v : Value) (fuel : ℕ) (p : Ptr) (id : ℕ) :
    h.masked.lookupList v fuel p id = h.lookupList v fuel p id := by
  induction fuel generalizing p id with
  | zero => rfl
  | succ fuel ih =>
    rw [Heap.lookupList, Heap.lookupList]
    simp only [Option.bind_eq_bind]
    have htab : h.masked.tables p = (h.tables p).map (·.masked) := rfl
    rw [htab]
    cases h.tables p with
    | none => rfl
    | some t =>
      simp only [Option.map_some, Option.bind_some]
      rw [t.isSubhash_masked (modHash_lt _), findList_masked, ih]
      rfl

theorem findLoop_masked (fuel : ℕ) (frames : List Frame) :
    h.masked.findLoop fuel frames = h.findLoop fuel frames := by
  induction fuel generalizing frames with
  | zero => rfl
  | succ fuel ih =>
    cases frames with
    | nil => rfl
    | cons f fs =>
      rw [findLoop, findLoop]
      by_cases hpos : f.pos < prime
      · rw [if_pos hpos, if_pos hpos]
        simp only [Option.bind_eq_bind]
        have htab : h.masked.tables f.sub = (h.tables f.sub).map (·.masked) := rfl
        rw [htab]
        cases h.tables f.sub with
        | none => rfl
        | some s =>
          simp only [Option.map_some, Option.bind_some]
          rw [s.isSubhash_masked hpos, ih, ih]
          rfl
      · rw [if_neg hpos, if_neg hpos, ih]

theorem findGoodBucket_masked (it : Iterator) (forceNext : Bool) :
    h.masked.findGoodBucket it forceNext = h.findGoodBucket it forceNext := by
  rw [findGoodBucket, findGoodBucket]
  simp only [findLoop_masked]
  rfl

theorem gather_masked (fuel : ℕ) (it : Iterator) (ls : List α) :
    HashTable.gather h.masked fuel it ls = HashTable.gather h fuel it ls := by
  induction fuel generalizing it ls with
  | zero => rfl
  | succ fuel ih =>
    rw [HashTable.gather, HashTable.gather]
    simp only [Iterator.next, findGoodBucket_masked, ih]
    rfl

end Heap

end Hash

/-! ## Runs -/

namespace HashTable

variable {α : Type} {key : α → Value} {mem mem' : Memory α}

/-- The table with its heap masked. -/
def masked (T : HashTable α) : HashTable α := { T with heap := T.heap.masked }

theorem setupIn_masked (hmem : mem.Clean) (T : HashTable α) :
    (T.setupIn mem).masked =
      ⟨T.masked.heap.fresh, 0, T.masked.heap.allocTable (SubhashTable.setup 0)⟩ := by
  have halloc : (T.heap.allocTable ((mem.tables T.heap.handedOut).setupIn 0)).masked =
      T.heap.masked.allocTable (SubhashTable.setup 0) := by
    rw [Heap.allocTable_masked, SubhashTable.masked_setupIn (mem.one_word _) (hmem _)]
  exact congrArg (HashTable.mk T.heap.fresh 0) halloc

theorem insertIn_masked (hmem : mem.Clean) (T : HashTable α) (item : α) :
    (T.insertIn mem key item).map (fun r => (r.1.masked, r.2)) = T.masked.insert key item := by
  rw [HashTable.insertIn, HashTable.insert]
  have h := Heap.insertIn_masked T.heap hmem (key item) item maxLevels T.sh
    (hashField (key item)) 0
  have hheap : T.masked.heap = T.heap.masked := rfl
  have hsh : T.masked.sh = T.sh := rfl
  simp only [Option.bind_eq_bind]
  rw [hheap, hsh, ← h]
  cases Heap.insertIn mem (key item) item maxLevels T.heap T.sh (hashField (key item)) 0 with
  | none => rfl
  | some r => rfl

theorem lookupList_masked (T : HashTable α) (v : Value) :
    T.masked.lookupList v = T.lookupList v :=
  Heap.lookupList_masked T.heap v maxLevels T.sh (hashField v)

theorem listed_masked (T : HashTable α) : T.masked.listed = T.listed := by
  rw [listed, listed]
  have hheap : T.masked.heap = T.heap.masked := rfl
  simp only [hheap, Iterator.begin, Heap.findGoodBucket_masked, Heap.gather_masked]
  rfl

theorem eraseFromList_masked (T : HashTable α) (ls : Ptr) (pos : ℕ) :
    T.masked.eraseFromList ls pos = (T.eraseFromList ls pos).map masked := by
  rw [HashTable.eraseFromList, HashTable.eraseFromList]
  have hheap : T.masked.heap = T.heap.masked := rfl
  have hlists : T.heap.masked.lists ls = T.heap.lists ls := rfl
  simp only [Option.bind_eq_bind]
  rw [hheap, hlists]
  cases T.heap.lists ls with
  | none => rfl
  | some l =>
    simp only [Option.bind_some]
    rw [Heap.eraseFromList_masked]
    exact Heap.bind_masked fun h => rfl

/-- One operation, on tables that agree up to the mask, in clean memory. -/
theorem run_masked (hmem : mem.Clean) (hmem' : mem'.Clean) {T T' : HashTable α}
    (hT : T.masked = T'.masked) (op : TableOp α) :
    (op.run mem key T).map (fun r => (r.1.masked, r.2)) =
      (op.run mem' key T').map (fun r => (r.1.masked, r.2)) := by
  cases op with
  | setup =>
    simp only [TableOp.run, Option.map_some]
    rw [setupIn_masked hmem, setupIn_masked hmem', hT]
  | insert item =>
    have h := @insertIn_masked _ key _ hmem T item
    rw [hT, ← @insertIn_masked _ key _ hmem' T' item] at h
    simp only [TableOp.run, Option.map_map]
    have hpair : ∀ x : Option (HashTable α × Bool),
        x.map ((fun r : HashTable α × TableAnswer α => (r.1.masked, r.2)) ∘
          fun r => (r.1, .inserted r.2)) =
        (x.map fun r => (r.1.masked, r.2)).map fun r => (r.1, .inserted r.2) := by
      intro x
      rw [Option.map_map]
      rfl
    rw [hpair, hpair, h]
  | lookupList v =>
    have hlists : T.heap.lists = T'.heap.lists := congrArg (fun T => T.heap.lists) hT
    simp only [TableOp.run, Option.map_map, Function.comp_def]
    rw [← lookupList_masked, hT, lookupList_masked, hlists]
  | iterate =>
    simp only [TableOp.run, Option.map_map, Function.comp_def]
    rw [← listed_masked, hT, listed_masked]
  | eraseFromList ls pos =>
    have h := eraseFromList_masked T ls pos
    rw [hT, eraseFromList_masked] at h
    simp only [TableOp.run, Option.map_map]
    have hpair : ∀ x : Option (HashTable α),
        x.map ((fun r : HashTable α × TableAnswer α => (r.1.masked, r.2)) ∘ fun T => (T, .done)) =
        (x.map masked).map fun T => (T, .done) := by
      intro x
      rw [Option.map_map]
      rfl
    rw [hpair, hpair, h]

/-- A sequence of operations, by induction on it. -/
theorem answers_masked (hmem : mem.Clean) (hmem' : mem'.Clean) (ops : List (TableOp α))
    {T T' : HashTable α} (hT : T.masked = T'.masked) :
    T.answers mem key ops = T'.answers mem' key ops := by
  induction ops generalizing T T' with
  | nil => rfl
  | cons op ops ih =>
    have h := @run_masked _ key _ _ hmem hmem' _ _ hT op
    rw [answers, answers]
    simp only [Option.bind_eq_bind]
    cases hr : op.run mem key T with
    | none =>
      rw [hr, Option.map_none] at h
      rw [Option.map_eq_none_iff.mp h.symm]
      rfl
    | some r =>
      rw [hr, Option.map_some] at h
      obtain ⟨r', hr', hrr⟩ := Option.map_eq_some_iff.mp h.symm
      rw [Prod.mk.injEq] at hrr
      rw [hr']
      simp only [Option.bind_some]
      rw [ih hrr.1.symm, hrr.2]

/-- **In clean memory the answers do not depend on the memory.** -/
theorem observe_eq_of_clean (hmem : mem.Clean) (hmem' : mem'.Clean) (ops : List (TableOp α)) :
    observe mem key ops = observe mem' key ops := answers_masked hmem hmem' ops rfl

/-! ## A block with a bit of a slot set -/

/-- Every slot is that of some integer. -/
theorem exists_int_slot : ∀ i < prime, ∃ k < 256,
    modHash (hashField (.int (BitVec.ofNat 32 k)) &&& subhashMask) = i := by
  decide +kernel

theorem setupIn_tables_zero (mem : Memory α) {T : HashTable α} (hfresh : 1 ≤ T.heap.fresh) :
    (T.setupIn mem).heap.tables 0 = T.heap.tables 0 := by
  show Function.update T.heap.tables T.heap.fresh _ 0 = _
  rw [Function.update_of_ne (Nat.ne_of_lt hfresh)]

/-- `k + 1` calls of `setup`: the root is the block with number `k`. -/
theorem answers_setups (mem : Memory α) (key : α → Value) (ops : List (TableOp α)) (k : ℕ)
    (T : HashTable α) (hfresh : 1 ≤ T.heap.fresh) :
    ∃ T' : HashTable α, T.answers mem key (List.replicate (k + 1) .setup ++ ops) =
        (T'.answers mem key ops).map (List.replicate (k + 1) .done ++ ·) ∧
      T'.heap.tables T'.sh = some ((mem.tables (T.heap.handedOut + k)).setupIn 0) ∧
      T'.heap.tables 0 = T.heap.tables 0 := by
  induction k generalizing T with
  | zero =>
    refine ⟨T.setupIn mem, ?_, Function.update_self .., setupIn_tables_zero mem hfresh⟩
    rw [List.replicate_one, List.singleton_append, answers]
    simp only [TableOp.run, Option.bind_eq_bind, Option.bind_some]
    cases (T.setupIn mem).answers mem key ops <;> rfl
  | succ k ih =>
    have hfresh' : 1 ≤ (T.setupIn mem).heap.fresh := Nat.succ_le_succ (Nat.zero_le _)
    obtain ⟨T', hans, htab, hzero⟩ := ih (T.setupIn mem) hfresh'
    refine ⟨T', ?_, ?_, hzero.trans (setupIn_tables_zero mem hfresh)⟩
    · rw [List.replicate_succ, List.cons_append, answers]
      simp only [TableOp.run, Option.bind_eq_bind, Option.bind_some, hans]
      cases T'.answers mem key ops <;> rfl
    · obtain ⟨m, hm⟩ : ∃ m : ℕ, T.heap.fresh = m + 1 := ⟨_, (Nat.sub_add_cancel hfresh).symm⟩
      have hnumber : (T.setupIn mem).heap.handedOut + k = T.heap.handedOut + (k + 1) := by
        show T.heap.fresh + 1 - 1 + k = T.heap.fresh - 1 + (k + 1)
        rw [hm, Nat.add_sub_cancel, Nat.add_sub_cancel]
        exact Nat.add_right_comm m 1 k
      rw [← hnumber]
      exact htab

/-- A lookup of a key of a slot whose bit is set in an empty table follows a null pointer. -/
theorem lookupList_null {T : HashTable α} {t : SubhashTable} (ht : T.heap.tables T.sh = some t)
    (hzero : T.heap.tables 0 = none) {v : Value}
    (hbit : t.isSubhash (modHash (hashField v &&& subhashMask)) = true)
    (hget : ∀ i, t.get i = 0) : T.lookupList v = none := by
  have hlevels : maxLevels = 2 + 1 + 1 := rfl
  rw [HashTable.lookupList, hlevels, Heap.lookupList, ht]
  simp only [Option.bind_eq_bind, Option.bind_some, hbit, if_true, hget]
  rw [Heap.lookupList, hzero]
  rfl

/-- A lookup in an empty table whose bits are clear finds nothing. -/
theorem lookupList_empty {T : HashTable α} {t : SubhashTable} (ht : T.heap.tables T.sh = some t)
    {v : Value} (hbit : t.isSubhash (modHash (hashField v &&& subhashMask)) = false)
    (hget : ∀ i, t.get i = 0) : T.lookupList v = some 0 := by
  have hlevels : maxLevels = 3 + 1 := rfl
  rw [HashTable.lookupList, hlevels, Heap.lookupList, ht]
  simp only [Option.bind_eq_bind, Option.bind_some, hbit, Bool.false_eq_true, if_false, hget]
  cases T.heap.fresh with
  | zero => rfl
  | succ k => rfl

/-- The table is set up in the block with number `k`, and a key is looked up. -/
theorem observe_setups (mem : Memory α) (key : α → Value) (k : ℕ) (v : Value) :
    observe mem key (List.replicate (k + 1) .setup ++ [.lookupList v]) = none ↔
      (mem.tables k).isSubhash (modHash (hashField v &&& subhashMask)) = true := by
  obtain ⟨T, hans, htab, hzero⟩ := answers_setups mem key [.lookupList v] k unset le_rfl
  have hk : (unset : HashTable α).heap.handedOut + k = k := Nat.zero_add k
  rw [hk] at htab
  rw [observe, hans, Option.map_eq_none_iff, answers]
  simp only [TableOp.run, Option.bind_eq_bind, Option.bind_eq_none_iff, Option.map_eq_some_iff]
  cases hbit : (mem.tables k).isSubhash (modHash (hashField v &&& subhashMask)) with
  | true =>
    have hnone := lookupList_null htab hzero (v := v) hbit fun _ => rfl
    simp [hnone]
  | false =>
    have hsome := lookupList_empty htab (v := v) hbit fun _ => rfl
    simp [hsome, answers]

/-- **The answers do not depend on the memory exactly if it is clean**: for any sequence of
operations they are those in any other clean memory. -/
theorem clean_iff (mem : Memory α) (key : α → Value) :
    mem.Clean ↔ ∀ mem' : Memory α, mem'.Clean →
      ∀ ops, observe mem key ops = observe mem' key ops := by
  constructor
  · exact fun hmem mem' hmem' ops => observe_eq_of_clean hmem hmem' ops
  · intro hall k i hi
    obtain ⟨j, -, hj⟩ := exists_int_slot i hi
    have heq := hall .blank Memory.clean_blank
      (List.replicate (k + 1) .setup ++ [.lookupList (.int (BitVec.ofNat 32 j))])
    by_contra hbit
    rw [Bool.not_eq_false, ← hj, ← observe_setups mem key, heq, observe_setups, hj,
      Memory.clean_blank k i hi] at hbit
    exact Bool.false_ne_true hbit

/-- Memory in which every block has the lowest bit of the bitmap set. -/
def dirty : Memory α where
  tables := fun _ => ⟨fun _ => 0, ⟨1, []⟩, 0, 0, 0⟩
  lists := fun _ => ⟨[], .nil, 0, 0, 0, 0⟩
  one_word := fun _ => rfl

/-- **The answers depend on the memory.**  The first lookup in a new table, of the empty list, takes
the null pointer in the first slot for a sub-table. -/
theorem not_forall_observe_eq :
    ¬ ∀ (mem mem' : Memory Tuple) (key : Tuple → Value) (ops : List (TableOp Tuple)),
      observe mem key ops = observe mem' key ops := by
  intro hall
  have heq := hall dirty .blank (getField 0) (List.replicate 1 .setup ++ [.lookupList .nil])
  have hdirty := (observe_setups (dirty : Memory Tuple) (getField 0) 0 .nil).mpr rfl
  rw [heq, observe_setups, Memory.clean_blank 0 _ (modHash_lt _)] at hdirty
  exact Bool.false_ne_true hdirty

end HashTable

end Meld
