import Meld.Db.TrieHash
import Meld.Lib.Buckets

/-!
# The pointers of a level are consistent

`reach_ok` says of every level that the operations can make: each child is in the bucket its data
hashes to, its bucket pointer points at the head of that bucket, the links of every chain fit
together, `total` counts the children, and a lookup finds what a scan of all children would find.

The children of a table are described by lists of addresses, one for each bucket, and the operations
on these are those of `Buckets`, with the hash of the data at an address.  A child is linked to the
front of a chain and unlinked from the middle of one by `Linked.join`.

* `Tabled`: the links, the heads and the bucket pointers of a table.
* `Tabled.insertData`, `Tabled.moveChain`, `Tabled.moveBuckets`: filling a table.
* `ListOk`, `HashOk`, `LevelOk`: the invariant.
-/

namespace Meld

open Linked

namespace LevelHeap

variable {m m' : LevelHeap} {a old : ℕ}

/-- The `prev` and `next` pointers of the children. -/
def links (m : LevelHeap) : Links := fun a => (m.cells a).map fun c => (c.prev, c.next)

/-- The data of a child. -/
def data (m : LevelHeap) (a : ℕ) : Option TrieData := (m.cells a).map TrieCell.data

/-- The bucket pointer of a child. -/
def bucket (m : LevelHeap) (a : ℕ) : Option (ℕ × ℕ) := (m.cells a).bind TrieCell.bucket

/-- The hash of the data of a child. -/
def hashAt (nodeId : BitVec 64 → ℕ) (m : LevelHeap) (a : ℕ) : ℕ :=
  ((m.data a).map (Trie.hashItem nodeId)).getD 0

/-- Pointers of children were changed, and nothing else. -/
structure Relinked (m m' : LevelHeap) : Prop where
  data : ∀ a, m'.data a = m.data a
  fresh : m'.fresh = m.fresh
  freshArray : m'.freshArray = m.freshArray

theorem Relinked.refl (m : LevelHeap) : Relinked m m := ⟨fun _ => rfl, rfl, rfl⟩

theorem Relinked.trans {m₁ m₂ m₃ : LevelHeap} (h : Relinked m₁ m₂) (h' : Relinked m₂ m₃) :
    Relinked m₁ m₃ :=
  ⟨fun a => (h'.data a).trans (h.data a), h'.fresh.trans h.fresh,
    h'.freshArray.trans h.freshArray⟩

theorem Relinked.hashAt {nodeId : BitVec 64 → ℕ} (h : Relinked m m') :
    m'.hashAt nodeId = m.hashAt nodeId := by
  ext a
  rw [LevelHeap.hashAt, LevelHeap.hashAt, h.data]

theorem Relinked.isSome (h : Relinked m m') (a : ℕ) :
    (m'.cells a).isSome = (m.cells a).isSome := by
  have hdata := congrArg Option.isSome (h.data a)
  rwa [LevelHeap.data, LevelHeap.data, Option.isSome_map, Option.isSome_map] at hdata

/-- A write to a child, if there is one. -/
def modify (m : LevelHeap) (a : ℕ) (f : TrieCell → TrieCell) : LevelHeap :=
  { m with cells := Function.update m.cells a ((m.cells a).map f) }

theorem cells_modify_of_ne (f : TrieCell → TrieCell) {x : ℕ} (hx : x ≠ a) :
    (m.modify a f).cells x = m.cells x := Function.update_of_ne hx _ _

theorem cells_modify_self (f : TrieCell → TrieCell) :
    (m.modify a f).cells a = (m.cells a).map f := Function.update_self ..

theorem isSome_modify (f : TrieCell → TrieCell) (x : ℕ) :
    ((m.modify a f).cells x).isSome = (m.cells x).isSome := by
  by_cases hx : x = a
  · rw [hx, cells_modify_self, Option.isSome_map]
  · rw [cells_modify_of_ne f hx]

theorem updateCell_eq (h : (m.cells a).isSome) (f : TrieCell → TrieCell) :
    m.updateCell a f = some (m.modify a f) := by
  obtain ⟨c, hc⟩ := Option.isSome_iff_exists.1 h
  rw [updateCell, modify, hc]
  rfl

theorem updateNonNull_eq (h : a ≠ 0 → (m.cells a).isSome) (h0 : m.cells 0 = none)
    (f : TrieCell → TrieCell) : m.updateNonNull a f = some (m.modify a f) := by
  by_cases ha : a = 0
  · subst ha
    have hself : m.modify 0 f = m := by
      rw [modify, h0, Option.map_none, ← h0, Function.update_eq_self]
    rw [updateNonNull, if_pos rfl, hself]
  · rw [updateNonNull, if_neg ha, updateCell_eq (h ha)]

theorem modify_relinked {f : TrieCell → TrieCell} (hf : ∀ c, (f c).data = c.data) :
    Relinked m (m.modify a f) := by
  refine ⟨fun x => ?_, rfl, rfl⟩
  by_cases hx : x = a
  · rw [hx, data, data, cells_modify_self, Option.map_map]
    congr 1
    ext c
    exact hf c
  · rw [data, data, cells_modify_of_ne f hx]

theorem bucket_modify {f : TrieCell → TrieCell} (hf : ∀ c, (f c).bucket = c.bucket) (x : ℕ) :
    (m.modify a f).bucket x = m.bucket x := by
  by_cases hx : x = a
  · rw [hx, bucket, bucket, cells_modify_self, Option.bind_map]
    congr 1
    ext c
    rw [Function.comp_apply, hf]
  · rw [bucket, bucket, cells_modify_of_ne f hx]

theorem links_modify {f : TrieCell → TrieCell}
    (hf : ∀ c, (f c).prev = c.prev ∧ (f c).next = c.next) : (m.modify a f).links = m.links := by
  ext1 x
  by_cases hx : x = a
  · rw [hx, links, links, cells_modify_self, Option.map_map]
    congr 1
    ext c
    · exact (hf c).1
    · exact (hf c).2
  · rw [links, links, cells_modify_of_ne f hx]

/-- The heap after the neighbours of a child were linked to each other. -/
def unlink (m : LevelHeap) (p n : ℕ) : LevelHeap :=
  (m.modify p fun c => { c with next := n }).modify n fun c => { c with prev := p }

theorem links_unlink {p n : ℕ} (h : p ≠ n ∨ m.cells p = none) :
    (m.unlink p n).links = join m.links p n := by
  ext1 x
  by_cases hn : x = n
  · subst hn
    rw [links, unlink, cells_modify_self, join, links]
    by_cases hp : x = p
    · subst hp
      have hnone := h.resolve_left (fun hne => hne rfl)
      rw [cells_modify_self, hnone]
      rfl
    · rw [cells_modify_of_ne _ hp]
      cases m.cells x with
      | none => rfl
      | some c => simp [hp]
  · rw [links, unlink, cells_modify_of_ne _ hn]
    by_cases hp : x = p
    · subst hp
      rw [cells_modify_self, join, links]
      cases m.cells x with
      | none => rfl
      | some c => simp [hn]
    · rw [cells_modify_of_ne _ hp, join_of_ne hp hn]
      rfl

theorem unlink_relinked (m : LevelHeap) (p n : ℕ) : Relinked m (m.unlink p n) := by
  unfold unlink
  refine Relinked.trans (modify_relinked (a := p) ?_) (modify_relinked ?_)
  · exact fun _ => rfl
  · exact fun _ => rfl

theorem bucket_unlink (m : LevelHeap) (p n x : ℕ) : (m.unlink p n).bucket x = m.bucket x := by
  unfold unlink
  refine (bucket_modify ?_ x).trans (bucket_modify ?_ x)
  · exact fun _ => rfl
  · exact fun _ => rfl

theorem cells_unlink {p n x : ℕ} (hp : x ≠ p) (hn : x ≠ n) :
    (m.unlink p n).cells x = m.cells x := by
  rw [unlink, cells_modify_of_ne _ hn, cells_modify_of_ne _ hp]

/-- The chain without the child. -/
theorem seg_unlink {xs ys : List ℕ} (h0m : m.cells 0 = none) (hnd : (xs ++ a :: ys).Nodup)
    (h0 : 0 ∉ xs ++ a :: ys) (hs : Seg m.links 0 (xs ++ a :: ys) 0) :
    Seg (m.unlink (xs.getLastD 0) (ys.headD 0)).links 0 (xs ++ ys) 0 := by
  obtain ⟨hxs, -, hys⟩ := seg_append.1 hs
  have hsub : (xs ++ ys).Sublist (xs ++ a :: ys) :=
    (List.sublist_cons_self a ys).append_left xs
  have hne : xs.getLastD 0 ≠ ys.headD 0 ∨ m.cells (xs.getLastD 0) = none := by
    by_cases hx : xs = []
    · refine Or.inr ?_
      rw [hx]
      exact h0m
    · refine Or.inl fun heq => ?_
      have hlast := getLastD_mem hx
      by_cases hy : ys = []
      · rw [heq, hy] at hlast
        exact h0 (List.mem_append_left _ hlast)
      · exact (List.nodup_append.1 (hsub.nodup hnd)).2.2 _ hlast _ (headD_mem hy) heq
  rw [links_unlink hne]
  exact seg_join (hsub.nodup hnd) (fun hmem => h0 (hsub.subset hmem)) hxs hys

/-- The heap after a child was linked to the front of a chain. -/
def push (m : LevelHeap) (a old : ℕ) : LevelHeap :=
  (m.modify a fun c => { c with prev := 0, next := old }).modify old fun c => { c with prev := a }

theorem links_push (ha : (m.cells a).isSome) (hne : a ≠ old) :
    (m.push a old).links = join (Function.update m.links a (some (0, old))) a old := by
  ext1 x
  by_cases ho : x = old
  · subst ho
    rw [links, push, cells_modify_self, cells_modify_of_ne _ (Ne.symm hne), join,
      Function.update_of_ne (Ne.symm hne), links]
    cases m.cells x with
    | none => rfl
    | some c => simp [Ne.symm hne]
  · rw [links, push, cells_modify_of_ne _ ho]
    by_cases hx : x = a
    · subst hx
      obtain ⟨c, hc⟩ := Option.isSome_iff_exists.1 ha
      rw [cells_modify_self, join, Function.update_self, hc]
      simp [ho]
    · rw [cells_modify_of_ne _ hx, join_of_ne hx ho, Function.update_of_ne hx]
      rfl

theorem push_relinked (m : LevelHeap) (a old : ℕ) : Relinked m (m.push a old) := by
  unfold push
  refine Relinked.trans (modify_relinked (a := a) ?_) (modify_relinked ?_)
  · exact fun _ => rfl
  · exact fun _ => rfl

theorem bucket_push (m : LevelHeap) (a old x : ℕ) : (m.push a old).bucket x = m.bucket x := by
  unfold push
  refine (bucket_modify ?_ x).trans (bucket_modify ?_ x)
  · exact fun _ => rfl
  · exact fun _ => rfl

theorem cells_push (m : LevelHeap) {x : ℕ} (hx : x ≠ a) (ho : x ≠ old) :
    (m.push a old).cells x = m.cells x := by
  rw [push, cells_modify_of_ne _ ho, cells_modify_of_ne _ hx]

/-- The chain with the child in front. -/
theorem seg_push {c : List ℕ} (ha : (m.cells a).isSome) (hnd : (a :: c).Nodup) (h0 : 0 ∉ a :: c)
    (hs : Seg m.links 0 c 0) : Seg (m.push a (c.headD 0)).links 0 (a :: c) 0 := by
  have hac : a ∉ c := (List.nodup_cons.1 hnd).1
  have hne : a ≠ c.headD 0 := by
    cases c with
    | nil => exact fun heq => h0 (by rw [heq]; exact List.mem_cons_self)
    | cons b c => exact fun heq => hac (by rw [heq]; exact List.mem_cons_self)
  rw [links_push ha hne]
  refine @seg_join _ [a] c (c.headD 0) 0 hnd h0 ⟨Function.update_self .., trivial⟩
    (seg_congr (fun x hx => Function.update_of_ne ?_ _ _) hs)
  rintro rfl
  exact hac hx

/-- The heap after an array of heads was written. -/
def withHeads (m : LevelHeap) (b : ℕ) (heads : List ℕ) : LevelHeap :=
  { m with arrays := Function.update m.arrays b (some heads) }

theorem setHead_eq {heads : List ℕ} {b i v : ℕ} (h : m.arrays b = some heads)
    (hi : i < heads.length) : m.setHead (b, i) v = some (m.withHeads b (heads.set i v)) := by
  rw [setHead, h]
  exact if_pos hi

theorem Relinked.withHeads (h : Relinked m m') (b : ℕ) (heads : List ℕ) :
    Relinked m (m'.withHeads b heads) := ⟨h.data, h.fresh, h.freshArray⟩

theorem isSome_arrays_withHeads {b b' : ℕ} {heads : List ℕ} (hb : (m.arrays b).isSome)
    (h : ((m.withHeads b heads).arrays b').isSome) : (m.arrays b').isSome := by
  by_cases heq : b' = b
  · rwa [heq]
  · have hsame : (m.withHeads b heads).arrays b' = m.arrays b' := Function.update_of_ne heq _ _
    rwa [hsame] at h

theorem Relinked.deleteArray (h : Relinked m m') (b : ℕ) : Relinked m (m'.deleteArray b) :=
  ⟨h.data, h.fresh, h.freshArray⟩

/-- The heap after a child was put into a bucket of a table. -/
def filed (m : LevelHeap) (t : TrieHash) (heads : List ℕ) (i a : ℕ) : LevelHeap :=
  { (m.push a (heads.getD i 0)).modify a fun c => { c with bucket := some (t.buckets, i) } with
    arrays := Function.update m.arrays t.buckets (some (heads.set i a)) }

theorem insertItem_eq {t : TrieHash} {heads : List ℕ} {hash : ℕ} (ha : (m.cells a).isSome)
    (h0 : m.cells 0 = none) (hheads : m.arrays t.buckets = some heads)
    (hi : hash % t.numBuckets < heads.length)
    (hold : heads.getD (hash % t.numBuckets) 0 ≠ 0 →
      (m.cells (heads.getD (hash % t.numBuckets) 0)).isSome) :
    t.insertItem hash a m = some (m.filed t heads (hash % t.numBuckets) a) := by
  set i := hash % t.numBuckets with hidef
  have hget : heads[i]? = some (heads.getD i 0) := by
    rw [List.getD_eq_getElem?_getD, List.getElem?_eq_getElem hi, Option.getD_some]
  set old := heads.getD i 0 with hdef
  set m₁ := m.modify a fun c => { c with prev := 0, next := old } with hm₁
  have h0' : m₁.cells 0 = none := by
    rw [← Option.not_isSome_iff_eq_none, isSome_modify, h0]
    exact Bool.false_ne_true
  have hold' : old ≠ 0 → (m₁.cells old).isSome := fun hne => by
    rw [isSome_modify]
    exact hold hne
  have ha' : ((m.push a old).cells a).isSome := by
    rw [(push_relinked m a old).isSome]
    exact ha
  rw [TrieHash.insertItem, hheads]
  simp only [Option.bind_eq_bind, Option.bind_some, ← hidef, hget]
  rw [updateCell_eq ha, Option.bind_some, updateNonNull_eq hold' h0', Option.bind_some]
  change ((m.push a old).updateCell a _).bind _ = _
  rw [updateCell_eq ha', Option.bind_some]
  exact setHead_eq hheads hi

variable {t : TrieHash} {heads : List ℕ} {i : ℕ}

theorem filed_relinked (m : LevelHeap) (t : TrieHash) (heads : List ℕ) (i a : ℕ) :
    Relinked m (m.filed t heads i a) := by
  have hbucket : Relinked (m.push a (heads.getD i 0)) ((m.push a (heads.getD i 0)).modify a
      fun c => { c with bucket := some (t.buckets, i) }) := modify_relinked fun _ => rfl
  have hpush := (push_relinked m a (heads.getD i 0)).trans hbucket
  exact ⟨hpush.data, hpush.fresh, hpush.freshArray⟩

theorem links_filed : (m.filed t heads i a).links = (m.push a (heads.getD i 0)).links := by
  change ((m.push a (heads.getD i 0)).modify a _).links = _
  exact links_modify fun _ => ⟨rfl, rfl⟩

theorem cells_filed {x : ℕ} (hx : x ≠ a) (ho : x ≠ heads.getD i 0) :
    (m.filed t heads i a).cells x = m.cells x := by
  change ((m.push a (heads.getD i 0)).modify a _).cells x = _
  rw [cells_modify_of_ne _ hx, cells_push m hx ho]

theorem bucket_filed_self (ha : (m.cells a).isSome) :
    (m.filed t heads i a).bucket a = some (t.buckets, i) := by
  change ((m.push a (heads.getD i 0)).modify a _).bucket a = _
  have ha' : ((m.push a (heads.getD i 0)).cells a).isSome := by
    rw [(push_relinked m a _).isSome]
    exact ha
  obtain ⟨c, hc⟩ := Option.isSome_iff_exists.1 ha'
  rw [bucket, cells_modify_self, hc]
  rfl

theorem bucket_filed_of_ne {x : ℕ} (hx : x ≠ a) :
    (m.filed t heads i a).bucket x = m.bucket x := by
  change ((m.push a (heads.getD i 0)).modify a _).bucket x = _
  rw [bucket, cells_modify_of_ne _ hx]
  exact bucket_push m a _ x

end LevelHeap

open LevelHeap

namespace TrieLevel

variable {nodeId : BitVec 64 → ℕ} {m m' : LevelHeap} {t : TrieHash} {bs : List (List ℕ)} {a : ℕ}

/-- The children of a table, one list for each bucket: they are linked, the heads are in the array,
every child is in the bucket of its data, and its bucket pointer is that of the bucket. -/
structure Tabled (nodeId : BitVec 64 → ℕ) (m : LevelHeap) (t : TrieHash) (bs : List (List ℕ)) :
    Prop where
  length : bs.length = t.numBuckets
  heads : m.arrays t.buckets = some (bs.map fun c => c.headD 0)
  linked : ∀ i, Seg m.links 0 (bs.getD i []) 0
  nodup : bs.flatten.Nodup
  placed : Buckets.Placed (m.hashAt nodeId) bs
  bucket : ∀ i, ∀ a ∈ bs.getD i [], m.bucket a = some (t.buckets, i)
  allocated : ∀ a ∈ bs.flatten, (m.cells a).isSome

namespace Tabled

theorem mem_flatten_of_getD {i : ℕ} (ha : a ∈ bs.getD i []) : a ∈ bs.flatten := by
  by_cases hi : i < bs.length
  · refine List.mem_flatten.2 ⟨bs[i], List.getElem_mem hi, ?_⟩
    rwa [List.getD_eq_getElem?_getD, List.getElem?_eq_getElem hi, Option.getD_some] at ha
  · rw [List.getD_eq_getElem?_getD, List.getElem?_eq_none (Nat.le_of_not_lt hi)] at ha
    cases ha

theorem nodup_getD (hnd : bs.flatten.Nodup) (i : ℕ) : (bs.getD i []).Nodup := by
  by_cases hi : i < bs.length
  · rw [List.getD_eq_getElem?_getD, List.getElem?_eq_getElem hi, Option.getD_some]
    exact (List.nodup_flatten.1 hnd).1 _ (List.getElem_mem hi)
  · rw [List.getD_eq_getElem?_getD, List.getElem?_eq_none (Nat.le_of_not_lt hi)]
    exact List.nodup_nil

theorem zero_not_mem (h0 : m.cells 0 = none) {l : List ℕ} (h : ∀ a ∈ l, (m.cells a).isSome) :
    0 ∉ l := by
  intro hmem
  have := h 0 hmem
  rw [h0] at this
  cases this

theorem head_isSome {l : List ℕ} (h : ∀ a ∈ l, (m.cells a).isSome) (hne : l.headD 0 ≠ 0) :
    (m.cells (l.headD 0)).isSome := by
  cases l with
  | nil => exact absurd rfl hne
  | cons b l => exact h b List.mem_cons_self

theorem map_headD_modify (bs : List (List ℕ)) (i a : ℕ) :
    (bs.modify i (a :: ·)).map (fun c => c.headD 0) = (bs.map fun c => c.headD 0).set i a := by
  refine List.ext_getElem? fun j => ?_
  rw [List.getElem?_map, List.getElem?_modify, List.getElem?_set, List.getElem?_map]
  by_cases hj : i = j
  · subst hj
    by_cases hi : i < bs.length
    · simp [hi]
    · simp [hi]
  · simp [hj]

theorem insertData_eq (t : TrieHash) (d : TrieData) (node : ℕ) (m : LevelHeap) :
    t.insertData nodeId d node m = t.insertItem (Trie.hashItem nodeId d) node m := by
  rcases d with i | x | n | (_ | _) <;> rfl

/-- **One more child in the table.** -/
theorem insertData (h : Tabled nodeId m t bs) (h0 : m.cells 0 = none) {c : TrieCell}
    (hc : m.cells a = some c) (ha : a ∉ bs.flatten) :
    ∃ m', t.insertData nodeId c.data a m = some m' ∧
      Tabled nodeId m' t (Buckets.insert (m.hashAt nodeId) bs a) ∧ Relinked m m' ∧
        (∀ x, x ≠ a → x ∉ bs.flatten → m'.cells x = m.cells x) ∧
          ∀ b, b ≠ t.buckets → m'.arrays b = m.arrays b := by
  have hsome : (m.cells a).isSome := by
    rw [hc]
    rfl
  have hindex : Trie.hashItem nodeId c.data % t.numBuckets =
      Buckets.index (m.hashAt nodeId) bs.length a := by
    rw [Buckets.index, h.length, hashAt, data, hc]
    rfl
  have hilt := Buckets.index_lt h.placed.pos a (h := m.hashAt nodeId)
  set i := Buckets.index (m.hashAt nodeId) bs.length a
  set heads := bs.map fun c => c.headD 0 with hheads
  have hhead : ∀ j, heads.getD j 0 = (bs.getD j []).headD 0 := fun j => by
    rw [List.getD_eq_getElem?_getD, List.getD_eq_getElem?_getD, hheads, List.getElem?_map]
    cases bs[j]? <;> rfl
  have halloc : ∀ x ∈ bs.getD i [], (m.cells x).isSome := fun x hx =>
    h.allocated x (mem_flatten_of_getD hx)
  have hac : a ∉ bs.getD i [] := fun hx => ha (mem_flatten_of_getD hx)
  have h0a : 0 ∉ a :: bs.getD i [] := zero_not_mem h0 fun x hx => by
    rcases List.mem_cons.1 hx with rfl | hx
    · exact hsome
    · exact halloc x hx
  have hseg := seg_push hsome (List.nodup_cons.2 ⟨hac, nodup_getD h.nodup i⟩) h0a (h.linked i)
  have hnewBucket : ∀ j, (Buckets.insert (m.hashAt nodeId) bs a).getD j [] =
      if j = i then a :: bs.getD i [] else bs.getD j [] := Buckets.getD_modify bs _ hilt
  have hrun : t.insertData nodeId c.data a m = some (m.filed t heads i a) := by
    rw [insertData_eq, insertItem_eq hsome h0 h.heads, hindex]
    · rw [hindex, List.length_map]
      exact hilt
    · rw [hindex, hhead]
      exact fun hne => head_isSome halloc hne
  have hrelinked := filed_relinked m t heads i a
  have hframe : ∀ x, x ≠ a → x ∉ bs.getD i [] → (m.filed t heads i a).cells x = m.cells x := by
    intro x hx hmem
    by_cases hx0 : x = 0
    · rw [hx0, h0, ← Option.not_isSome_iff_eq_none, hrelinked.isSome, h0]
      exact Bool.false_ne_true
    · refine cells_filed hx fun heq => ?_
      rw [hhead] at heq
      refine hmem (heq ▸ headD_mem fun hnil => hx0 ?_)
      rw [heq, hnil]
      rfl
  refine ⟨_, hrun, ?_, hrelinked, fun x hx hmem => hframe x hx fun hin => hmem ?_,
    fun b hb => Function.update_of_ne hb _ _⟩
  case refine_2 => exact mem_flatten_of_getD hin
  refine ⟨?_, ?_, fun j => ?_, ?_, ?_, fun j x hx => ?_, fun x hx => ?_⟩
  · rw [Buckets.length_insert, h.length]
  · exact (Function.update_self ..).trans (congrArg some (map_headD_modify bs i a).symm)
  · rw [hnewBucket]
    split
    · rw [links_filed, hhead]
      exact hseg
    · refine seg_congr (fun x hx => ?_) (h.linked j)
      have hxa : x ≠ a := fun heq => ha (heq ▸ mem_flatten_of_getD hx)
      have hxi : x ∉ bs.getD i [] := fun hin =>
        ‹¬ j = i› ((h.placed.index_eq j x hx).symm.trans (h.placed.index_eq i x hin))
      rw [links, links, hframe x hxa hxi]
  · rw [(Buckets.perm_insert h.placed.pos a).nodup_iff]
    exact List.nodup_cons.2 ⟨ha, h.nodup⟩
  · rw [hrelinked.hashAt]
    exact h.placed.insert a
  · rw [hnewBucket] at hx
    split at hx
    · rename_i hj
      subst hj
      rcases List.mem_cons.1 hx with rfl | hx
      · exact bucket_filed_self hsome
      · have hxa : x ≠ a := fun heq => hac (heq ▸ hx)
        rw [bucket_filed_of_ne hxa]
        exact h.bucket i x hx
    · have hxa : x ≠ a := fun heq => ha (heq ▸ mem_flatten_of_getD hx)
      rw [bucket_filed_of_ne hxa]
      exact h.bucket j x hx
  · rw [hrelinked.isSome]
    rcases List.mem_cons.1 ((Buckets.perm_insert h.placed.pos a).mem_iff.1 hx) with rfl | hx
    · exact hsome
    · exact h.allocated x hx

/-- **A chain goes into the table.**  The children before it are linked anew, so that only the first
`prev` pointer of what is left is not the one of a chain. -/
theorem moveChain (h : Tabled nodeId m t bs) (h0 : m.cells 0 = none) {chain : List ℕ} {prv fuel : ℕ}
    (hs : Seg m.links prv chain 0) (hnd : (chain ++ bs.flatten).Nodup)
    (hsome : ∀ a ∈ chain, (m.cells a).isSome) (hfuel : chain.length ≤ fuel) (total : ℕ) :
    ∃ m', t.moveChain nodeId fuel (chain.headD 0) total m = some (total + chain.length, m') ∧
      Tabled nodeId m' t (chain.foldl (Buckets.insert (m.hashAt nodeId)) bs) ∧ Relinked m m' ∧
        (∀ x, x ∉ chain → x ∉ bs.flatten → m'.cells x = m.cells x) ∧
          ∀ b, b ≠ t.buckets → m'.arrays b = m.arrays b := by
  induction chain generalizing m bs prv fuel total with
  | nil =>
    refine ⟨m, ?_, h, .refl m, fun x _ _ => rfl, fun b _ => rfl⟩
    rw [TrieHash.moveChain.eq_def]
    rfl
  | cons a chain ih =>
    obtain ⟨hlink, hrest⟩ := hs
    obtain ⟨ha, hnd'⟩ := List.nodup_cons.1 hnd
    have hachain : a ∉ chain := fun hmem => ha (List.mem_append_left _ hmem)
    have habs : a ∉ bs.flatten := fun hmem => ha (List.mem_append_right _ hmem)
    obtain ⟨c, hc⟩ := Option.isSome_iff_exists.1 (hsome a List.mem_cons_self)
    have hnext : c.next = chain.headD 0 := by
      rw [links, hc] at hlink
      exact (Prod.mk.inj (Option.some.inj hlink)).2
    have ha0 : a ≠ 0 := fun hz => by
      rw [hz, h0] at hc
      cases hc
    obtain ⟨m₁, hrun, htabled, hrelinked, hframe, harrays⟩ := h.insertData h0 hc habs
    have hperm := Buckets.perm_insert h.placed.pos a (h := m.hashAt nodeId)
    cases fuel with
    | zero => exact absurd hfuel (Nat.not_succ_le_zero _)
    | succ fuel =>
      have hsame : ∀ x ∈ chain, m₁.cells x = m.cells x := fun x hx => by
        refine hframe x (fun heq => hachain (heq ▸ hx)) fun hmem => ?_
        exact (List.nodup_append.1 hnd').2.2 x hx x hmem rfl
      obtain ⟨m', hloop, htabled', hrelinked', hframe', harrays'⟩ :=
        ih htabled (by rw [← Option.not_isSome_iff_eq_none, hrelinked.isSome, h0]; exact Bool.false_ne_true)
          (seg_congr (fun x hx => by rw [links, links, hsame x hx]) hrest)
          (by
            refine (List.Perm.append_left chain hperm).nodup_iff.2 ?_
            exact List.perm_middle.nodup_iff.2 hnd)
          (fun x hx => by rw [hsame x hx]; exact hsome x (List.mem_cons_of_mem _ hx))
          (Nat.le_of_succ_le_succ hfuel) (total + 1)
      refine ⟨m', ?_, ?_, hrelinked.trans hrelinked', fun x hx hmem => ?_, fun b hb => ?_⟩
      · rw [TrieHash.moveChain.eq_def]
        simp only [List.headD_cons, if_neg ha0, hc, Option.bind_eq_bind, Option.bind_some, hrun,
          hnext, hloop, List.length_cons]
        rw [Nat.add_right_comm, Nat.add_assoc]
      · rw [hrelinked.hashAt] at htabled'
        exact htabled'
      · obtain ⟨hxa, hxchain⟩ := not_or.1 (mt List.mem_cons.2 hx)
        rw [hframe' x hxchain fun hin => ?_, hframe x hxa hmem]
        rcases List.mem_cons.1 (hperm.mem_iff.1 hin) with heq | hin
        · exact hxa heq
        · exact hmem hin
      · rw [harrays' b hb, harrays b hb]

theorem exists_getD_of_mem {c : List ℕ} (hc : c ∈ bs) : ∃ i, bs.getD i [] = c := by
  obtain ⟨i, hi, rfl⟩ := List.getElem_of_mem hc
  exact ⟨i, by rw [List.getD_eq_getElem?_getD, List.getElem?_eq_getElem hi, Option.getD_some]⟩

/-- The table depends on its children and on its array only. -/
theorem congr (h : Tabled nodeId m t bs) (hcells : ∀ x ∈ bs.flatten, m'.cells x = m.cells x)
    (harrays : m'.arrays t.buckets = m.arrays t.buckets) : Tabled nodeId m' t bs := by
  have hin : ∀ {i x}, x ∈ bs.getD i [] → m'.cells x = m.cells x := fun hx =>
    hcells _ (mem_flatten_of_getD hx)
  refine ⟨h.length, harrays.trans h.heads, fun i => ?_, h.nodup, ⟨h.placed.pos, fun i x hx => ?_⟩,
    fun i x hx => ?_, fun x hx => ?_⟩
  · exact seg_congr (fun x hx => by rw [links, links, hin hx]) (h.linked i)
  · rw [← h.placed.index_eq i x hx, Buckets.index, Buckets.index, hashAt, hashAt, data, data, hin hx]
  · rw [LevelHeap.bucket, hin hx]
    exact h.bucket i x hx
  · rw [hcells x hx]
    exact h.allocated x hx

theorem withTotal (h : Tabled nodeId m t bs) (total : ℕ) :
    Tabled nodeId m { t with total := total } bs :=
  ⟨h.length, h.heads, h.linked, h.nodup, h.placed, h.bucket, h.allocated⟩

/-- A new array is a table without children. -/
theorem newArray (m : LevelHeap) {n : ℕ} (hn : 0 < n) (total : ℕ) :
    Tabled nodeId (m.newArray n) ⟨m.freshArray, n, total⟩ (Buckets.empty n) := by
  have hget : ∀ i, (Buckets.empty n : List (List ℕ)).getD i [] = [] := by
    intro i
    rw [List.getD_eq_getElem?_getD, Buckets.empty, List.getElem?_replicate]
    split <;> rfl
  have hflat : (Buckets.empty n : List (List ℕ)).flatten = [] := by
    simp [Buckets.empty]
  refine ⟨List.length_replicate, ?_, fun i => ?_, ?_, Buckets.placed_empty hn, fun i x hx => ?_,
    fun x hx => ?_⟩
  · refine (Function.update_self ..).trans (congrArg some ?_)
    rw [Buckets.empty, List.map_replicate]
    rfl
  · rw [hget]
    trivial
  · rw [hflat]
    exact List.nodup_nil
  · rw [hget] at hx
    cases hx
  · rw [hflat] at hx
    cases hx

theorem length_le_of_lt {l : List ℕ} {n : ℕ} (hnd : l.Nodup) (hlt : ∀ a ∈ l, a < n) :
    l.length ≤ n := by
  have hsub : l.Subperm (List.range n) :=
    List.subperm_of_subset hnd fun a ha => List.mem_range.2 (hlt a ha)
  have hle := hsub.length_le
  rwa [List.length_range] at hle

/-- **All chains of a table go into another one.** -/
theorem moveBuckets (h : Tabled nodeId m t bs) (h0 : m.cells 0 = none) {chains : List (List ℕ)}
    (hs : ∀ c ∈ chains, Seg m.links 0 c 0) (hnd : (chains.flatten ++ bs.flatten).Nodup)
    (hsome : ∀ a ∈ chains.flatten, (m.cells a).isSome)
    (hfuel : ∀ a ∈ chains.flatten, a < m.fresh) :
    ∃ m', t.moveBuckets nodeId (chains.map fun c => c.headD 0) m = some m' ∧
      Tabled nodeId m' t (chains.flatten.foldl (Buckets.insert (m.hashAt nodeId)) bs) ∧
        Relinked m m' ∧ ∀ b, b ≠ t.buckets → m'.arrays b = m.arrays b := by
  induction chains generalizing m bs with
  | nil => exact ⟨m, rfl, h, .refl m, fun b _ => rfl⟩
  | cons c chains ih =>
    rw [List.flatten_cons] at hnd hsome hfuel
    rw [List.append_assoc] at hnd
    obtain ⟨hc, hrest, hdisj⟩ := List.nodup_append.1 hnd
    have hnd₁ : (c ++ bs.flatten).Nodup :=
      ((List.sublist_append_right chains.flatten bs.flatten).append_left c).nodup hnd
    obtain ⟨m₁, hrun, htabled, hrelinked, hframe, harrays⟩ := h.moveChain h0
      (hs c List.mem_cons_self) hnd₁ (fun a ha => hsome a (List.mem_append_left _ ha))
      (length_le_of_lt hc fun a ha => hfuel a (List.mem_append_left _ ha)) 0
    have hsame : ∀ x ∈ chains.flatten, m₁.cells x = m.cells x := fun x hx =>
      hframe x (fun hin => hdisj x hin x (List.mem_append_left _ hx) rfl) fun hin =>
        (List.nodup_append.1 hrest).2.2 x hx x hin rfl
    have hperm := (Buckets.placed_foldl_insert c h.placed).2
    obtain ⟨m', hloop, htabled', hrelinked', harrays'⟩ := ih htabled
      (by rw [← Option.not_isSome_iff_eq_none, hrelinked.isSome, h0]; exact Bool.false_ne_true)
      (fun c' hc' => seg_congr (fun x hx => by
        rw [links, links, hsame x (List.mem_flatten_of_mem hc' hx)])
        (hs c' (List.mem_cons_of_mem _ hc')))
      (by
        refine (List.Perm.append_left _ hperm).nodup_iff.2 ?_
        refine (List.Perm.nodup_iff ?_).2 hnd
        rw [← List.append_assoc, ← List.append_assoc]
        exact List.Perm.append_right _ List.perm_append_comm)
      (fun x hx => by rw [hsame x hx]; exact hsome x (List.mem_append_right _ hx))
      (fun x hx => by rw [hrelinked.fresh]; exact hfuel x (List.mem_append_right _ hx))
    refine ⟨m', ?_, ?_, hrelinked.trans hrelinked', fun b hb => ?_⟩
    · rw [List.map_cons, TrieHash.moveBuckets, hrun]
      exact hloop
    · rw [hrelinked.hashAt] at htabled'
      rw [List.flatten_cons, List.foldl_append]
      exact htabled'
    · rw [harrays' b hb, harrays b hb]

end Tabled

/-! ## The invariant -/

/-- A level that is a list: the children are one chain, and none has a bucket. -/
structure ListOk (m : LevelHeap) (first : ℕ) (chain : List ℕ) : Prop where
  first : first = chain.headD 0
  linked : Seg m.links 0 chain 0
  nodup : chain.Nodup
  bucket : ∀ a ∈ chain, m.bucket a = none
  children : ∀ a, (m.cells a).isSome ↔ a ∈ chain

/-- A level that is a table: the children are those in its buckets, and it counts them. -/
structure HashOk (nodeId : BitVec 64 → ℕ) (m : LevelHeap) (t : TrieHash) (bs : List (List ℕ)) :
    Prop extends Tabled nodeId m t bs where
  total : t.total = bs.flatten.length
  children : ∀ a, (m.cells a).isSome ↔ a ∈ bs.flatten

/-- Addresses that are not given out yet are not in use, and null is never. -/
structure Bounded (m : LevelHeap) : Prop where
  zero : m.cells 0 = none
  pos : 0 < m.fresh
  cells : ∀ a, (m.cells a).isSome → a < m.fresh
  arrays : ∀ b, (m.arrays b).isSome → b < m.freshArray

/-- The children of a level are linked as they should be. -/
def LinksOk (nodeId : BitVec 64 → ℕ) (L : TrieLevel) : Prop :=
  match L.child with
  | .list first => ∃ chain, ListOk L.heap first chain
  | .hash t => ∃ bs, HashOk nodeId L.heap t bs
  | .deleted => ∀ a, L.heap.cells a = none

/-- The states of a level. -/
inductive Reach (nodeId : BitVec 64 → ℕ) (isRoot : Bool) : TrieLevel → Prop where
  | empty : Reach nodeId isRoot .empty
  | convertHash {L L' : TrieLevel} (h : Reach nodeId isRoot L)
      (hL' : L.convertHash nodeId = some L') : Reach nodeId isRoot L'
  | expand {L L' : TrieLevel} (h : Reach nodeId isRoot L) (hL' : L.expand nodeId = some L') :
      Reach nodeId isRoot L'
  | insert {L L' : TrieLevel} (d : TrieData) (h : Reach nodeId isRoot L)
      (hL' : L.insert nodeId d = some L') : Reach nodeId isRoot L'
  | deletePath {L L' : TrieLevel} (node : ℕ) (h : Reach nodeId isRoot L)
      (hL' : L.deletePath isRoot node = some L') : Reach nodeId isRoot L'

variable {L L' : TrieLevel} {isRoot : Bool}

theorem Bounded.relinked (h : Bounded m) (hrelinked : Relinked m m')
    (harrays : ∀ b, (m'.arrays b).isSome → b < m.freshArray) : Bounded m' where
  zero := by
    rw [← Option.not_isSome_iff_eq_none, hrelinked.isSome, h.zero]
    exact Bool.false_ne_true
  pos := by
    rw [hrelinked.fresh]
    exact h.pos
  cells a ha := by
    rw [hrelinked.isSome] at ha
    rw [hrelinked.fresh]
    exact h.cells a ha
  arrays b hb := by
    rw [hrelinked.freshArray]
    exact harrays b hb

theorem arrays_newArray {n b : ℕ} (hb : b ≠ m.freshArray) :
    (m.newArray n).arrays b = m.arrays b := Function.update_of_ne hb _ _

theorem Bounded.newArray (h : Bounded m) (n : ℕ) : Bounded (m.newArray n) where
  zero := h.zero
  pos := h.pos
  cells := h.cells
  arrays b hb := by
    by_cases hfresh : b = m.freshArray
    · exact hfresh ▸ Nat.lt_succ_self _
    · rw [arrays_newArray hfresh] at hb
      exact Nat.lt_succ_of_lt (h.arrays b hb)

theorem isSome_arrays_deleteArray {b b' : ℕ} (h : ((m.deleteArray b).arrays b').isSome) :
    (m.arrays b').isSome := by
  by_cases heq : b' = b
  · rw [heq, LevelHeap.deleteArray] at h
    simp at h
  · have hsame : (m.deleteArray b).arrays b' = m.arrays b' := Function.update_of_ne heq _ _
    rwa [hsame] at h

theorem Bounded.deleteArray (h : Bounded m) (b : ℕ) : Bounded (m.deleteArray b) where
  zero := h.zero
  pos := h.pos
  cells := h.cells
  arrays b' hb' := h.arrays b' (isSome_arrays_deleteArray hb')

/-- A table from a list. -/
theorem convertHash_spec (h : LinksOk nodeId L) (hb : Bounded L.heap) {first : ℕ}
    (hchild : L.child = .list first) :
    ∃ L', L.convertHash nodeId = some L' ∧ LinksOk nodeId L' ∧ Bounded L'.heap := by
  obtain ⟨m, child⟩ := L
  subst hchild
  obtain ⟨chain, hok⟩ := h
  obtain ⟨hfirst, hlinked, hnodup, -, hchildren⟩ := hok
  have hempty : (Buckets.empty Trie.hashBaseBuckets : List (List ℕ)).flatten = [] := by
    simp [Buckets.empty]
  have hnew : Tabled nodeId (m.newArray Trie.hashBaseBuckets)
      ⟨m.freshArray, Trie.hashBaseBuckets, 0⟩ (Buckets.empty Trie.hashBaseBuckets) :=
    .newArray m (by decide) 0
  obtain ⟨m', hrun, htabled, hrelinked, -, harrays⟩ := hnew.moveChain (hb.newArray _).zero hlinked
    (by rw [hempty, List.append_nil]; exact hnodup) (fun a ha => (hchildren a).2 ha)
    (Tabled.length_le_of_lt hnodup fun a ha => hb.cells a ((hchildren a).2 ha)) 0
  have hperm := (Buckets.placed_foldl_insert chain hnew.placed).2
  rw [hempty, List.append_nil] at hperm
  refine ⟨⟨m', .hash ⟨m.freshArray, Trie.hashBaseBuckets, chain.length⟩⟩, ?_,
    ⟨_, htabled.withTotal chain.length, hperm.length_eq.symm, fun a => ?_⟩, ?_⟩
  · rw [convertHash]
    simp only [hfirst, hrun, Option.bind_eq_bind, Option.bind_some, Nat.zero_add]
    rfl
  · rw [hrelinked.isSome, hperm.mem_iff]
    exact hchildren a
  · refine (hb.newArray _).relinked hrelinked fun b hb' => ?_
    by_cases hfresh : b = m.freshArray
    · exact hfresh ▸ Nat.lt_succ_self _
    · rw [harrays b hfresh] at hb'
      exact (hb.newArray _).arrays b hb'

/-- A table of twice the size. -/
theorem expand_spec (h : LinksOk nodeId L) (hb : Bounded L.heap) (hchild : L.child = .hash t) :
    ∃ L', L.expand nodeId = some L' ∧ LinksOk nodeId L' ∧ Bounded L'.heap := by
  obtain ⟨m, child⟩ := L
  subst hchild
  obtain ⟨bs, hok⟩ := h
  have hlt : t.buckets < m.freshArray := hb.arrays _ (by rw [hok.heads]; rfl)
  have hpos : 0 < t.numBuckets * 2 := by
    have := hok.placed.pos
    rw [hok.length] at this
    omega
  have hempty : (Buckets.empty (t.numBuckets * 2) : List (List ℕ)).flatten = [] := by
    simp [Buckets.empty]
  have hnew : Tabled nodeId (m.newArray (t.numBuckets * 2))
      ⟨m.freshArray, t.numBuckets * 2, t.total⟩ (Buckets.empty (t.numBuckets * 2)) :=
    .newArray m hpos t.total
  obtain ⟨m', hrun, htabled, hrelinked, harrays⟩ := hnew.moveBuckets (hb.newArray _).zero
    (fun c hc => by
      obtain ⟨i, rfl⟩ := Tabled.exists_getD_of_mem hc
      exact hok.linked i)
    (by rw [hempty, List.append_nil]; exact hok.nodup) (fun a ha => (hok.children a).2 ha)
    (fun a ha => hb.cells a ((hok.children a).2 ha))
  have hperm := (Buckets.placed_foldl_insert bs.flatten hnew.placed).2
  rw [hempty, List.append_nil] at hperm
  have htabled' : Tabled nodeId (m'.deleteArray t.buckets)
      ⟨m.freshArray, t.numBuckets * 2, t.total⟩ _ :=
    htabled.congr (fun x _ => rfl) (Function.update_of_ne (Nat.ne_of_gt hlt) _ _)
  refine ⟨⟨m'.deleteArray t.buckets, .hash ⟨m.freshArray, t.numBuckets * 2, t.total⟩⟩, ?_,
    ⟨_, htabled', ?_, fun a => ?_⟩, ?_⟩
  · have hheads : m.arrays t.buckets = some (bs.map fun c => c.headD 0) := hok.heads
    rw [expand]
    simp only [hheads, hrun, Option.bind_eq_bind, Option.bind_some]
    rfl
  · exact hok.total.trans hperm.length_eq.symm
  · rw [hperm.mem_iff, ← hok.children a]
    exact iff_of_eq (congrArg (· = true) (hrelinked.isSome a))
  · have hbounded := (hb.newArray (t.numBuckets * 2)).relinked hrelinked fun b hb' => by
      by_cases hfresh : b = m.freshArray
      · exact hfresh ▸ Nat.lt_succ_self _
      · rw [harrays b hfresh] at hb'
        exact (hb.newArray _).arrays b hb'
    exact hbounded.deleteArray t.buckets

theorem cells_newCell {d : TrieData} {x : ℕ} (hx : x ≠ m.fresh) :
    (m.newCell d).cells x = m.cells x := Function.update_of_ne hx _ _

theorem cells_newCell_self {d : TrieData} :
    (m.newCell d).cells m.fresh = some ⟨0, 0, d, none⟩ := Function.update_self ..

theorem Bounded.newCell (h : Bounded m) (d : TrieData) : Bounded (m.newCell d) where
  zero := by
    rw [cells_newCell (Nat.ne_of_lt h.pos)]
    exact h.zero
  pos := Nat.succ_pos _
  cells a ha := by
    by_cases hfresh : a = m.fresh
    · exact hfresh ▸ Nat.lt_succ_self _
    · rw [cells_newCell hfresh] at ha
      exact Nat.lt_succ_of_lt (h.cells a ha)
  arrays := h.arrays

theorem isSome_newCell (d : TrieData) (x : ℕ) :
    ((m.newCell d).cells x).isSome ↔ x = m.fresh ∨ (m.cells x).isSome := by
  by_cases hx : x = m.fresh
  · rw [hx, cells_newCell_self]
    simp
  · rw [cells_newCell hx]
    simp [hx]

/-- A new child. -/
theorem insert_spec (h : LinksOk nodeId L) (hb : Bounded L.heap) (d : TrieData)
    (hchild : L.child ≠ .deleted) :
    ∃ L', L.insert nodeId d = some L' ∧ LinksOk nodeId L' ∧ Bounded L'.heap := by
  obtain ⟨m, child⟩ := L
  have hb' := Bounded.newCell hb d
  have hfresh : ∀ {l : List ℕ}, (∀ a, (m.cells a).isSome ↔ a ∈ l) → m.fresh ∉ l :=
    fun hl hmem => Nat.lt_irrefl _ (hb.cells _ ((hl _).2 hmem))
  cases child with
  | deleted => exact absurd rfl hchild
  | hash t =>
    obtain ⟨bs, hok⟩ := h
    have hnew := hfresh hok.children
    have htabled : Tabled nodeId (m.newCell d) { t with total := t.total + 1 } bs :=
      (hok.toTabled.withTotal _).congr (fun x hx => cells_newCell fun heq => hnew (heq ▸ hx)) rfl
    obtain ⟨m', hrun, htabled', hrelinked, -, harrays⟩ :=
      htabled.insertData hb'.zero cells_newCell_self hnew
    have hperm := Buckets.perm_insert hok.placed.pos m.fresh (h := (m.newCell d).hashAt nodeId)
    refine ⟨⟨m', .hash { t with total := t.total + 1 }⟩, ?_, ⟨_, htabled', ?_, fun a => ?_⟩, ?_⟩
    · rw [insert]
      simp only [hrun, Option.bind_eq_bind, Option.bind_some]
      rfl
    · rw [hperm.length_eq, List.length_cons, hok.total]
    · rw [hrelinked.isSome, isSome_newCell, hperm.mem_iff, List.mem_cons, hok.children a]
    · refine hb'.relinked hrelinked fun b hbs => ?_
      by_cases hbt : b = t.buckets
      · exact hb.arrays b (by rw [hbt, hok.heads]; rfl)
      · rw [harrays b hbt] at hbs
        exact hb.arrays b hbs
  | list first =>
    obtain ⟨chain, hfirst, hlinked, hnodup, hbucket, hchildren⟩ := h
    have hnew := hfresh hchildren
    have hsame : ∀ x ∈ chain, (m.newCell d).cells x = m.cells x := fun x hx =>
      cells_newCell fun heq => hnew (heq ▸ hx)
    have hsome : ((m.newCell d).cells m.fresh).isSome := by
      rw [cells_newCell_self]
      rfl
    have halloc : ∀ x ∈ chain, ((m.newCell d).cells x).isSome := fun x hx => by
      rw [hsame x hx]
      exact (hchildren x).2 hx
    have hseg := seg_push hsome (List.nodup_cons.2 ⟨hnew, hnodup⟩)
      (Tabled.zero_not_mem hb'.zero fun x hx => by
        rcases List.mem_cons.1 hx with rfl | hx
        · exact hsome
        · exact halloc x hx)
      (seg_congr (fun x hx => by rw [links, links, hsame x hx]) hlinked)
    have hrelinked := push_relinked (m.newCell d) m.fresh (chain.headD 0)
    refine ⟨⟨(m.newCell d).push m.fresh (chain.headD 0), .list m.fresh⟩, ?_,
      ⟨m.fresh :: chain, rfl, hseg, List.nodup_cons.2 ⟨hnew, hnodup⟩, fun a ha => ?_, fun a => ?_⟩,
      hb'.relinked hrelinked hb.arrays⟩
    · have hmodify : ((m.newCell d).modify m.fresh
          fun c => { c with prev := 0, next := chain.headD 0 }).cells 0 = none := by
        rw [← Option.not_isSome_iff_eq_none, isSome_modify, hb'.zero]
        exact Bool.false_ne_true
      have hhead : chain.headD 0 ≠ 0 → (((m.newCell d).modify m.fresh
          fun c => { c with prev := 0, next := chain.headD 0 }).cells (chain.headD 0)).isSome := by
        intro hne
        rw [isSome_modify]
        exact Tabled.head_isSome halloc hne
      subst hfirst
      rw [insert]
      simp only [Option.bind_eq_bind, updateCell_eq hsome, Option.bind_some,
        updateNonNull_eq hhead hmodify]
      rfl
    · rw [bucket_push]
      rcases List.mem_cons.1 ha with rfl | ha
      · rw [LevelHeap.bucket, cells_newCell_self]
        rfl
      · rw [LevelHeap.bucket, hsame a ha]
        exact hbucket a ha
    · rw [hrelinked.isSome, isSome_newCell, List.mem_cons, hchildren a]

theorem cells_deleteCell {x : ℕ} (hx : x ≠ a) : (m.deleteCell a).cells x = m.cells x :=
  Function.update_of_ne hx _ _

theorem isSome_deleteCell (x : ℕ) :
    ((m.deleteCell a).cells x).isSome ↔ x ≠ a ∧ (m.cells x).isSome := by
  by_cases hx : x = a
  · subst hx
    simp [LevelHeap.deleteCell]
  · rw [cells_deleteCell hx]
    simp [hx]

theorem Bounded.deleteCell (h : Bounded m) (a : ℕ) : Bounded (m.deleteCell a) where
  zero := by
    rw [← Option.not_isSome_iff_eq_none, isSome_deleteCell, h.zero]
    simp
  pos := h.pos
  cells x hx := h.cells x ((isSome_deleteCell x).1 hx).2
  arrays := h.arrays

/-- A child and its neighbours in a chain. -/
theorem exists_neighbours {chain : List ℕ} (hs : Seg m.links 0 chain 0) (ha : a ∈ chain) :
    ∃ xs ys c, chain = xs ++ a :: ys ∧ m.cells a = some c ∧ c.prev = xs.getLastD 0 ∧
      c.next = ys.headD 0 := by
  obtain ⟨xs, ys, rfl⟩ := List.append_of_mem ha
  obtain ⟨-, hlink, -⟩ := seg_append.1 hs
  rw [links, Option.map_eq_some_iff] at hlink
  obtain ⟨c, hc, heq⟩ := hlink
  obtain ⟨hprev, hnext⟩ := Prod.mk.inj heq
  exact ⟨xs, ys, c, rfl, hc, hprev, hnext⟩

/-- The two writes of `delete_path` to the neighbours. -/
theorem unlink_eq {xs ys : List ℕ} (h0 : m.cells 0 = none)
    (hsome : ∀ x ∈ xs ++ a :: ys, (m.cells x).isSome) :
    (m.updateNonNull (xs.getLastD 0) fun p => { p with next := ys.headD 0 }).bind
      (fun m => m.updateNonNull (ys.headD 0) fun n => { n with prev := xs.getLastD 0 }) =
        some (m.unlink (xs.getLastD 0) (ys.headD 0)) := by
  have hlast : xs.getLastD 0 ≠ 0 → (m.cells (xs.getLastD 0)).isSome := fun hne =>
    hsome _ (List.mem_append_left _ (getLastD_mem fun hnil => hne (by rw [hnil]; rfl)))
  have hhead : ys.headD 0 ≠ 0 → (m.cells (ys.headD 0)).isSome := fun hne =>
    hsome _ (List.mem_append_right _ (List.mem_cons_of_mem _
      (headD_mem fun hnil => hne (by rw [hnil]; rfl))))
  rw [updateNonNull_eq hlast h0, Option.bind_some, updateNonNull_eq]
  · rfl
  · rw [isSome_modify]
    exact hhead
  · rw [← Option.not_isSome_iff_eq_none, isSome_modify, h0]
    exact Bool.false_ne_true

theorem bind_unlink {xs ys : List ℕ} (h0 : m.cells 0 = none)
    (hsome : ∀ x ∈ xs ++ a :: ys, (m.cells x).isSome) (k : LevelHeap → Option TrieLevel) :
    ((m.updateNonNull (xs.getLastD 0) fun p => { p with next := ys.headD 0 }).bind fun m =>
      (m.updateNonNull (ys.headD 0) fun n => { n with prev := xs.getLastD 0 }).bind k) =
        k (m.unlink (xs.getLastD 0) (ys.headD 0)) := by
  rw [← Option.bind_assoc, unlink_eq h0 hsome, Option.bind_some]

/-- A level without children. -/
theorem linksOk_emptied (isRoot : Bool) {first : ℕ} (h : ListOk m first []) :
    LinksOk nodeId ⟨m, emptied isRoot⟩ := by
  cases isRoot with
  | true => exact ⟨[], rfl, trivial, List.nodup_nil, nofun, h.children⟩
  | false =>
    intro a
    rw [← Option.not_isSome_iff_eq_none, h.children]
    exact List.not_mem_nil

/-- The children that are left when one is deleted. -/
theorem isSome_unlink_deleteCell (p n x : ℕ) :
    (((m.unlink p n).deleteCell a).cells x).isSome ↔ x ≠ a ∧ (m.cells x).isSome := by
  rw [isSome_deleteCell, (unlink_relinked m p n).isSome]

theorem getLastD_eq_zero_iff {xs : List ℕ} (h0 : 0 ∉ xs) : xs.getLastD 0 = 0 ↔ xs = [] := by
  refine ⟨fun hz => ?_, fun hnil => by rw [hnil]; rfl⟩
  by_contra hne
  exact h0 (hz ▸ getLastD_mem hne)

theorem headD_eq_zero_iff {xs : List ℕ} (h0 : 0 ∉ xs) : xs.headD 0 = 0 ↔ xs = [] := by
  refine ⟨fun hz => ?_, fun hnil => by rw [hnil]; rfl⟩
  by_contra hne
  exact h0 (hz ▸ headD_mem hne)

/-- A child of a list is deleted. -/
theorem ListOk.deletePath {first : ℕ} {chain : List ℕ} (h : ListOk m first chain) (hb : Bounded m)
    (isRoot : Bool) (ha : (m.cells a).isSome) :
    ∃ L', TrieLevel.deletePath isRoot a ⟨m, .list first⟩ = some L' ∧ LinksOk nodeId L' ∧
      Bounded L'.heap := by
  obtain ⟨xs, ys, c, rfl, hc, hprev, hnext⟩ := exists_neighbours h.linked ((h.children a).1 ha)
  have hsome : ∀ x ∈ xs ++ a :: ys, (m.cells x).isSome := fun x hx => (h.children x).2 hx
  have h0 := Tabled.zero_not_mem hb.zero hsome
  have hbucket : c.bucket = none := by
    have hnone := h.bucket a ((h.children a).1 ha)
    rwa [LevelHeap.bucket, hc] at hnone
  have hnd := h.nodup
  have hsub : (xs ++ ys).Sublist (xs ++ a :: ys) := (List.sublist_cons_self a ys).append_left xs
  have hperm : (xs ++ a :: ys).Perm (a :: (xs ++ ys)) := List.perm_middle
  have hnot : a ∉ xs ++ ys := (List.nodup_cons.1 (hperm.nodup_iff.1 hnd)).1
  set m₁ := m.unlink (xs.getLastD 0) (ys.headD 0) with hm₁
  have heq : TrieLevel.deletePath isRoot a ⟨m, .list first⟩ =
      if xs.getLastD 0 = 0 then
        if first = a then
          some ⟨m₁.deleteCell a, if ys.headD 0 = 0 then emptied isRoot else .list (ys.headD 0)⟩
        else none
      else some ⟨m₁.deleteCell a, .list first⟩ := by
    rw [TrieLevel.deletePath]
    simp only [hc, Option.bind_eq_bind, Option.bind_some, hprev, hnext, hbucket]
    exact bind_unlink hb.zero hsome _
  have hok : ListOk (m₁.deleteCell a) ((xs ++ ys).headD 0) (xs ++ ys) := by
    have hne : ∀ x ∈ xs ++ ys, x ≠ a := fun x hx hxa => hnot (hxa ▸ hx)
    refine ⟨rfl, ?_, hsub.nodup hnd, fun x hx => ?_, fun x => ?_⟩
    · refine seg_congr (fun x hx => ?_) (seg_unlink hb.zero hnd h0 h.linked)
      rw [links, links, cells_deleteCell (hne x hx)]
    · rw [LevelHeap.bucket, cells_deleteCell (hne x hx)]
      exact (bucket_unlink m _ _ x).trans (h.bucket x (hsub.subset hx))
    · rw [isSome_unlink_deleteCell, h.children, hperm.mem_iff, List.mem_cons]
      refine ⟨fun hx => hx.2.resolve_left hx.1, fun hx => ⟨hne x hx, Or.inr hx⟩⟩
  have hb₁ : Bounded (m₁.deleteCell a) :=
    (hb.relinked (unlink_relinked m _ _) hb.arrays).deleteCell a
  rw [heq]
  by_cases hxs : xs = []
  · subst hxs
    have hfirst : first = a := h.first
    rw [if_pos (show ([] : List ℕ).getLastD 0 = 0 from rfl), if_pos hfirst]
    refine ⟨_, rfl, ?_, hb₁⟩
    by_cases hys : ys = []
    · subst hys
      rw [if_pos (show ([] : List ℕ).headD 0 = 0 from rfl)]
      exact linksOk_emptied isRoot hok
    · have h0ys : 0 ∉ ys := fun hmem => h0 (List.mem_cons_of_mem _ hmem)
      rw [if_neg fun hz => hys ((headD_eq_zero_iff h0ys).1 hz)]
      exact ⟨_, hok⟩
  · have h0xs : 0 ∉ xs := fun hmem => h0 (List.mem_append_left _ hmem)
    rw [if_neg fun hz => hxs ((getLastD_eq_zero_iff h0xs).1 hz)]
    refine ⟨_, rfl, ⟨xs ++ ys, ?_⟩, hb₁⟩
    have hfirst : first = (xs ++ ys).headD 0 := by
      rw [h.first]
      cases xs with
      | nil => exact absurd rfl hxs
      | cons x xs => rfl
    rw [hfirst]
    exact hok

theorem map_headD_modify_set (bs : List (List ℕ)) {i : ℕ} (hi : i < bs.length)
    (f : List ℕ → List ℕ) :
    (bs.modify i f).map (fun c => c.headD 0) =
      (bs.map fun c => c.headD 0).set i ((f (bs.getD i [])).headD 0) := by
  refine List.ext_getElem? fun j => ?_
  rw [List.getElem?_map, List.getElem?_modify, List.getElem?_set, List.getElem?_map]
  by_cases hj : i = j
  · subst hj
    simp [hi]
  · simp [hj]

theorem erase_middle {xs ys : List ℕ} (hnd : (xs ++ a :: ys).Nodup) :
    (xs ++ a :: ys).erase a = xs ++ ys := by
  have hnot : a ∉ xs := fun hmem => (List.nodup_append.1 hnd).2.2 a hmem a List.mem_cons_self rfl
  rw [List.erase_append_right _ hnot, List.erase_cons_head]

/-- The table without a child. -/
theorem Tabled.erase (h : Tabled nodeId m t bs) (h0 : m.cells 0 = none) {i : ℕ} {xs ys : List ℕ}
    (hchain : bs.getD i [] = xs ++ a :: ys)
    (hm' : ∀ x, x ≠ a → m'.cells x = (m.unlink (xs.getLastD 0) (ys.headD 0)).cells x)
    (harrays : m'.arrays t.buckets =
      some ((Buckets.erase (m.hashAt nodeId) bs a).map fun c => c.headD 0)) :
    Tabled nodeId m' t (Buckets.erase (m.hashAt nodeId) bs a) := by
  have hai : a ∈ bs.getD i [] := by
    rw [hchain]
    exact List.mem_append_right _ List.mem_cons_self
  have ha := mem_flatten_of_getD hai
  have hindex := h.placed.index_eq i a hai
  have hilt := Buckets.index_lt h.placed.pos a (h := m.hashAt nodeId)
  rw [hindex] at hilt
  have hnd := nodup_getD h.nodup i
  have hbucket : ∀ j, (Buckets.erase (m.hashAt nodeId) bs a).getD j [] =
      if j = i then xs ++ ys else bs.getD j [] := by
    intro j
    rw [Buckets.erase, hindex, Buckets.getD_modify bs _ hilt, hchain, erase_middle (hchain ▸ hnd)]
  have hperm := h.placed.perm_erase ha
  have hnd' : (a :: (Buckets.erase (m.hashAt nodeId) bs a).flatten).Nodup :=
    hperm.nodup_iff.1 h.nodup
  have hne : ∀ {x}, x ∈ (Buckets.erase (m.hashAt nodeId) bs a).flatten → x ≠ a :=
    fun hx heq => (List.nodup_cons.1 hnd').1 (heq ▸ hx)
  have hold : ∀ {x}, x ∈ (Buckets.erase (m.hashAt nodeId) bs a).flatten → x ∈ bs.flatten :=
    fun hx => hperm.mem_iff.2 (List.mem_cons_of_mem _ hx)
  have hrelinked := unlink_relinked m (xs.getLastD 0) (ys.headD 0)
  have halloc : ∀ x ∈ xs ++ a :: ys, (m.cells x).isSome := fun x hx =>
    h.allocated x (mem_flatten_of_getD (hchain ▸ hx))
  have h0' := zero_not_mem h0 halloc
  have hlinked := h.linked i
  rw [hchain] at hlinked hnd
  have hsame : ∀ {j x}, x ∈ (Buckets.erase (m.hashAt nodeId) bs a).getD j [] →
      m'.cells x = (m.unlink (xs.getLastD 0) (ys.headD 0)).cells x := fun hx =>
    hm' _ (hne (mem_flatten_of_getD hx))
  have hapart : ∀ {j x}, j ≠ i → x ∈ bs.getD j [] → x ∉ xs ++ a :: ys := fun hj hx hmem =>
    hj ((h.placed.index_eq _ _ hx).symm.trans (h.placed.index_eq i _ (hchain ▸ hmem)))
  refine ⟨?_, harrays, fun j => ?_, (List.nodup_cons.1 hnd').2, ⟨?_, fun j x hx => ?_⟩,
    fun j x hx => ?_, fun x hx => ?_⟩
  · rw [Buckets.length_erase, h.length]
  · have hseg : Seg (m.unlink (xs.getLastD 0) (ys.headD 0)).links 0
        ((Buckets.erase (m.hashAt nodeId) bs a).getD j []) 0 := by
      rw [hbucket]
      split
      · exact seg_unlink h0 hnd h0' hlinked
      · rename_i hj
        refine seg_congr (fun x hx => ?_) (h.linked j)
        have hx0 : x ≠ 0 := fun hz =>
          zero_not_mem h0 h.allocated (hz ▸ mem_flatten_of_getD hx)
        have hnot := hapart hj hx
        rw [links, links, cells_unlink]
        · rintro rfl
          exact hnot (List.mem_append_left _ (getLastD_mem fun hnil => hx0 (by rw [hnil]; rfl)))
        · rintro rfl
          exact hnot (List.mem_append_right _ (List.mem_cons_of_mem _
            (headD_mem fun hnil => hx0 (by rw [hnil]; rfl))))
    exact seg_congr (fun x hx => by rw [links, links, hsame hx]) hseg
  · rw [Buckets.length_erase]
    exact h.placed.pos
  · have hdata := hrelinked.data x
    rw [data, ← hsame hx, ← data] at hdata
    rw [Buckets.index, hashAt, hdata, ← hashAt, ← Buckets.index]
    exact (h.placed.erase a).index_eq j x hx
  · rw [LevelHeap.bucket, hsame hx, ← LevelHeap.bucket, bucket_unlink]
    rw [hbucket] at hx
    split at hx
    · rename_i hj
      subst hj
      refine h.bucket j x ?_
      rw [hchain]
      exact ((List.sublist_cons_self a ys).append_left xs).subset hx
    · exact h.bucket j x hx
  · rw [hm' x (hne hx), hrelinked.isSome]
    exact h.allocated x (hold hx)

/-- A child of a table is deleted. -/
theorem HashOk.deletePath (h : HashOk nodeId m t bs) (hb : Bounded m) (isRoot : Bool)
    (ha : (m.cells a).isSome) :
    ∃ L', TrieLevel.deletePath isRoot a ⟨m, .hash t⟩ = some L' ∧ LinksOk nodeId L' ∧
      Bounded L'.heap := by
  have hmem := (h.children a).1 ha
  have hai := (h.placed.mem_flatten a).1 hmem
  set i := Buckets.index (m.hashAt nodeId) bs.length a with hidef
  have hilt : i < bs.length := Buckets.index_lt h.placed.pos a
  obtain ⟨xs, ys, c, hchain, hc, hprev, hnext⟩ := exists_neighbours (h.linked i) hai
  have hsome : ∀ x ∈ xs ++ a :: ys, (m.cells x).isSome := fun x hx =>
    h.allocated x (Tabled.mem_flatten_of_getD (i := i) (hchain ▸ hx))
  have h0 := Tabled.zero_not_mem hb.zero hsome
  have hbucket : c.bucket = some (t.buckets, i) := by
    have hsomeBucket := h.bucket i a hai
    rwa [LevelHeap.bucket, hc] at hsomeBucket
  have hperm := h.placed.perm_erase hmem
  have htotal : t.total - 1 = (Buckets.erase (m.hashAt nodeId) bs a).flatten.length := by
    rw [h.total, hperm.length_eq, List.length_cons, Nat.add_sub_cancel]
  have hheads : (Buckets.erase (m.hashAt nodeId) bs a).map (fun c => c.headD 0) =
      (bs.map fun c => c.headD 0).set i ((xs ++ ys).headD 0) := by
    rw [Buckets.erase, ← hidef, map_headD_modify_set bs hilt, hchain,
      erase_middle (hchain ▸ Tabled.nodup_getD h.nodup i)]
  set m₁ := m.unlink (xs.getLastD 0) (ys.headD 0) with hm₁
  have hrelinked : Relinked m m₁ := unlink_relinked m _ _
  have hbound : ∀ m', Relinked m m' → (∀ b, (m'.arrays b).isSome → (m.arrays b).isSome) →
      Bounded (m'.deleteCell a) := fun m' hm' harrays =>
    (hb.relinked hm' fun b hbs => hb.arrays b (harrays b hbs)).deleteCell a
  have hchildren : ∀ m', Relinked m m' → ∀ x, ((m'.deleteCell a).cells x).isSome ↔
      x ∈ (Buckets.erase (m.hashAt nodeId) bs a).flatten := by
    intro m' hm' x
    have hnot : a ∉ (Buckets.erase (m.hashAt nodeId) bs a).flatten :=
      (List.nodup_cons.1 (hperm.nodup_iff.1 h.nodup)).1
    rw [isSome_deleteCell, hm'.isSome, h.children, hperm.mem_iff, List.mem_cons]
    exact ⟨fun hx => hx.2.resolve_left hx.1, fun hx => ⟨fun hxa => hnot (hxa ▸ hx), Or.inr hx⟩⟩
  have heq : TrieLevel.deletePath isRoot a ⟨m, .hash t⟩ =
      if xs.getLastD 0 = 0 then
        (m₁.setHead (t.buckets, i) (ys.headD 0)).bind fun m =>
          if t.total - 1 = 0 then
            some ⟨(m.deleteArray t.buckets).deleteCell a, emptied isRoot⟩
          else some ⟨m.deleteCell a, .hash { t with total := t.total - 1 }⟩
      else some ⟨m₁.deleteCell a, .hash { t with total := t.total - 1 }⟩ := by
    rw [TrieLevel.deletePath]
    simp only [hc, Option.bind_eq_bind, Option.bind_some, hprev, hnext, hbucket]
    exact bind_unlink hb.zero hsome _
  rw [heq]
  by_cases hxs : xs = []
  · -- the first of its bucket: the head is written through the bucket pointer
    have hset := setHead_eq (m := m₁) (v := ys.headD 0) h.heads (by rw [List.length_map]; exact hilt)
    have hheadsSome : (m.arrays t.buckets).isSome := by
      rw [h.heads]
      rfl
    subst hxs
    rw [if_pos (show ([] : List ℕ).getLastD 0 = 0 from rfl), hset, Option.bind_some]
    set m₂ := m₁.withHeads t.buckets ((bs.map fun c => c.headD 0).set i (ys.headD 0)) with hm₂
    have hrelinked₂ : Relinked m m₂ := hrelinked.withHeads _ _
    have harrays₂ : ∀ b, (m₂.arrays b).isSome → (m.arrays b).isSome := fun b hbs =>
      isSome_arrays_withHeads (m := m₁) hheadsSome hbs
    by_cases hlast : t.total - 1 = 0
    · rw [if_pos hlast]
      have hnil : (Buckets.erase (m.hashAt nodeId) bs a).flatten = [] :=
        List.length_eq_zero_iff.1 (htotal.symm.trans hlast)
      refine ⟨_, rfl, linksOk_emptied isRoot ⟨rfl, trivial, List.nodup_nil, fun _ hx => absurd hx List.not_mem_nil, ?_⟩, ?_⟩
      · exact hnil ▸ hchildren (m₂.deleteArray t.buckets) (hrelinked₂.deleteArray _)
      · exact hbound (m₂.deleteArray t.buckets) (hrelinked₂.deleteArray _) fun b hbs =>
          harrays₂ b (isSome_arrays_deleteArray hbs)
    · rw [if_neg hlast]
      have htabled : Tabled nodeId (m₂.deleteCell a) t (Buckets.erase (m.hashAt nodeId) bs a) :=
        h.toTabled.erase hb.zero hchain (fun x hx => cells_deleteCell hx) (by
          rw [hheads]
          exact Function.update_self ..)
      exact ⟨_, rfl, ⟨_, htabled.withTotal _, htotal, hchildren m₂ hrelinked₂⟩,
        hbound m₂ hrelinked₂ harrays₂⟩
  · have h0xs : 0 ∉ xs := fun hmem => h0 (List.mem_append_left _ hmem)
    rw [if_neg fun hz => hxs ((getLastD_eq_zero_iff h0xs).1 hz)]
    have hsame : (Buckets.erase (m.hashAt nodeId) bs a).map (fun c => c.headD 0) =
        bs.map fun c => c.headD 0 := by
      have hhead : (xs ++ ys).headD 0 = (id (bs.getD i [])).headD 0 := by
        rw [id, hchain]
        cases xs with
        | nil => exact absurd rfl hxs
        | cons x xs => rfl
      rw [hheads, hhead, ← map_headD_modify_set bs hilt, List.modify_id]
    have htabled : Tabled nodeId (m₁.deleteCell a) t (Buckets.erase (m.hashAt nodeId) bs a) :=
      h.toTabled.erase hb.zero hchain (fun x hx => cells_deleteCell hx) (by
        rw [hsame]
        exact h.heads)
    exact ⟨_, rfl, ⟨_, htabled.withTotal _, htotal, hchildren m₁ hrelinked⟩,
      hbound m₁ hrelinked fun b hbs => hbs⟩

/-- A child is deleted. -/
theorem deletePath_spec (h : LinksOk nodeId L) (hb : Bounded L.heap) (isRoot : Bool)
    (ha : (L.heap.cells a).isSome) :
    ∃ L', L.deletePath isRoot a = some L' ∧ LinksOk nodeId L' ∧ Bounded L'.heap := by
  obtain ⟨m, child⟩ := L
  cases child with
  | list first =>
    obtain ⟨chain, hok⟩ := h
    exact hok.deletePath hb isRoot ha
  | hash t =>
    obtain ⟨bs, hok⟩ := h
    exact hok.deletePath hb isRoot ha
  | deleted =>
    have hnone : m.cells a = none := h a
    rw [hnone] at ha
    cases ha

/-! ## Runs -/

theorem isSome_of_deletePath (h : L.deletePath isRoot a = some L') : (L.heap.cells a).isSome := by
  rw [deletePath] at h
  cases hc : L.heap.cells a with
  | none =>
    rw [hc] at h
    cases h
  | some c => rfl

/-- The children are linked as they should be after every sequence of operations. -/
theorem Reach.linksOk (h : Reach nodeId isRoot L) : LinksOk nodeId L ∧ Bounded L.heap := by
  induction h with
  | empty =>
    refine ⟨⟨[], rfl, trivial, List.nodup_nil, nofun, fun a => ?_⟩, rfl, Nat.one_pos, ?_, ?_⟩
    · rw [show TrieLevel.empty.heap.cells a = none from rfl]
      simp
    · intro a ha
      cases ha
    · intro b hb
      cases hb
  | @convertHash L L' h hL' ih =>
    cases hchild : L.child with
    | list first =>
      obtain ⟨L₁, hrun, hok⟩ := convertHash_spec ih.1 ih.2 hchild
      exact Option.some.inj (hrun.symm.trans hL') ▸ hok
    | hash t =>
      rw [TrieLevel.convertHash, hchild] at hL'
      cases hL'
    | deleted =>
      rw [TrieLevel.convertHash, hchild] at hL'
      cases hL'
  | @expand L L' h hL' ih =>
    cases hchild : L.child with
    | hash t =>
      obtain ⟨L₁, hrun, hok⟩ := expand_spec ih.1 ih.2 hchild
      exact Option.some.inj (hrun.symm.trans hL') ▸ hok
    | list first =>
      rw [TrieLevel.expand, hchild] at hL'
      cases hL'
    | deleted =>
      rw [TrieLevel.expand, hchild] at hL'
      cases hL'
  | @insert L L' d h hL' ih =>
    have hchild : L.child ≠ .deleted := by
      intro hdel
      rw [TrieLevel.insert, hdel] at hL'
      cases hL'
    obtain ⟨L₁, hrun, hok⟩ := insert_spec ih.1 ih.2 d hchild
    exact Option.some.inj (hrun.symm.trans hL') ▸ hok
  | @deletePath L L' node h hL' ih =>
    obtain ⟨L₁, hrun, hok⟩ := deletePath_spec ih.1 ih.2 isRoot (isSome_of_deletePath hL')
    exact Option.some.inj (hrun.symm.trans hL') ▸ hok

/-! ## The lookup -/

/-- The loop of `match` finds the first child of a chain with the symbol. -/
theorem matchLoop_eq {chain : List ℕ} {prv fuel : ℕ} (d : TrieData) (h0 : 0 ∉ chain)
    (hs : Seg m.links prv chain 0) (hfuel : chain.length ≤ fuel) :
    matchLoop m.cells d fuel (chain.headD 0) =
      some ((chain.find? fun a => decide (m.data a = some d)).getD 0) := by
  induction chain generalizing prv fuel with
  | nil =>
    rw [matchLoop.eq_def]
    rfl
  | cons a chain ih =>
    obtain ⟨hlink, hs'⟩ := hs
    rw [links, Option.map_eq_some_iff] at hlink
    obtain ⟨c, hc, hlinks⟩ := hlink
    obtain ⟨-, hnext⟩ := Prod.mk.inj hlinks
    have hdata : m.data a = some c.data := by rw [data, hc]; rfl
    cases fuel with
    | zero => exact absurd hfuel (Nat.not_succ_le_zero _)
    | succ fuel =>
      have ha : a ≠ 0 := fun hz => h0 (hz ▸ List.mem_cons_self)
      rw [List.headD_cons, matchLoop, if_neg ha, hc]
      simp only [Option.bind_eq_bind, Option.bind_some]
      by_cases hd : c.data = d
      · rw [if_pos hd, List.find?_cons_of_pos (by simp [hdata, hd])]
        rfl
      · rw [if_neg hd, List.find?_cons_of_neg (by simp [hdata, hd]), hnext]
        exact ih (fun hmem => h0 (List.mem_cons_of_mem _ hmem)) hs' (Nat.le_of_succ_le_succ hfuel)

/-- What the lookup in a chain returns, if all children with the symbol are in the chain. -/
theorem matchLoop_spec {chain : List ℕ} (d : TrieData) (hb : Bounded m) (hs : Seg m.links 0 chain 0)
    (hnd : chain.Nodup) (hsome : ∀ x ∈ chain, (m.cells x).isSome)
    (hall : ∀ x, m.data x = some d → x ∈ chain) :
    ∃ r, matchLoop m.cells d m.fresh (chain.headD 0) = some r ∧
      (r ≠ 0 → m.data r = some d) ∧ (r = 0 → ∀ x, m.data x ≠ some d) := by
  have h0 := Tabled.zero_not_mem hb.zero hsome
  have hfuel := Tabled.length_le_of_lt hnd fun x hx => hb.cells x (hsome x hx)
  refine ⟨_, matchLoop_eq d h0 hs hfuel, ?_, ?_⟩
  · intro hr
    cases hfind : chain.find? fun a => decide (m.data a = some d) with
    | none =>
      rw [hfind] at hr
      exact absurd rfl hr
    | some r =>
      have hr' := List.find?_some hfind
      exact of_decide_eq_true hr'
  · intro hr x hx
    cases hfind : chain.find? fun a => decide (m.data a = some d) with
    | none => exact List.find?_eq_none.1 hfind x (hall x hx) (decide_eq_true hx)
    | some r =>
      rw [hfind] at hr
      have hmem := List.mem_of_find?_eq_some hfind
      rw [show r = 0 from hr] at hmem
      exact h0 hmem

theorem isSome_of_data {x : ℕ} {d : TrieData} (h : m.data x = some d) : (m.cells x).isSome := by
  rw [data, Option.map_eq_some_iff] at h
  obtain ⟨c, hc, -⟩ := h
  rw [hc]
  rfl

theorem hashAt_of_data {x : ℕ} {d : TrieData} (h : m.data x = some d) :
    m.hashAt nodeId x = Trie.hashItem nodeId d := by
  rw [hashAt, h]
  rfl

/-- **The lookup** finds a child with the symbol iff there is one. -/
theorem matchChild_spec (h : LinksOk nodeId L) (hb : Bounded L.heap) (hchild : L.child ≠ .deleted)
    (d : TrieData) :
    ∃ r, L.matchChild nodeId d = some r ∧ (r ≠ 0 → L.heap.data r = some d) ∧
      (r = 0 → ∀ x, L.heap.data x ≠ some d) := by
  obtain ⟨m, child⟩ := L
  cases child with
  | deleted => exact absurd rfl hchild
  | list first =>
    obtain ⟨chain, hok⟩ := h
    obtain ⟨r, hrun, hr⟩ := matchLoop_spec d hb hok.linked hok.nodup
      (fun x hx => (hok.children x).2 hx) fun x hx => (hok.children x).1 (isSome_of_data hx)
    refine ⟨r, ?_, hr⟩
    rw [matchChild, matchStart]
    simp only [Option.bind_eq_bind, Option.bind_some, hok.first]
    exact hrun
  | hash t =>
    obtain ⟨bs, hok⟩ := h
    -- only the bucket of the symbol is searched
    set i := Trie.hashItem nodeId d % t.numBuckets with hi
    have hlt : i < bs.length := by
      rw [hok.length]
      exact Nat.mod_lt _ (hok.length ▸ hok.placed.pos)
    obtain ⟨r, hrun, hr⟩ := matchLoop_spec d hb (hok.linked i) (Tabled.nodup_getD hok.nodup i)
      (fun x hx => hok.allocated x (Tabled.mem_flatten_of_getD hx)) fun x hx => by
        have hmem := (hok.placed.mem_flatten x).1 ((hok.children x).1 (isSome_of_data hx))
        rwa [Buckets.bucketOf, Buckets.index, hashAt_of_data hx, hok.length] at hmem
    refine ⟨r, ?_, hr⟩
    have hheads : m.arrays t.buckets = some (bs.map fun c => c.headD 0) := hok.heads
    have hget : (bs.map fun c => c.headD 0)[i]? = some ((bs.getD i []).headD 0) := by
      rw [List.getElem?_map, List.getD_eq_getElem?_getD, List.getElem?_eq_getElem hlt]
      rfl
    rw [matchChild, matchStart]
    simp only [hheads, Option.bind_eq_bind, Option.bind_some, ← hi, hget]
    exact hrun

/-- Every operation the level allows succeeds: no pointer that is followed dangles, and no assertion
fails. -/
structure Defined (nodeId : BitVec 64 → ℕ) (isRoot : Bool) (L : TrieLevel) : Prop where
  convertHash : ∀ first, L.child = .list first → (L.convertHash nodeId).isSome
  expand : ∀ t, L.child = .hash t → (L.expand nodeId).isSome
  insert : L.child ≠ .deleted → ∀ d, (L.insert nodeId d).isSome
  deletePath : ∀ a, (L.heap.cells a).isSome → (L.deletePath isRoot a).isSome

theorem defined_of_linksOk (h : LinksOk nodeId L) (hb : Bounded L.heap) :
    Defined nodeId isRoot L where
  convertHash first hchild := by
    obtain ⟨L', hrun, -⟩ := convertHash_spec h hb hchild
    exact Option.isSome_of_eq_some hrun
  expand t hchild := by
    obtain ⟨L', hrun, -⟩ := expand_spec h hb hchild
    exact Option.isSome_of_eq_some hrun
  insert hchild d := by
    obtain ⟨L', hrun, -⟩ := insert_spec h hb d hchild
    exact Option.isSome_of_eq_some hrun
  deletePath a ha := by
    obtain ⟨L', hrun, -⟩ := deletePath_spec h hb isRoot ha
    exact Option.isSome_of_eq_some hrun

/-- **After every sequence of operations** the children of a level are linked as they should be, in
a table each in the bucket of its data and counted, every operation is defined, and the lookup of a
symbol returns a child that has it iff one of the children does. -/
theorem level_ok (h : Reach nodeId isRoot L) :
    LinksOk nodeId L ∧ Defined nodeId isRoot L ∧
      (L.child ≠ .deleted → ∀ d, ∃ r, L.matchChild nodeId d = some r ∧
        (r ≠ 0 ↔ ∃ x, L.heap.data x = some d) ∧ (r ≠ 0 → L.heap.data r = some d)) := by
  obtain ⟨hok, hb⟩ := h.linksOk
  refine ⟨hok, defined_of_linksOk hok hb, fun hchild d => ?_⟩
  obtain ⟨r, hrun, hfound, hnone⟩ := matchChild_spec hok hb hchild d
  refine ⟨r, hrun, ⟨fun hr => ⟨r, hfound hr⟩, ?_⟩, hfound⟩
  rintro ⟨x, hx⟩ hr
  exact hnone hr x hx

/-- A child becomes a table, which is expanded, gets a second and a third child, the last one in the
bucket of the first, and loses the first. -/
def threeChildren : Option TrieLevel := do
  let L ← empty.insert BitVec.toNat (.int 7)
  let L ← L.convertHash BitVec.toNat
  let L ← L.expand BitVec.toNat
  let L ← L.insert BitVec.toNat (.int 8)
  let L ← L.insert BitVec.toNat (.int 135)
  L.deletePath true 1

theorem reach_threeChildren (h : threeChildren = some L) : Reach BitVec.toNat true L := by
  unfold threeChildren at h
  obtain ⟨_, h₁, h⟩ := Option.bind_eq_some_iff.1 h
  obtain ⟨_, h₂, h⟩ := Option.bind_eq_some_iff.1 h
  obtain ⟨_, h₃, h⟩ := Option.bind_eq_some_iff.1 h
  obtain ⟨_, h₄, h⟩ := Option.bind_eq_some_iff.1 h
  obtain ⟨_, h₅, h⟩ := Option.bind_eq_some_iff.1 h
  exact .deletePath 1 (.insert _ (.insert _ (.expand (.convertHash (.insert _ .empty h₁) h₂) h₃)
    h₄) h₅) h

theorem level_ok_threeChildren : ∃ L r, threeChildren = some L ∧ LinksOk BitVec.toNat L ∧ r ≠ 0 ∧
    L.matchChild BitVec.toNat (.int 135) = some r ∧ L.matchChild BitVec.toNat (.int 7) = some 0 := by
  have hrun : (threeChildren.bind fun L => (L.matchChild BitVec.toNat (.int 7)).map fun r =>
      (L.heap.data 3, r)) = some (some (.int 135), 0) := by decide +kernel
  obtain ⟨L, hL, hrun⟩ := Option.bind_eq_some_iff.1 hrun
  obtain ⟨r₀, hgone, hrun⟩ := Option.map_eq_some_iff.1 hrun
  obtain ⟨hdata, rfl⟩ := Prod.mk.inj hrun
  have hchild : L.child ≠ .deleted := by
    intro h
    rw [matchChild, matchStart, h] at hgone
    cases hgone
  obtain ⟨hok, -, hlookup⟩ := level_ok (reach_threeChildren hL)
  obtain ⟨r, hfound, hiff, -⟩ := hlookup hchild (.int 135)
  exact ⟨L, r, hL, hok, hiff.2 ⟨3, hdata⟩, hfound, hgone⟩

end TrieLevel

end Meld
