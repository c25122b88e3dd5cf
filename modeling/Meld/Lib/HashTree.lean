import Mathlib.Algebra.GroupWithZero.Nat
import Mathlib.Data.List.Flatten
import Mathlib.Data.List.Nodup
import Mathlib.Data.List.Pairwise
import Mathlib.Data.List.Perm.Basic
import Mathlib.Logic.Function.Iterate

/-!
# Trees of hash buckets

Items are kept in buckets by a key.  A bucket has the key of its first item, and takes further items
whose key counts as the same.  Buckets form chains, and the chains are the slots of tables; a chain
that gets too long is replaced by a table of its own, whose slots are selected by further digits of
the hash.

Keys that count as the same need not have the same hash, and a key need not count as the same as
itself.  So an item is in a bucket whose value is its key or counts as the same, and a lookup finds
the bucket only if the hashes lead to one chain.

* `Scheme`: the hash of a key with its digits, the comparison of keys, and the bounds.
* `Tree`, `insert`, `eraseAt`, `lookup`, `walk`: a tree and its operations.
* `Ok`: buckets are where the digits of their values lead, and those of a chain are different.
* `Ok.insert`, `Ok.eraseAt`: the operations keep this.
* `eraseItem_spec`: an item that is looked for and erased is out of the tree.
* `Ok.lookup_eq_some_iff`, `Ok.filter_lookupItems`: what a lookup finds.
-/

namespace Meld
namespace HashTree

universe u v

/-- How keys are hashed and compared.  A table has `width` slots; `slot` is the first digit of a
hash and `rest` are the others.  A chain of `threshold` buckets becomes a table if there are less
than `levels` of them above it.  Tables count their buckets modulo `counter`. -/
structure Scheme (V : Type u) where
  hash : V → ℕ
  same : V → V → Bool
  width : ℕ
  slot : ℕ → ℕ
  slot_lt : ∀ id, slot id < width
  rest : ℕ → ℕ
  threshold : ℕ
  levels : ℕ
  counter : ℕ

/-- The digit of a key that selects the slot in a table with `n` tables above it. -/
def Scheme.digit {V : Type u} (S : Scheme V) (n : ℕ) (v : V) : ℕ := S.slot (S.rest^[n] (S.hash v))

/-- A bucket: its value and its items. -/
abbrev Bucket (V : Type u) (α : Type v) := V × List α

/-- What a slot holds: a chain of buckets or a table. -/
inductive Tree (V : Type u) (α : Type v) where
  | chain (bs : List (Bucket V α))
  | table (slots : ℕ → Tree V α)

variable {V : Type u} {α : Type v} (S : Scheme V)

/-! ## Operations -/

/-- A table without buckets. -/
def empty : Tree V α := .table fun _ => .chain []

/-- The item goes to the end of the first bucket of its key. -/
def addTo (v : V) (x : α) : List (Bucket V α) → Option (List (Bucket V α))
  | [] => none
  | b :: bs => if S.same v b.1 then some ((b.1, b.2 ++ [x]) :: bs) else (addTo v x bs).map (b :: ·)

/-- The buckets of a chain in the slots of a new table: each goes to the front of its slot. -/
def spread (level : ℕ) (bs : List (Bucket V α)) (i : ℕ) : List (Bucket V α) :=
  (bs.filter fun b => S.digit level b.1 == i).reverse

/-- An item is inserted below `level` tables. -/
def insertAt (v : V) (x : α) : Tree V α → ℕ → ℕ → Tree V α
  | .table slots, id, level =>
    .table (Function.update slots (S.slot id)
      (insertAt v x (slots (S.slot id)) (S.rest id) (level + 1)))
  | .chain bs, _, level =>
    match addTo S v x bs with
    | some bs => .chain bs
    | none =>
      let bs := bs ++ [(v, [x])]
      if S.threshold ≤ bs.length ∧ level < S.levels then
        .table fun i => .chain (spread S level bs i)
      else .chain bs

/-- An item is inserted. -/
def insert (v : V) (x : α) (t : Tree V α) : Tree V α := insertAt S v x t (S.hash v) 0

/-- The chain where the digits lead. -/
def chainOf : Tree V α → ℕ → List (Bucket V α)
  | .table slots, id => chainOf (slots (S.slot id)) (S.rest id)
  | .chain bs, _ => bs

/-- The bucket of a key. -/
def lookup (v : V) (t : Tree V α) : Option (Bucket V α) :=
  (chainOf S t (S.hash v)).find? fun b => S.same v b.1

/-- All buckets, slot by slot. -/
def walk : Tree V α → List (Bucket V α)
  | .table slots => (List.range S.width).flatMap fun i => walk (slots i)
  | .chain bs => bs

/-- All items. -/
def items (t : Tree V α) : List α := (walk S t).flatMap Prod.snd

/-- The item at a position of a bucket of a chain is erased, and the bucket if it has no other. -/
def chainErase (bs : List (Bucket V α)) (k pos : ℕ) : List (Bucket V α) × Bool :=
  match bs[k]? with
  | none => (bs, false)
  | some b =>
    let xs := b.2.eraseIdx pos
    if xs.isEmpty then (bs.eraseIdx k, true) else (bs.set k (b.1, xs), false)

/-- The number of buckets in a slot. -/
def chainLength : Tree V α → ℕ
  | .chain bs => bs.length
  | .table _ => 0

/-- The slot holds a chain. -/
def isChain : Tree V α → Bool
  | .chain _ => true
  | .table _ => false

/-- The counters of a table are zero. -/
def spent (slots : ℕ → Tree V α) : Bool :=
  (List.range S.width).all (fun i => isChain (slots i)) &&
    ((List.range S.width).map fun i => chainLength (slots i)).sum % S.counter == 0

/-- An item is erased from a bucket in the chain at the end of a path.  When the bucket goes, a
table whose counters are zero goes too, and then the one above it is looked at. -/
def eraseAt : Tree V α → List ℕ → ℕ → ℕ → Tree V α × Bool
  | .chain bs, _, k, pos => ((.chain (chainErase bs k pos).1), (chainErase bs k pos).2)
  | .table slots, [], _, _ => (.table slots, false)
  | .table slots, i :: path, k, pos =>
    let r := eraseAt (slots i) path k pos
    let slots := Function.update slots i r.1
    if r.2 && spent S slots then (.chain [], true) else (.table slots, false)

/-- An item is erased; the table at the top stays. -/
def erase (t : Tree V α) (path : List ℕ) (k pos : ℕ) : Tree V α :=
  match t, path with
  | .table slots, i :: path => .table (Function.update slots i (eraseAt S (slots i) path k pos).1)
  | t, _ => t

/-! ## The invariant -/

variable {S} (key : α → V)

/-- What holds of a chain whose buckets have values with `Q`. -/
structure ChainOk (S : Scheme V) (key : α → V) (Q : V → Prop) (bs : List (Bucket V α)) : Prop where
  fits : ∀ b ∈ bs, Q b.1
  keys : ∀ b ∈ bs, ∀ x ∈ b.2, key x = b.1 ∨ S.same (key x) b.1 = true
  apart : (bs.map Prod.fst).Pairwise fun v w => S.same v w = false

/-- Each bucket is where the digits of its value lead, and the chains are right. -/
def Ok (S : Scheme V) (key : α → V) : (V → Prop) → ℕ → Tree V α → Prop
  | Q, n, .table slots => ∀ i, Ok S key (fun v => Q v ∧ S.digit n v = i) (n + 1) (slots i)
  | Q, _, .chain bs => ChainOk S key Q bs

variable {key} {Q : V → Prop} {n : ℕ} {t : Tree V α} {bs : List (Bucket V α)} {v : V} {x : α}
  {b : Bucket V α}

theorem chainOk_nil : ChainOk S key Q [] := ⟨by simp, by simp, List.Pairwise.nil⟩

theorem ok_empty : Ok S key (fun _ => True) 0 (empty : Tree V α) := fun _ => chainOk_nil

theorem ChainOk.sublist {bs' : List (Bucket V α)} (h : ChainOk S key Q bs)
    (hsub : bs'.Sublist bs) : ChainOk S key Q bs' where
  fits b hb := h.fits b (hsub.subset hb)
  keys b hb := h.keys b (hsub.subset hb)
  apart := h.apart.sublist (hsub.map Prod.fst)

/-! ## Insertion -/

theorem addTo_values {bs' : List (Bucket V α)} (h : addTo S v x bs = some bs') :
    bs'.map Prod.fst = bs.map Prod.fst := by
  induction bs generalizing bs' with
  | nil => cases h
  | cons c bs ih =>
    unfold addTo at h
    split at h
    · cases h
      rfl
    · obtain ⟨cs, hcs, rfl⟩ := Option.map_eq_some_iff.1 h
      rw [List.map_cons, List.map_cons, ih hcs]

/-- The bucket that takes the item has a value that counts as the same. -/
theorem addTo_mem {bs' : List (Bucket V α)} (h : addTo S v x bs = some bs') :
    ∀ b ∈ bs', b ∈ bs ∨ ∃ c ∈ bs, b = (c.1, c.2 ++ [x]) ∧ S.same v c.1 = true := by
  induction bs generalizing bs' with
  | nil => cases h
  | cons c bs ih =>
    unfold addTo at h
    intro b hb
    split at h
    · rename_i hsame
      cases h
      rcases List.mem_cons.1 hb with rfl | hb
      · exact Or.inr ⟨c, List.mem_cons_self, rfl, hsame⟩
      · exact Or.inl (List.mem_cons_of_mem _ hb)
    · obtain ⟨cs, hcs, rfl⟩ := Option.map_eq_some_iff.1 h
      rcases List.mem_cons.1 hb with rfl | hb
      · exact Or.inl List.mem_cons_self
      · rcases ih hcs b hb with hb | ⟨d, hd, heq, hsame⟩
        · exact Or.inl (List.mem_cons_of_mem _ hb)
        · exact Or.inr ⟨d, List.mem_cons_of_mem _ hd, heq, hsame⟩

theorem addTo_eq_none (h : addTo S v x bs = none) : ∀ b ∈ bs, S.same v b.1 = false := by
  induction bs with
  | nil => simp
  | cons c bs ih =>
    unfold addTo at h
    split at h
    · cases h
    · rename_i hsame
      intro b hb
      rcases List.mem_cons.1 hb with rfl | hb
      · simpa using hsame
      · exact ih (Option.map_eq_none_iff.1 h) b hb

theorem addTo_items {bs' : List (Bucket V α)} (h : addTo S v x bs = some bs') :
    (bs'.flatMap Prod.snd).Perm (x :: bs.flatMap Prod.snd) := by
  induction bs generalizing bs' with
  | nil => cases h
  | cons c bs ih =>
    unfold addTo at h
    split at h
    · cases h
      rw [List.flatMap_cons, List.flatMap_cons, List.append_assoc]
      exact List.perm_middle
    · obtain ⟨cs, hcs, rfl⟩ := Option.map_eq_some_iff.1 h
      rw [List.flatMap_cons, List.flatMap_cons]
      exact ((ih hcs).append_left c.2).trans List.perm_middle

/-- The comparison does not depend on the order. -/
def Symm (S : Scheme V) : Prop := ∀ v w, S.same v w = S.same w v

theorem ChainOk.addTo {bs' : List (Bucket V α)} (h : ChainOk S key Q bs)
    (hadd : addTo S (key x) x bs = some bs') : ChainOk S key Q bs' where
  fits b hb := by
    rcases addTo_mem hadd b hb with hb | ⟨c, hc, rfl, -⟩
    · exact h.fits b hb
    · exact h.fits c hc
  keys b hb y hy := by
    rcases addTo_mem hadd b hb with hb | ⟨c, hc, rfl, hsame⟩
    · exact h.keys b hb y hy
    · rcases List.mem_append.1 hy with hy | hy
      · exact h.keys c hc y hy
      · rw [List.mem_singleton.1 hy]
        exact Or.inr hsame
  apart := by
    rw [addTo_values hadd]
    exact h.apart

theorem ChainOk.append (hsymm : Symm S) (h : ChainOk S key Q bs)
    (hnone : HashTree.addTo S (key x) x bs = none) (hQ : Q (key x)) :
    ChainOk S key Q (bs ++ [(key x, [x])]) where
  fits b hb := by
    rcases List.mem_append.1 hb with hb | hb
    · exact h.fits b hb
    · rw [List.mem_singleton.1 hb]
      exact hQ
  keys b hb y hy := by
    rcases List.mem_append.1 hb with hb | hb
    · exact h.keys b hb y hy
    · rw [List.mem_singleton.1 hb] at hy ⊢
      rw [List.mem_singleton.1 hy]
      exact Or.inl rfl
  apart := by
    rw [List.map_append, List.pairwise_append]
    refine ⟨h.apart, List.pairwise_singleton _ _, fun w hw u hu => ?_⟩
    obtain ⟨b, hb, rfl⟩ := List.mem_map.1 hw
    rw [List.mem_singleton.1 hu, hsymm]
    exact addTo_eq_none hnone b hb

theorem ChainOk.spread (hsymm : Symm S) (h : ChainOk S key Q bs) (level i : ℕ) :
    ChainOk S key (fun v => Q v ∧ S.digit level v = i) (spread S level bs i) where
  fits b hb := by
    have hb' := List.mem_filter.1 (List.mem_reverse.1 hb)
    exact ⟨h.fits b hb'.1, by simpa using hb'.2⟩
  keys b hb := h.keys b (List.mem_filter.1 (List.mem_reverse.1 hb)).1
  apart := by
    rw [HashTree.spread, List.map_reverse, List.pairwise_reverse]
    refine ((h.apart.sublist (List.filter_sublist.map Prod.fst))).imp fun {v w} hvw => ?_
    rw [hsymm]
    exact hvw

theorem Ok.insertAt (hsymm : Symm S) (h : Ok S key Q n t) (hQ : Q (key x)) :
    Ok S key Q n (insertAt S (key x) x t (S.rest^[n] (S.hash (key x))) n) := by
  induction t generalizing Q n with
  | table slots ih =>
    intro i
    show Ok S key _ (n + 1) (Function.update slots _ _ i)
    by_cases hi : i = S.slot (S.rest^[n] (S.hash (key x)))
    · subst hi
      rw [Function.update_self, ← Function.iterate_succ_apply' S.rest]
      exact ih _ (h _) ⟨hQ, rfl⟩
    · rw [Function.update_of_ne hi]
      exact h i
  | chain bs =>
    unfold HashTree.insertAt
    cases hadd : HashTree.addTo S (key x) x bs with
    | some bs' => exact ChainOk.addTo h hadd
    | none =>
      have hall := ChainOk.append hsymm h hadd hQ
      dsimp only
      split
      · exact fun i => hall.spread hsymm n i
      · exact hall

/-- **Insertion keeps the invariant.** -/
theorem Ok.insert (hsymm : Symm S) (h : Ok S key (fun _ => True) 0 t) :
    Ok S key (fun _ => True) 0 (insert S (key x) x t) :=
  h.insertAt hsymm trivial

/-- A slot that gets one item more. -/
theorem perm_flatMap_update {β : Type v} {f : ℕ → List β} {xs : List β} {y : β} {j : ℕ} {l : List ℕ}
    (hnodup : l.Nodup) (hj : j ∈ l) (hxs : xs.Perm (y :: f j)) :
    (l.flatMap (Function.update f j xs)).Perm (y :: l.flatMap f) := by
  induction l with
  | nil => cases hj
  | cons i l ih =>
    obtain ⟨hi, hnodup⟩ := List.nodup_cons.1 hnodup
    rw [List.flatMap_cons, List.flatMap_cons]
    rcases List.mem_cons.1 hj with rfl | hj
    · have hrest : l.flatMap (Function.update f j xs) = l.flatMap f := by
        refine List.flatMap_congr fun k hk => Function.update_of_ne ?_ _ _
        rintro rfl
        exact hi hk
      rw [Function.update_self, hrest]
      exact hxs.append_right _
    · have hne : i ≠ j := by
        rintro rfl
        exact hi hj
      rw [Function.update_of_ne hne]
      exact ((ih hnodup hj).append_left _).trans List.perm_middle

/-- The buckets of a chain are those of its slots. -/
theorem spread_perm (level : ℕ) (bs : List (Bucket V α)) :
    ((List.range S.width).flatMap (spread S level bs)).Perm bs := by
  induction bs with
  | nil =>
    have hnil : spread S level ([] : List (Bucket V α)) = fun _ => [] := rfl
    rw [hnil]
    simp
  | cons b bs ih =>
    have hcons : spread S level (b :: bs) = Function.update (spread S level bs)
        (S.digit level b.1) (spread S level bs (S.digit level b.1) ++ [b]) := by
      ext1 i
      by_cases hi : i = S.digit level b.1
      · subst hi
        simp [spread]
      · rw [Function.update_of_ne hi]
        simp [spread, Ne.symm hi]
    rw [hcons]
    have hmem : S.digit level b.1 ∈ List.range S.width := List.mem_range.2 (S.slot_lt _)
    refine (perm_flatMap_update List.nodup_range hmem ?_).trans (ih.cons b)
    exact List.perm_append_comm

theorem items_table (slots : ℕ → Tree V α) :
    items S (.table slots) = (List.range S.width).flatMap fun i => items S (slots i) := by
  rw [items, walk, List.flatMap_assoc]
  rfl

theorem items_insertAt (v : V) (x : α) (t : Tree V α) (id level : ℕ) :
    (items S (insertAt S v x t id level)).Perm (x :: items S t) := by
  induction t generalizing id level with
  | table slots ih =>
    rw [insertAt, items_table, items_table]
    have hslot (i : ℕ) : items S (Function.update slots (S.slot id)
        (insertAt S v x (slots (S.slot id)) (S.rest id) (level + 1)) i) =
          Function.update (fun i => items S (slots i)) (S.slot id)
            (items S (insertAt S v x (slots (S.slot id)) (S.rest id) (level + 1))) i :=
      Function.apply_update (fun _ => items S) slots _ _ i
    rw [List.flatMap_congr fun i _ => hslot i]
    exact perm_flatMap_update List.nodup_range (List.mem_range.2 (S.slot_lt id)) (ih _ _ _)
  | chain bs =>
    unfold insertAt
    cases hadd : addTo S v x bs with
    | some bs' => exact addTo_items hadd
    | none =>
      have happend : (bs ++ [(v, [x])]).flatMap Prod.snd = bs.flatMap Prod.snd ++ [x] := by simp
      dsimp only
      split
      · rw [items, walk]
        refine ((spread_perm level _).flatMap_right _).trans ?_
        rw [happend]
        exact List.perm_append_comm
      · rw [items, walk, happend]
        exact List.perm_append_comm

/-- **Insertion adds the item.** -/
theorem items_insert (v : V) (x : α) (t : Tree V α) :
    (items S (insert S v x t)).Perm (x :: items S t) :=
  items_insertAt v x t _ 0

/-! ## Erasing -/

theorem ChainOk.chainErase (h : ChainOk S key Q bs) (k pos : ℕ) :
    ChainOk S key Q (chainErase bs k pos).1 := by
  unfold HashTree.chainErase
  cases hk : bs[k]? with
  | none => exact h
  | some b =>
    dsimp only
    split
    · exact h.sublist (List.eraseIdx_sublist _ _)
    · have hmem (c : Bucket V α) (hc : c ∈ bs.set k (b.1, b.2.eraseIdx pos)) :
          ∃ d ∈ bs, c.1 = d.1 ∧ c.2 ⊆ d.2 := by
        rcases List.mem_or_eq_of_mem_set hc with hc | rfl
        · exact ⟨c, hc, rfl, List.Subset.refl _⟩
        · exact ⟨b, List.mem_of_getElem? hk, rfl, (List.eraseIdx_sublist _ _).subset⟩
      refine ⟨fun c hc => ?_, fun c hc y hy => ?_, ?_⟩
      · obtain ⟨d, hd, heq, -⟩ := hmem c hc
        exact heq ▸ h.fits d hd
      · obtain ⟨d, hd, heq, hsub⟩ := hmem c hc
        exact heq ▸ h.keys d hd y (hsub hy)
      · obtain ⟨hlt, rfl⟩ := List.getElem?_eq_some_iff.1 hk
        have hlt' : k < (bs.map Prod.fst).length := by simpa using hlt
        have hsame : bs[k].1 = (bs.map Prod.fst)[k] := by simp
        rw [List.map_set, hsame, List.set_getElem_self]
        exact h.apart

theorem Ok.eraseAt (h : Ok S key Q n t) (path : List ℕ) (k pos : ℕ) :
    Ok S key Q n (eraseAt S t path k pos).1 := by
  induction t generalizing Q n path with
  | chain bs => exact ChainOk.chainErase h k pos
  | table slots ih =>
    cases path with
    | nil => exact h
    | cons i path =>
      unfold HashTree.eraseAt
      dsimp only
      split
      · exact chainOk_nil
      · intro j
        by_cases hj : j = i
        · subst hj
          rw [Function.update_self]
          exact ih _ (h _) path
        · rw [Function.update_of_ne hj]
          exact h j

/-- **Erasing keeps the invariant.** -/
theorem Ok.erase (h : Ok S key Q n t) (path : List ℕ) (k pos : ℕ) :
    Ok S key Q n (erase S t path k pos) := by
  unfold HashTree.erase
  split
  · rename_i slots i path
    intro j
    by_cases hj : j = i
    · subst hj
      rw [Function.update_self]
      exact (h _).eraseAt path k pos
    · rw [Function.update_of_ne hj]
      exact h j
  · exact h

/-! ## Erasing an item that is looked for -/

/-- What is in a list of buckets around one of them. -/
theorem items_split {k : ℕ} (hk : bs[k]? = some b) :
    bs.flatMap Prod.snd =
      (bs.take k).flatMap Prod.snd ++ (b.2 ++ (bs.drop (k + 1)).flatMap Prod.snd) := by
  obtain ⟨hlt, rfl⟩ := List.getElem?_eq_some_iff.1 hk
  rw [← List.flatMap_cons, ← List.flatMap_append, List.getElem_cons_drop, List.take_append_drop]

/-- The bucket has lost the item at the position. -/
theorem items_chainErase {k pos : ℕ} (hk : bs[k]? = some b) :
    (chainErase bs k pos).1.flatMap Prod.snd =
      (bs.take k).flatMap Prod.snd ++
        (b.2.eraseIdx pos ++ (bs.drop (k + 1)).flatMap Prod.snd) := by
  obtain ⟨hlt, hb⟩ := List.getElem?_eq_some_iff.1 hk
  unfold chainErase
  rw [hk]
  dsimp only
  split
  · rename_i hnil
    rw [List.isEmpty_iff] at hnil
    rw [hnil, List.nil_append, ← List.flatMap_append, List.eraseIdx_eq_take_drop_succ]
  · rw [List.set_eq_take_append_cons_drop, if_pos hlt, List.flatMap_append, List.flatMap_cons]

/-- A slot loses an item. -/
theorem items_update {slots : ℕ → Tree V α} {i : ℕ} {u : Tree V α} (hi : i ∈ List.range S.width)
    (hx : x ∈ items S (slots i)) (hsub : (items S u).Sublist (items S (slots i)))
    (hgone : (items S (slots i)).Nodup → x ∉ items S u) :
    (items S (.table (Function.update slots i u))).Sublist (items S (.table slots)) ∧
      ((items S (.table slots)).Nodup → x ∉ items S (.table (Function.update slots i u))) := by
  rw [items_table, items_table]
  refine ⟨List.Sublist.flatMap_right _ fun j _ => ?_, fun hnodup hmem => ?_⟩
  · by_cases hj : j = i
    · rw [hj, Function.update_self]
      exact hsub
    · rw [Function.update_of_ne hj]
  · obtain ⟨hall, hdisj⟩ := List.nodup_flatMap.1 hnodup
    obtain ⟨j, hj, hxj⟩ := List.mem_flatMap.1 hmem
    by_cases hji : j = i
    · rw [hji, Function.update_self] at hxj
      exact hgone (hall i hi) hxj
    · rw [Function.update_of_ne hji] at hxj
      have : Std.Symm (Function.onFun List.Disjoint fun j => items S (slots j)) :=
        ⟨fun _ _ hd => List.disjoint_symm hd⟩
      exact hdisj.forall hj hi hji hxj hx

section Items

variable [DecidableEq α]

variable (S) in
/-- Where an item is: the slots that lead to its chain, its bucket there and its place in it. -/
def locate (x : α) : Tree V α → Option (List ℕ × ℕ × ℕ)
  | .chain bs => (bs.findIdx? fun b => decide (x ∈ b.2)).map fun k =>
      ([], k, ((bs[k]?).elim [] Prod.snd).idxOf x)
  | .table slots => (List.range S.width).findSome? fun i =>
      (locate x (slots i)).map fun l => (i :: l.1, l.2)

variable (S) in
/-- The item is erased, wherever it is; the table at the top stays. -/
def eraseItem (x : α) (t : Tree V α) : Tree V α :=
  match locate S x t with
  | none => t
  | some l => if l.1 = [] then (eraseAt S t l.1 l.2.1 l.2.2).1 else erase S t l.1 l.2.1 l.2.2

theorem not_mem_of_locate (h : locate S x t = none) : x ∉ items S t := by
  induction t with
  | chain bs =>
    intro hx
    obtain ⟨b, hb, hxb⟩ := List.mem_flatMap.1 hx
    rw [locate, Option.map_eq_none_iff, List.findIdx?_eq_none_iff] at h
    have hnot := h b hb
    simp [hxb] at hnot
  | table slots ih =>
    rw [locate, List.findSome?_eq_none_iff] at h
    rw [items_table, List.mem_flatMap]
    rintro ⟨i, hi, hx⟩
    exact ih i (Option.map_eq_none_iff.1 (h i hi)) hx

/-- **The located item is erased, and no item comes in.** -/
theorem eraseAt_locate {l : List ℕ × ℕ × ℕ} (h : locate S x t = some l) :
    x ∈ items S t ∧ (items S (eraseAt S t l.1 l.2.1 l.2.2).1).Sublist (items S t) ∧
      ((items S t).Nodup → x ∉ items S (eraseAt S t l.1 l.2.1 l.2.2).1) := by
  induction t generalizing l with
  | chain bs =>
    rw [locate, Option.map_eq_some_iff] at h
    obtain ⟨k, hk, rfl⟩ := h
    obtain ⟨hlt, hx, -⟩ := List.findIdx?_eq_some_iff_getElem.1 hk
    have hb : bs[k]? = some bs[k] := List.getElem?_eq_getElem hlt
    have hmem : x ∈ bs[k].2 := of_decide_eq_true hx
    have herase : bs[k].2.eraseIdx (bs[k].2.idxOf x) = bs[k].2.erase x :=
      (List.erase_eq_eraseIdx_of_idxOf rfl).symm
    show x ∈ bs.flatMap Prod.snd ∧
      ((chainErase bs k _).1.flatMap Prod.snd).Sublist (bs.flatMap Prod.snd) ∧
      ((bs.flatMap Prod.snd).Nodup → x ∉ (chainErase bs k _).1.flatMap Prod.snd)
    rw [hb, Option.elim_some, items_chainErase hb, items_split hb, herase]
    refine ⟨List.mem_append_right _ (List.mem_append_left _ hmem),
      (List.erase_sublist.append_right _).append_left _, fun hnodup => ?_⟩
    have hperm := (((List.perm_cons_erase hmem).append_right
      ((bs.drop (k + 1)).flatMap Prod.snd)).append_left ((bs.take k).flatMap Prod.snd)).trans
        List.perm_middle
    exact (List.nodup_cons.1 (hperm.nodup_iff.1 hnodup)).1
  | table slots ih =>
    rw [locate] at h
    obtain ⟨i, hi, hl⟩ := List.exists_of_findSome?_eq_some h
    obtain ⟨m, hm, rfl⟩ := Option.map_eq_some_iff.1 hl
    obtain ⟨hx, hsub, hgone⟩ := ih i hm
    refine ⟨(items_table slots).symm ▸ List.mem_flatMap.2 ⟨i, hi, hx⟩, ?_⟩
    unfold eraseAt
    dsimp only
    split
    · exact ⟨List.nil_sublist _, fun _ => List.not_mem_nil⟩
    · exact items_update hi hx hsub hgone

/-- **Erasing an item** takes it out and puts none in. -/
theorem eraseItem_spec (x : α) (t : Tree V α) :
    (items S (eraseItem S x t)).Sublist (items S t) ∧
      ((items S t).Nodup → x ∉ items S (eraseItem S x t)) := by
  unfold eraseItem
  cases hl : locate S x t with
  | none => exact ⟨List.Sublist.refl _, fun _ => not_mem_of_locate hl⟩
  | some l =>
    dsimp only
    split
    · exact (eraseAt_locate hl).2
    · rename_i hne
      cases t with
      | chain bs =>
        obtain ⟨k, -, rfl⟩ := Option.map_eq_some_iff.1 hl
        exact absurd rfl hne
      | table slots =>
        obtain ⟨i, hi, hi'⟩ := List.exists_of_findSome?_eq_some hl
        obtain ⟨m, hm, rfl⟩ := Option.map_eq_some_iff.1 hi'
        obtain ⟨hx, hsub, hgone⟩ := eraseAt_locate hm
        exact items_update hi hx hsub hgone

end Items

/-! ## Lookup -/

/-- The digits of a value, from digit `n` on, lead to the same chain as `id`. -/
def Leads (S : Scheme V) : Tree V α → ℕ → ℕ → V → Prop
  | .table slots, id, n, w =>
    S.digit n w = S.slot id ∧ Leads S (slots (S.slot id)) (S.rest id) (n + 1) w
  | .chain _, _, _, _ => True

theorem leads_of_hash (t : Tree V α) (n : ℕ) (v : V) : Leads S t (S.rest^[n] (S.hash v)) n v := by
  induction t generalizing n with
  | chain bs => trivial
  | table slots ih =>
    refine ⟨rfl, ?_⟩
    rw [← Function.iterate_succ_apply' S.rest]
    exact ih _ (n + 1)

theorem mem_walk_table {slots : ℕ → Tree V α} :
    b ∈ walk S (.table slots) ↔ ∃ i < S.width, b ∈ walk S (slots i) := by
  rw [walk, List.mem_flatMap]
  simp [List.mem_range]

/-- The chain of a hash is part of the tree. -/
theorem mem_walk_of_chainOf {id : ℕ} (h : b ∈ chainOf S t id) : b ∈ walk S t := by
  induction t generalizing id with
  | chain bs => exact h
  | table slots ih => exact mem_walk_table.2 ⟨_, S.slot_lt id, ih _ h⟩

/-- The buckets of a subtree have the digits that lead there. -/
theorem Ok.fits (h : Ok S key Q n t) (hb : b ∈ walk S t) : Q b.1 := by
  induction t generalizing Q n with
  | chain bs => exact ChainOk.fits h b hb
  | table slots ih =>
    obtain ⟨i, -, hb⟩ := mem_walk_table.1 hb
    exact (ih i (h i) hb).1

/-- The key of an item counts as the same as the value of its bucket, or is this value. -/
theorem Ok.keys (h : Ok S key Q n t) (hb : b ∈ walk S t) (hx : x ∈ b.2) :
    key x = b.1 ∨ S.same (key x) b.1 = true := by
  induction t generalizing Q n with
  | chain bs => exact ChainOk.keys h b hb x hx
  | table slots ih =>
    obtain ⟨i, -, hb⟩ := mem_walk_table.1 hb
    exact ih i (h i) hb

theorem Ok.chainOf (h : Ok S key Q n t) (id : ℕ) : ∃ Q', ChainOk S key Q' (chainOf S t id) := by
  induction t generalizing Q n id with
  | chain bs => exact ⟨Q, h⟩
  | table slots ih => exact ih (S.slot id) (h _) (S.rest id)

/-- **The chain of a hash** has the buckets of the tree whose digits lead there. -/
theorem Ok.mem_chainOf_iff (h : Ok S key Q n t) {id : ℕ} :
    b ∈ HashTree.chainOf S t id ↔ b ∈ walk S t ∧ Leads S t id n b.1 := by
  induction t generalizing Q n id with
  | chain bs => exact ⟨fun hb => ⟨hb, trivial⟩, fun hb => hb.1⟩
  | table slots ih =>
    constructor
    · intro hb
      obtain ⟨hwalk, hleads⟩ := (ih _ (h _)).1 hb
      exact ⟨mem_walk_table.2 ⟨_, S.slot_lt id, hwalk⟩, ((h _).fits hwalk).2, hleads⟩
    · rintro ⟨hb, hdigit, hleads⟩
      obtain ⟨i, -, hb⟩ := mem_walk_table.1 hb
      have hi : i = S.slot id := ((h i).fits hb).2.symm.trans hdigit
      subst hi
      exact (ih _ (h _)).2 ⟨hb, hleads⟩

/-- The comparison is transitive. -/
def Trans (S : Scheme V) : Prop :=
  ∀ u v w, S.same u v = true → S.same v w = true → S.same u w = true

/-- At most one bucket of a chain has a value that counts as the same. -/
theorem ChainOk.eq_of_same (hsymm : Symm S) (htrans : Trans S) (h : ChainOk S key Q bs)
    {c : Bucket V α} (hb : b ∈ bs) (hc : c ∈ bs) (hvb : S.same v b.1 = true)
    (hvc : S.same v c.1 = true) : b = c := by
  have hbc : S.same b.1 c.1 = true := htrans _ v _ (hsymm v b.1 ▸ hvb) hvc
  have happart : bs.Pairwise fun b c => S.same b.1 c.1 = false := List.pairwise_map.1 h.apart
  have : Std.Symm fun b c : Bucket V α => S.same b.1 c.1 = false :=
    ⟨fun b c hbc => (hsymm c.1 b.1).trans hbc⟩
  by_contra hne
  have hfalse := happart.forall hb hc hne
  rw [hbc] at hfalse
  cases hfalse

/-- **A lookup** finds the bucket whose value counts as the same, if the digits lead to its
chain. -/
theorem Ok.lookup_eq_some_iff (hsymm : Symm S) (htrans : Trans S) (h : Ok S key Q 0 t) :
    lookup S v t = some b ↔
      b ∈ walk S t ∧ Leads S t (S.hash v) 0 b.1 ∧ S.same v b.1 = true := by
  obtain ⟨Q', hok⟩ := h.chainOf (S.hash v)
  rw [← and_assoc, ← h.mem_chainOf_iff]
  constructor
  · intro hfind
    have hsame := List.find?_some hfind
    exact ⟨List.mem_of_find?_eq_some hfind, hsame⟩
  · rintro ⟨hb, hsame⟩
    cases hfind : lookup S v t with
    | none => exact absurd hsame (List.find?_eq_none.1 hfind b hb)
    | some c =>
      have hc := List.find?_some hfind
      rw [hok.eq_of_same hsymm htrans hb (List.mem_of_find?_eq_some hfind) hsame hc]

/-! ## The items of a key -/

/-- The items of the bucket of a key. -/
def lookupItems (S : Scheme V) (v : V) (t : Tree V α) : List α :=
  ((lookup S v t).map Prod.snd).getD []

/-- Only one slot has items. -/
theorem flatMap_eq_of_single {β : Type v} {f : ℕ → List β} {j : ℕ} {l : List ℕ} (hnodup : l.Nodup)
    (hj : j ∈ l) (hf : ∀ i ∈ l, i ≠ j → f i = []) : l.flatMap f = f j := by
  induction l with
  | nil => cases hj
  | cons i l ih =>
    obtain ⟨hi, hnodup⟩ := List.nodup_cons.1 hnodup
    rw [List.flatMap_cons]
    rcases List.mem_cons.1 hj with rfl | hj
    · have hrest : l.flatMap f = [] := by
        rw [List.flatMap_eq_nil_iff]
        intro k hk
        refine hf k (List.mem_cons_of_mem _ hk) ?_
        rintro rfl
        exact hi hk
      rw [hrest, List.append_nil]
    · have hne : i ≠ j := by
        rintro rfl
        exact hi hj
      rw [hf i List.mem_cons_self hne, List.nil_append]
      exact ih hnodup hj fun k hk => hf k (List.mem_cons_of_mem _ hk)

/-- Items that are all in the chain of a hash. -/
theorem Ok.filter_items (h : Ok S key Q n t) {id : ℕ} {p : α → Bool}
    (hp : ∀ b ∈ walk S t, ∀ x ∈ b.2, p x = true → Leads S t id n b.1) :
    (items S t).filter p = ((HashTree.chainOf S t id).flatMap Prod.snd).filter p := by
  induction t generalizing Q n id with
  | chain bs => rfl
  | table slots ih =>
    have hslot : (items S (slots (S.slot id))).filter p =
        ((HashTree.chainOf S (slots (S.slot id)) (S.rest id)).flatMap Prod.snd).filter p :=
      ih _ (h _) fun b hb x hx hpx =>
        (hp b (mem_walk_table.2 ⟨_, S.slot_lt id, hb⟩) x hx hpx).2
    -- the other slots have no such item
    have hother : ∀ i ∈ List.range S.width, i ≠ S.slot id → (items S (slots i)).filter p = [] := by
      intro i hi hne
      refine List.filter_eq_nil_iff.2 fun x hx hpx => hne ?_
      obtain ⟨b, hb, hxb⟩ := List.mem_flatMap.1 hx
      have hdigit := (hp b (mem_walk_table.2 ⟨i, List.mem_range.1 hi, hb⟩) x hxb hpx).1
      exact ((h i).fits hb).2.symm.trans hdigit
    rw [items_table, List.filter_flatMap]
    rw [flatMap_eq_of_single List.nodup_range (List.mem_range.2 (S.slot_lt id)) hother]
    exact hslot

/-- Items of a chain whose buckets have values that count as the same. -/
theorem ChainOk.filter_find (hsymm : Symm S) (htrans : Trans S) (h : ChainOk S key Q bs)
    {p : α → Bool} (hp : ∀ b ∈ bs, ∀ x ∈ b.2, p x = true → S.same v b.1 = true) :
    (bs.flatMap Prod.snd).filter p =
      (((bs.find? fun b => S.same v b.1).map Prod.snd).getD []).filter p := by
  induction bs with
  | nil => rfl
  | cons b bs ih =>
    have htail : ChainOk S key Q bs := h.sublist (List.sublist_cons_self b bs)
    rw [List.flatMap_cons, List.filter_append]
    cases hsame : S.same v b.1 with
    | true =>
      -- the buckets behind it have other values
      have hrest : (bs.flatMap Prod.snd).filter p = [] := by
        refine List.filter_eq_nil_iff.2 fun x hx hpx => ?_
        obtain ⟨c, hc, hxc⟩ := List.mem_flatMap.1 hx
        have hvc := hp c (List.mem_cons_of_mem _ hc) x hxc hpx
        have hbc : S.same b.1 c.1 = true := htrans _ v _ (hsymm v b.1 ▸ hsame) hvc
        have happart := (List.pairwise_cons.1 h.apart).1 c.1 (List.mem_map_of_mem hc)
        rw [hbc] at happart
        cases happart
      rw [hrest, List.append_nil, List.find?_cons_of_pos (by simpa using hsame)]
      rfl
    | false =>
      have hnone : b.2.filter p = [] := by
        refine List.filter_eq_nil_iff.2 fun x hx hpx => ?_
        have hvb := hp b List.mem_cons_self x hx hpx
        rw [hsame] at hvb
        cases hvb
      rw [hnone, List.nil_append, List.find?_cons_of_neg (by simp [hsame])]
      exact ih htail fun c hc => hp c (List.mem_cons_of_mem _ hc)

/-- **The items of a key** are those of its bucket, if the digits of all of them lead there. -/
theorem Ok.filter_lookupItems (hsymm : Symm S) (htrans : Trans S) (h : Ok S key Q 0 t)
    {p : α → Bool} (hsame : ∀ b ∈ walk S t, ∀ x ∈ b.2, p x = true → S.same v b.1 = true)
    (hleads : ∀ b ∈ walk S t, ∀ x ∈ b.2, p x = true → Leads S t (S.hash v) 0 b.1) :
    (items S t).filter p = (lookupItems S v t).filter p := by
  obtain ⟨Q', hok⟩ := h.chainOf (S.hash v)
  rw [h.filter_items hleads]
  exact hok.filter_find hsymm htrans fun b hb => hsame b (h.mem_chainOf_iff.1 hb).1

/-- An item of a bucket whose digits do not lead to the chain of the key is not found. -/
theorem Ok.filter_lt_of_not_leads (hsymm : Symm S) (htrans : Trans S) (h : Ok S key Q 0 t)
    {p : α → Bool} (hb : b ∈ walk S t) (hx : x ∈ b.2) (hpx : p x = true)
    (hleads : ¬ Leads S t (S.hash v) 0 b.1) :
    ((lookupItems S v t).filter p).length < ((items S t).filter p).length := by
  have hpos : 0 < (b.2.filter p).length :=
    List.length_pos_of_mem (List.mem_filter.2 ⟨hx, hpx⟩)
  obtain ⟨l₁, l₂, hwalk⟩ := List.append_of_mem hb
  have hlen : ((items S t).filter p).length =
      (b.2.filter p).length + (((l₁ ++ l₂).flatMap Prod.snd).filter p).length := by
    rw [items, hwalk]
    simp only [List.flatMap_append, List.flatMap_cons, List.filter_append, List.length_append]
    omega
  unfold lookupItems
  cases hfind : lookup S v t with
  | none =>
    show 0 < _
    omega
  | some c =>
    obtain ⟨hc, hcleads, -⟩ := (h.lookup_eq_some_iff hsymm htrans).1 hfind
    have hne : c ≠ b := by
      rintro rfl
      exact hleads hcleads
    have hmem : c ∈ l₁ ++ l₂ := by
      rw [hwalk] at hc
      rcases List.mem_append.1 hc with hc | hc
      · exact List.mem_append_left _ hc
      · exact List.mem_append_right _ ((List.mem_cons.1 hc).resolve_left hne)
    have hsub : (c.2.filter p).Sublist (((l₁ ++ l₂).flatMap Prod.snd).filter p) :=
      (List.sublist_flatten_of_mem (List.mem_map_of_mem hmem)).filter p
    have hle := hsub.length_le
    show (c.2.filter p).length < _
    omega

end HashTree
end Meld
