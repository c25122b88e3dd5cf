import Meld.Db.HashIterator

/-!
# A linear iterate over a hash table

`execute_linear_iter` goes through the tuples of a linear predicate, offers those that match to the
body of the iterate and consumes a tuple when the body asks for it.  On a hash table without an
exact hashed field it visits the bucket lists one after the other with `hash_table::iterator`, whose
position is a pointer to the current list.  When the body consumes the last tuple of that list, the
list is freed, and the step to the next list starts by reading the `next` pointer of the freed one.

* `LinearIter`: what the loops need to know of an iterate.  The body is a function of the state of
  the interpreter, of any type, and of the tuple it is offered; it does not touch the table.
* `iterList`, `iterTable`, `executeLinearIter`: the two loops, on the heap of the table.  A list
  that is not allocated cannot be read.
* `visitList`, `visitBuckets`: the same loops without a heap, on the lists of tuples.
* `Survives`: no bucket list that the iterate leaves behind has lost all its tuples.
* `iterTable_eq`: the loops on the heap do what those on the lists do if that is the case, and else
  they read a freed list.
* `offersOnce_iff`: so an iterate offers every tuple once exactly under that condition.
-/

namespace Meld

open Hash

/-- `return_type`. -/
inductive ReturnType where
  | ok
  | select
  | next
  | linear
  | derived
  | endLinear
  | noReturn
  deriving DecidableEq

/-- `TO_FINISH`. -/
def ReturnType.toFinish (ret : ReturnType) : Bool := ret == .linear || ret == .derived

/-- What the body of an iterate leaves: the state, what it returns, and whether `updated_map` has
the register of the iterate. -/
structure Answer (σ : Type) where
  state : σ
  ret : ReturnType
  updated : Bool

/-- A linear iterate: its register, `old_is_linear`, `tuple_is_used` and `do_matches` for its
register and its match object, and its body. -/
structure LinearIter (σ α : Type) where
  reg : ℕ
  oldIsLinear : Bool
  tupleIsUsed : α → Bool
  doMatches : α → Bool
  body : σ → α → Answer σ

/-- What a loop leaves: the state, what it returns, and the tuples it has offered. -/
structure Visit (σ α : Type) where
  state : σ
  ret : ReturnType
  offered : List α

namespace LinearIter

variable {σ α : Type}

/-- A tuple that is not offered. -/
def skips (I : LinearIter σ α) (x : α) : Bool := I.tupleIsUsed x || !I.doMatches x

/-- The tuple is taken out of its list. -/
def removes (I : LinearIter σ α) (b : Answer σ) : Bool :=
  b.ret.toFinish && (!b.updated || decide (0 < I.reg))

/-- The iterate returns. -/
def returns (I : LinearIter σ α) (ret : ReturnType) : Bool :=
  ret == .linear || (I.oldIsLinear && ret == .derived)

/-- `execute_linear_iter_list` on the bucket list at `a`.  The iterator of the list is the rest of
its tuples, with the position of the first of them. -/
def iterList (I : LinearIter σ α) (a : Ptr) :
    List α → ℕ → σ → HashTable α → Option (Visit σ α × HashTable α)
  | [], _, s, T => some (⟨s, .noReturn, []⟩, T)
  | x :: rest, pos, s, T =>
    if I.skips x then I.iterList a rest (pos + 1) s T
    else do
      let b := I.body s x
      let T ← if I.removes b then T.eraseFromList a pos else some T
      if I.returns b.ret then some (⟨b.state, b.ret, [x]⟩, T)
      else do
        let (v, T) ← I.iterList a rest (if I.removes b then pos else pos + 1) b.state T
        some (⟨v.state, v.ret, x :: v.offered⟩, T)

/-- The loop of `execute_linear_iter` over the bucket lists. -/
def iterTable (I : LinearIter σ α) :
    ℕ → Iterator → σ → HashTable α → Option (Visit σ α × HashTable α)
  | 0, _, _, _ => none
  | fuel + 1, it, s, T =>
    if it.atEnd then some (⟨s, .noReturn, []⟩, T)
    else do
      let l ← T.heap.lists it.current
      let (v, T) ← I.iterList it.current l.list 0 s T
      if v.ret ≠ .noReturn then some (v, T)
      else do
        let it ← it.next T.heap
        let (w, T) ← I.iterTable fuel it v.state T
        some (⟨w.state, w.ret, v.offered ++ w.offered⟩, T)

/-- `execute_linear_iter` on a predicate stored as a hash table, without an exact hashed field. -/
def executeLinearIter (I : LinearIter σ α) (s : σ) (T : HashTable α) :
    Option (Visit σ α × HashTable α) := do
  let it ← Iterator.begin T.heap T.sh
  I.iterTable (T.heap.fresh + 1) it s T

/-! ## The loops on lists -/

/-- The loop over the tuples of a list, and the tuples that stay in it. -/
def visitList (I : LinearIter σ α) : σ → List α → Visit σ α × List α
  | s, [] => (⟨s, .noReturn, []⟩, [])
  | s, x :: rest =>
    if I.skips x then
      let r := I.visitList s rest
      (r.1, x :: r.2)
    else
      let b := I.body s x
      let kept := if I.removes b then [] else [x]
      if I.returns b.ret then (⟨b.state, b.ret, [x]⟩, kept ++ rest)
      else
        let r := I.visitList b.state rest
        (⟨r.1.state, r.1.ret, x :: r.1.offered⟩, kept ++ r.2)

/-- The loop over the bucket lists. -/
def visitBuckets (I : LinearIter σ α) : σ → List (List α) → Visit σ α
  | s, [] => ⟨s, .noReturn, []⟩
  | s, xs :: bs =>
    let v := (I.visitList s xs).1
    if v.ret ≠ .noReturn then v
    else
      let w := I.visitBuckets v.state bs
      ⟨w.state, w.ret, v.offered ++ w.offered⟩

/-- Every bucket list that the iterate goes through without returning keeps a tuple. -/
def Survives (I : LinearIter σ α) : σ → List (List α) → Prop
  | _, [] => True
  | s, xs :: bs =>
    (I.visitList s xs).1.ret ≠ .noReturn ∨
      ((I.visitList s xs).2 ≠ [] ∧ I.Survives (I.visitList s xs).1.state bs)

/-- The iterate offers tuples that are not skipped, in the order of the list, and all of them if it
does not return early. -/
theorem visitList_offered (I : LinearIter σ α) (s : σ) (xs : List α) :
    (I.visitList s xs).1.offered <+: (xs.filter fun x => !I.skips x) ∧
      ((I.visitList s xs).1.ret = .noReturn →
        (I.visitList s xs).1.offered = xs.filter fun x => !I.skips x) := by
  induction xs generalizing s with
  | nil => exact ⟨List.prefix_rfl, fun _ => rfl⟩
  | cons x rest ih =>
    rw [visitList]
    by_cases hskip : I.skips x = true
    · rw [if_pos hskip, List.filter_cons_of_neg (by simp [hskip])]
      exact ih s
    · rw [if_neg hskip, List.filter_cons_of_pos (by simpa using hskip)]
      by_cases hret : I.returns (I.body s x).ret = true
      · simp only [hret, if_true]
        refine ⟨(List.prefix_cons_inj x).2 List.nil_prefix, fun hno => ?_⟩
        rw [hno] at hret
        simp [returns] at hret
      · simp only [hret]
        obtain ⟨hpre, heq⟩ := ih (I.body s x).state
        refine ⟨(List.prefix_cons_inj x).2 hpre, fun hno => ?_⟩
        exact congrArg (List.cons x) (heq hno)

theorem visitBuckets_offered (I : LinearIter σ α) (s : σ) (bs : List (List α)) :
    (I.visitBuckets s bs).offered.Sublist (bs.flatten.filter fun x => !I.skips x) ∧
      ((I.visitBuckets s bs).ret = .noReturn →
        (I.visitBuckets s bs).offered = bs.flatten.filter fun x => !I.skips x) := by
  induction bs generalizing s with
  | nil => exact ⟨List.Sublist.refl _, fun _ => rfl⟩
  | cons xs bs ih =>
    obtain ⟨hpre, heq⟩ := I.visitList_offered s xs
    rw [visitBuckets, List.flatten_cons, List.filter_append]
    by_cases hret : (I.visitList s xs).1.ret ≠ .noReturn
    · rw [if_pos hret]
      exact ⟨hpre.sublist.trans (List.sublist_append_left _ _), fun hno => absurd hno hret⟩
    · rw [if_neg hret]
      obtain ⟨hsub', heq'⟩ := ih (I.visitList s xs).1.state
      refine ⟨hpre.sublist.append hsub', fun hno => ?_⟩
      rw [← heq (not_not.mp hret), ← heq' hno]

end LinearIter

/-! ## The heap under the loops -/

namespace HashTable

variable {α : Type} {key : α → Value}

/-- The bucket lists of the table, as the iterator meets them. -/
def bucketLoop (h : Heap α) : ℕ → Iterator → Option (List (List α))
  | 0, _ => none
  | fuel + 1, it =>
    if it.atEnd then some []
    else do
      let l ← h.lists it.current
      let it ← it.next h
      let bs ← bucketLoop h fuel it
      some (l.list :: bs)

/-- The bucket lists of the table. -/
def buckets (T : HashTable α) : Option (List (List α)) := do
  let it ← Iterator.begin T.heap T.sh
  bucketLoop T.heap (T.heap.fresh + 1) it

/-- The heap of the table has the shape `S`, with counters that do not overflow. -/
structure Shaped (key : α → Value) (T : HashTable α) (S : Shape) : Prop where
  rep : Rep key T.heap T.sh S 0
  short : S.Short
  held : ∀ p, S.held p < 65536

variable {T T' : HashTable α} {S : Shape} {a : Ptr} {l : HashTableList α} {pos : ℕ}

/-- Removing a tuple that is not the last one changes the list only. -/
theorem eraseFromList_of_ne (hl : T.heap.lists a = some l) (hne : l.list.eraseIdx pos ≠ []) :
    T.eraseFromList a pos =
      some ⟨T.sh, T.elems - 1, withTuples T.heap a l (l.list.eraseIdx pos)⟩ := by
  have hempty : (l.list.eraseIdx pos).isEmpty = false := List.isEmpty_eq_false_iff.mpr hne
  simp only [eraseFromList, Heap.eraseFromList, Heap.writeList, hl, hempty, withTuples,
    Option.bind_eq_bind, Option.bind_some, Option.map_some, Bool.false_eq_true, if_false]

theorem checkEmptyTable_lists {h h' : Heap α} {fuel : ℕ} {p : Ptr}
    (hcheck : Heap.checkEmptyTable fuel h p = some h') : h'.lists = h.lists := by
  induction fuel generalizing h p with
  | zero => cases hcheck
  | succ fuel ih =>
    rw [Heap.checkEmptyTable] at hcheck
    obtain ⟨t, -, hcheck⟩ := Option.bind_eq_some_iff.mp hcheck
    split at hcheck
    · obtain ⟨h₁, hw₁, hcheck⟩ := Option.bind_eq_some_iff.mp hcheck
      obtain ⟨h₂, hw₂, hcheck⟩ := Option.bind_eq_some_iff.mp hcheck
      obtain ⟨h₃, hw₃, hcheck⟩ := Option.bind_eq_some_iff.mp hcheck
      have hlists : ∀ {k k' : Heap α} {q : Ptr} {f : SubhashTable → SubhashTable},
          k.writeTable q f = some k' → k'.lists = k.lists := by
        intro k k' q f hw
        obtain ⟨u, -, rfl⟩ := Option.map_eq_some_iff.mp hw
        rfl
      rw [ih hcheck, Heap.freeTable, hlists hw₃, hlists hw₂, hlists hw₁]
    · rw [Option.some.injEq] at hcheck
      rw [hcheck]

theorem lists_removeList {h h' : Heap α} {p : Ptr} (hremove : h.removeList p a = some h') :
    h'.lists a = none := by
  have hfree : ∀ {k k' : Heap α} {f : SubhashTable → SubhashTable},
      (k.freeList a).writeTable p f = some k' → k'.lists a = none := by
    intro k k' f hw
    obtain ⟨u, -, rfl⟩ := Option.map_eq_some_iff.mp hw
    simp [Heap.freeList]
  rw [Heap.removeList] at hremove
  obtain ⟨m, -, hremove⟩ := Option.bind_eq_some_iff.mp hremove
  dsimp only at hremove
  split at hremove <;> obtain ⟨h₁, -, hremove⟩ := Option.bind_eq_some_iff.mp hremove <;>
    split at hremove <;> obtain ⟨h₂, -, hremove⟩ := Option.bind_eq_some_iff.mp hremove <;>
    exact hfree hremove

/-- Removing the last tuple frees the list. -/
theorem lists_eraseFromList (hl : T.heap.lists a = some l) (hnil : l.list.eraseIdx pos = [])
    (her : T.eraseFromList a pos = some T') : T'.heap.lists a = none := by
  rw [eraseFromList, hl, Option.bind_eq_bind, Option.bind_some] at her
  obtain ⟨h', hheap, hT'⟩ := Option.bind_eq_some_iff.mp her
  obtain rfl := Option.some.inj hT'
  rw [Heap.eraseFromList, hl, Option.bind_eq_bind, Option.bind_some] at hheap
  obtain ⟨h₀, -, hrest⟩ := Option.bind_eq_some_iff.mp hheap
  rw [if_pos (by simp [hnil])] at hrest
  obtain ⟨h₁, hremove, hcheck⟩ := Option.bind_eq_some_iff.mp hrest
  show h'.lists a = none
  rw [checkEmptyTable_lists hcheck]
  exact lists_removeList hremove

/-- The tuples of a list may be replaced by some of them. -/
theorem Shaped.withTuples (H : Shaped key T S) (hl : T.heap.lists a = some l) {xs : List α}
    (hxs : xs ≠ []) (hsub : ∀ x ∈ xs, x ∈ l.list) (n : ℕ) :
    Shaped key ⟨T.sh, n, Hash.withTuples T.heap a l xs⟩ S :=
  ⟨setTuples_rep H.rep hl hxs fun x hx => (H.rep.lists a l hl).keys x (hsub x hx), H.short,
    H.held⟩

/-- Removal succeeds. -/
theorem Shaped.erase_isSome (H : Shaped key T S) (hl : T.heap.lists a = some l)
    (hpos : pos < l.list.length) : ∃ T', T.eraseFromList a pos = some T' := by
  obtain ⟨h', -, her, -⟩ := eraseFromList_rep H.rep H.short hl (List.getElem?_eq_getElem hpos)
    fun _ hmod => by rwa [Nat.mod_eq_of_lt (H.held _)] at hmod
  exact ⟨⟨T.sh, T.elems - 1, h'⟩, by simp [eraseFromList, hl, her]⟩

end HashTable

namespace LinearIter

open HashTable

variable {σ α : Type} {key : α → Value} {I : LinearIter σ α} {T : HashTable α} {S : Shape}
  {a : Ptr} {l : HashTableList α}

/-- The list at `a` has become `xs`, and is freed when `xs` is empty; while it is not, the rest of
the heap has stayed. -/
structure Became (key : α → Value) (T : HashTable α) (S : Shape) (a : Ptr) (xs : List α)
    (T' : HashTable α) : Prop where
  freed : xs = [] → T'.heap.lists a = none
  kept : xs ≠ [] → Shaped key T' S ∧ T'.sh = T.sh ∧ T'.heap.tables = T.heap.tables ∧
    T'.heap.fresh = T.heap.fresh ∧ T'.heap.tuples a = xs ∧
    ∀ b, b ≠ a → T'.heap.tuples b = T.heap.tuples b

theorem Became.trans {T₁ T₂ : HashTable α} {xs ys : List α} (h : Became key T S a xs T₁)
    (h' : Became key T₁ S a ys T₂) (hxs : xs ≠ []) : Became key T S a ys T₂ := by
  refine ⟨h'.freed, fun hys => ?_⟩
  obtain ⟨-, hsh, htables, hfresh, -, hother⟩ := h.kept hxs
  obtain ⟨H', hsh', htables', hfresh', htuples', hother'⟩ := h'.kept hys
  exact ⟨H', hsh'.trans hsh, htables'.trans htables, hfresh'.trans hfresh, htuples',
    fun b hb => (hother' b hb).trans (hother b hb)⟩

theorem became_refl (H : Shaped key T S) (hl : T.heap.lists a = some l) :
    Became key T S a l.list T :=
  ⟨fun hnil => absurd hnil (H.rep.lists a l hl).nonempty,
    fun _ => ⟨H, rfl, rfl, rfl, Heap.tuples_of_list hl, fun _ _ => rfl⟩⟩

/-- One tuple is removed. -/
theorem became_erase (H : Shaped key T S) (hl : T.heap.lists a = some l) {pos : ℕ}
    (hpos : pos < l.list.length) :
    ∃ T', T.eraseFromList a pos = some T' ∧ Became key T S a (l.list.eraseIdx pos) T' := by
  by_cases hnil : l.list.eraseIdx pos = []
  · obtain ⟨T', her⟩ := H.erase_isSome hl hpos
    refine ⟨T', her, fun _ => lists_eraseFromList hl hnil her, fun hne => absurd hnil hne⟩
  · refine ⟨_, eraseFromList_of_ne hl hnil, fun h => absurd h hnil, fun _ => ⟨?_, rfl, rfl, rfl, ?_,
      fun b hb => ?_⟩⟩
    · exact H.withTuples hl hnil (fun x hx => List.mem_of_mem_eraseIdx hx) _
    · simp [Heap.tuples, withTuples]
    · simp [Heap.tuples, withTuples, hb]

/-- **The loop over a bucket list** does on the heap what it does on the list. -/
theorem iterList_eq (H : Shaped key T S) (pre rest : List α) (s : σ)
    (htuples : T.heap.tuples a = pre ++ rest) (hne : pre ++ rest ≠ []) :
    ∃ T', I.iterList a rest pre.length s T = some ((I.visitList s rest).1, T') ∧
      Became key T S a (pre ++ (I.visitList s rest).2) T' := by
  induction rest generalizing pre s T with
  | nil =>
    obtain ⟨l, hl, hll⟩ : ∃ l, T.heap.lists a = some l ∧ l.list = pre ++ [] := by
      cases hl : T.heap.lists a with
      | none => exact absurd (htuples.symm.trans (Heap.tuples_of_none hl)) hne
      | some l => exact ⟨l, rfl, (Heap.tuples_of_list hl).symm.trans htuples⟩
    exact ⟨T, rfl, hll ▸ became_refl H hl⟩
  | cons x rest ih =>
    obtain ⟨l, hl, hll⟩ : ∃ l, T.heap.lists a = some l ∧ l.list = pre ++ x :: rest := by
      cases hl : T.heap.lists a with
      | none => exact absurd (htuples.symm.trans (Heap.tuples_of_none hl)) hne
      | some l => exact ⟨l, rfl, (Heap.tuples_of_list hl).symm.trans htuples⟩
    -- what the rest of the loop does when `x` stays
    have hstay : ∀ s, ∃ T', I.iterList a rest (pre.length + 1) s T =
        some ((I.visitList s rest).1, T') ∧
        Became key T S a (pre ++ x :: (I.visitList s rest).2) T' := by
      intro s
      have h := ih (T := T) H (pre ++ [x]) s (by simpa using htuples) (by simp)
      simpa using h
    rw [iterList, visitList]
    by_cases hskip : I.skips x = true
    · rw [if_pos hskip, if_pos hskip]
      exact hstay s
    rw [if_neg hskip, if_neg hskip]
    by_cases hrem : I.removes (I.body s x) = true
    · have herase : l.list.eraseIdx pre.length = pre ++ rest := by
        rw [hll, List.eraseIdx_append_of_length_le (Nat.le_refl _)]
        simp
      have hpos : pre.length < l.list.length := by simp [hll]
      obtain ⟨T₁, her, hbecame⟩ := became_erase H hl hpos
      rw [herase] at hbecame
      simp only [hrem, if_true, her, Option.bind_eq_bind, Option.bind_some]
      by_cases hret : I.returns (I.body s x).ret = true
      · simp only [hret, if_true]
        exact ⟨T₁, rfl, hbecame⟩
      · simp only [hret]
        by_cases hnil : pre ++ rest = []
        · -- the list is freed, and the loop is at its end
          obtain ⟨rfl, rfl⟩ := List.append_eq_nil_iff.mp hnil
          exact ⟨T₁, rfl, hbecame⟩
        · obtain ⟨H₁, -, -, -, htuples₁, -⟩ := hbecame.kept hnil
          obtain ⟨T', hiter, hb'⟩ := ih H₁ pre (I.body s x).state htuples₁ hnil
          simp only [hiter]
          exact ⟨T', rfl, hbecame.trans hb' hnil⟩
    · simp only [hrem]
      by_cases hret : I.returns (I.body s x).ret = true
      · simp only [hret, if_true, Option.bind_eq_bind, Option.bind_some]
        exact ⟨T, rfl, hll ▸ became_refl H hl⟩
      · obtain ⟨T', hiter, hb'⟩ := hstay (I.body s x).state
        simp only [hret, Option.bind_eq_bind, Option.bind_some]
        exact ⟨T', by simp [hiter], hb'⟩

/-! ## The walk over the bucket lists -/

section Walk

variable {h h' : Heap α}

theorem walk_congr (htables : h'.tables = h.tables) (d : ℕ) (p : Ptr) :
    walk h' S d p = walk h S d p := by
  induction d generalizing p with
  | zero => rfl
  | succ d ih =>
    rw [walk, walk, htables]
    cases h.tables p with
    | none => rfl
    | some t => simp only [ih]

theorem framesWalk_congr (htables : h'.tables = h.tables) (fs : List Frame) :
    framesWalk h' S fs = framesWalk h S fs := by
  induction fs with
  | nil => rfl
  | cons f fs ih =>
    have hslot : ∀ d t i, slotWalk h' S d f.sub t i = slotWalk h S d f.sub t i := by
      intro d t i
      rw [slotWalk, slotWalk, walk_congr htables]
    rw [framesWalk, framesWalk, ih, slotsWalk, slotsWalk, htables]
    cases h.tables f.sub with
    | none => rfl
    | some t => simp only [funext (hslot _ t)]

theorem framesOk_congr (htables : h'.tables = h.tables) {fs : List Frame}
    (ok : FramesOk h S fs) : FramesOk h' S fs := by
  induction fs with
  | nil => trivial
  | cons f fs ih =>
    obtain ⟨⟨t, ht, hlen⟩, okfs⟩ := ok
    exact ⟨⟨t, htables ▸ ht, hlen⟩, ih okfs⟩

/-- The position of an iterator depends on the tables only. -/
theorem iterOk_congr (htables : h'.tables = h.tables) {it : Iterator} {L : List Ptr}
    (ok : IterOk h S it L) : IterOk h' S it L := by
  rcases ok with hend | ⟨f, fs, t, xs, ys, hfr, hfok, ht, hpos, hb, hchain, hL⟩
  · exact Or.inl hend
  · refine Or.inr ⟨f, fs, t, xs, ys, hfr, framesOk_congr htables hfok, htables ▸ ht, hpos, hb,
      hchain, ?_⟩
    rw [hL, framesWalk_congr htables]

/-- The list the iterator is at. -/
theorem IterOk.current (R : Rep key h T.sh S 0) {it : Iterator} {a : Ptr} {L : List Ptr}
    (ok : IterOk h S it (a :: L)) : it.current = a ∧ ∃ l, h.lists a = some l := by
  rcases ok with ⟨hnil, -⟩ | ⟨f, fs, t, xs, ys, -, -, ht, hpos, -, hchain, hL⟩
  · cases hnil
  · obtain ⟨rfl, -⟩ := List.cons.inj hL
    obtain ⟨l, hl, -⟩ := ((R.tables _ t ht).slot _ hpos).own it.current (by rw [hchain]; simp)
    exact ⟨rfl, l, hl⟩

/-- A freed list has no next one. -/
theorem next_of_freed {it : Iterator} (hcur : it.current ≠ 0) (hfreed : h.lists it.current = none) :
    it.next h = none := by
  simp [Iterator.next, Heap.findGoodBucket, hcur, hfreed]

end Walk

/-- **The loop over the table** does on the heap what it does on the bucket lists, if these survive,
and else it reads a freed list. -/
theorem iterTable_eq (H : Shaped key T S) {it : Iterator} {L : List Ptr}
    (ok : IterOk T.heap S it L) (hnodup : L.Nodup) {fuel : ℕ} (hfuel : L.length < fuel) (s : σ) :
    (I.Survives s (L.map T.heap.tuples) → ∃ T', I.iterTable fuel it s T =
      some (I.visitBuckets s (L.map T.heap.tuples), T')) ∧
    (¬ I.Survives s (L.map T.heap.tuples) → I.iterTable fuel it s T = none) := by
  induction L generalizing it fuel s T with
  | nil =>
    obtain ⟨n, rfl⟩ : ∃ n, fuel = n + 1 := ⟨fuel - 1, by omega⟩
    have hend : it.atEnd = true := ok.atEnd
    refine ⟨fun _ => ⟨T, ?_⟩, fun hnot => absurd trivial hnot⟩
    rw [iterTable, if_pos hend]
    rfl
  | cons a L ih =>
    obtain ⟨n, rfl⟩ : ∃ n, fuel = n + 1 := ⟨fuel - 1, by omega⟩
    obtain ⟨hcur, l, hl⟩ := IterOk.current H.rep ok
    subst hcur
    have hend : it.atEnd = false := ok.atEnd
    have hne := (H.rep.lists _ l hl).nonempty
    have htuples := Heap.tuples_of_list hl
    obtain ⟨T₁, hiter, hbecame⟩ := iterList_eq (I := I) H [] l.list s htuples hne
    rw [iterTable, hend, List.map_cons, Survives, visitBuckets, htuples]
    simp only [Bool.false_eq_true, if_false, hl, Option.bind_eq_bind, Option.bind_some,
      List.length_nil, List.nil_append] at hiter hbecame ⊢
    rw [hiter, Option.bind_some]
    by_cases hret : (I.visitList s l.list).1.ret ≠ .noReturn
    · rw [if_pos hret, if_pos hret]
      exact ⟨fun _ => ⟨T₁, rfl⟩, fun hnot => absurd (Or.inl hret) hnot⟩
    rw [if_neg hret, if_neg hret, or_iff_right hret]
    by_cases hkept : (I.visitList s l.list).2 = []
    · -- the list is freed, and the iterator still points at it
      rw [next_of_freed (H.rep.ne_zero_of_list hl) (hbecame.freed hkept)]
      exact ⟨fun hs => absurd hkept hs.1, fun _ => rfl⟩
    · obtain ⟨H₁, hsh, htables, hfresh, -, hother⟩ := hbecame.kept hkept
      obtain ⟨-, it', hnext, ok'⟩ := (iterOk_congr htables ok).next H₁.rep
      have hmap : L.map T₁.heap.tuples = L.map T.heap.tuples := by
        refine List.map_congr_left fun b hb => hother b ?_
        rintro rfl
        exact (List.nodup_cons.mp hnodup).1 hb
      have hrec := ih H₁ ok' (List.nodup_cons.mp hnodup).2 (Nat.lt_of_succ_lt_succ hfuel)
        (I.visitList s l.list).1.state
      rw [hmap] at hrec
      rw [hnext]
      simp only [Option.bind_some]
      refine ⟨fun hs => ?_, fun hnot => ?_⟩
      · obtain ⟨T', hT'⟩ := hrec.1 hs.2
        exact ⟨T', by rw [hT']; rfl⟩
      · rw [hrec.2 fun hs => hnot ⟨hkept, hs⟩]
        rfl

/-- The bucket lists are those of the walk. -/
theorem bucketLoop_eq (R : Rep key T.heap T.sh S 0) {it : Iterator} {L : List Ptr}
    (ok : IterOk T.heap S it L) {fuel : ℕ} (hfuel : L.length < fuel) :
    HashTable.bucketLoop T.heap fuel it = some (L.map T.heap.tuples) := by
  induction L generalizing it fuel with
  | nil =>
    obtain ⟨n, rfl⟩ : ∃ n, fuel = n + 1 := ⟨fuel - 1, by omega⟩
    have hend : it.atEnd = true := ok.atEnd
    rw [HashTable.bucketLoop, if_pos hend]
    rfl
  | cons a L ih =>
    obtain ⟨n, rfl⟩ : ∃ n, fuel = n + 1 := ⟨fuel - 1, by omega⟩
    obtain ⟨hcur, l, hl⟩ := IterOk.current R ok
    have hend : it.atEnd = false := ok.atEnd
    obtain ⟨-, it', hnext, ok'⟩ := ok.next R
    rw [HashTable.bucketLoop, hend, hcur, hl, hnext]
    simp only [Bool.false_eq_true, if_false, Option.bind_eq_bind, Option.bind_some,
      ih ok' (Nat.lt_of_succ_lt_succ hfuel), List.map_cons, Heap.tuples_of_list hl]

/-- There are fewer bucket lists than addresses. -/
theorem length_walk_lt (R : Rep key T.heap T.sh S 0) :
    (walk T.heap S maxLevels T.sh).length < T.heap.fresh + 1 := by
  obtain ⟨t, ht, -⟩ := R.root_table
  have hsub : walk T.heap S maxLevels T.sh ⊆ List.range T.heap.fresh := by
    intro a ha
    obtain ⟨l, hl⟩ := (mem_walk R).mp ha
    exact List.mem_range.mpr (R.fresh_lists a l hl)
  have hle := (List.subperm_of_subset (walk_nodup R maxLevels ht) hsub).length_le
  rw [List.length_range] at hle
  omega

/-- **An iterate over a table**: its bucket lists, and what it does with them. -/
theorem executeLinearIter_eq (H : Shaped key T S) (I : LinearIter σ α) (s : σ) :
    ∃ bs, T.buckets = some bs ∧ (bs.flatten : Multiset α) = T.heap.stored ∧
      (I.Survives s bs → ∃ T', I.executeLinearIter s T = some (I.visitBuckets s bs, T')) ∧
      (¬ I.Survives s bs → I.executeLinearIter s T = none) := by
  obtain ⟨t, ht, -⟩ := H.rep.root_table
  obtain ⟨it, hbegin, ok⟩ := iterOk_begin H.rep
  have hlen := length_walk_lt H.rep
  refine ⟨(walk T.heap S maxLevels T.sh).map T.heap.tuples, ?_, ?_, ?_⟩
  · rw [HashTable.buckets, hbegin, Option.bind_eq_bind, Option.bind_some]
    exact bucketLoop_eq H.rep ok hlen
  · exact walk_stored H.rep
  · rw [executeLinearIter, hbegin, Option.bind_eq_bind, Option.bind_some]
    exact iterTable_eq H ok (walk_nodup H.rep maxLevels ht) hlen s

/-! ## Every tuple once -/

/-- What an iterate over a table that stores the tuples `M` promises: it reads no list that is not
allocated, it offers no tuple twice and none that is held by an enclosing iterate or does not match,
and unless it returns early it offers all others. -/
def OffersOnce (I : LinearIter σ α) (s : σ) (T : HashTable α) (M : Multiset α) : Prop :=
  ∃ v T', I.executeLinearIter s T = some (v, T') ∧
    (v.offered : Multiset α) ≤ M.filter (fun x => I.skips x = false) ∧
    (v.ret = .noReturn → (v.offered : Multiset α) = M.filter fun x => I.skips x = false)

variable [DecidableEq α] {M : Multiset α}

theorem shaped_of_reach (hr : HashTable.Reach key (HashTable.Fits key) T M) :
    ∃ S, Shaped key T S ∧ T.heap.stored = M := by
  obtain ⟨S, J, hheld⟩ := hr.bounded
  exact ⟨S, ⟨J.rep, J.short, hheld⟩, J.stored⟩

/-- An iterate whose bucket lists survive keeps its promises. -/
theorem offersOnce_of_survives (hr : HashTable.Reach key (HashTable.Fits key) T M)
    {bs : List (List α)} (hbs : T.buckets = some bs) {s : σ} (hs : I.Survives s bs) :
    OffersOnce I s T M := by
  obtain ⟨S, H, hstored⟩ := shaped_of_reach hr
  obtain ⟨bs', hbs', hflat, hrun, -⟩ := executeLinearIter_eq H I s
  obtain rfl := Option.some.inj (hbs.symm.trans hbs')
  obtain ⟨T', hT'⟩ := hrun hs
  obtain ⟨hsub, heq⟩ := I.visitBuckets_offered s bs
  have hfilter : M.filter (fun x => I.skips x = false) =
      (bs.flatten.filter fun x => !I.skips x : List α) := by
    rw [← hstored, ← hflat, Multiset.filter_coe]
    simp
  refine ⟨_, T', hT', ?_, fun hno => ?_⟩
  · rw [hfilter]
    exact hsub.subperm
  · rw [hfilter, heq hno]

/-- An iterate that frees a list and goes on does not. -/
theorem survives_of_offersOnce (hr : HashTable.Reach key (HashTable.Fits key) T M) {s : σ}
    (h : OffersOnce I s T M) : ∃ bs, T.buckets = some bs ∧ I.Survives s bs := by
  obtain ⟨S, H, -⟩ := shaped_of_reach hr
  obtain ⟨bs, hbs, -, -, hfail⟩ := executeLinearIter_eq H I s
  refine ⟨bs, hbs, ?_⟩
  by_contra hnot
  obtain ⟨v, T', hT', -⟩ := h
  rw [hfail hnot] at hT'
  cases hT'

/-- **An iterate over a hash table offers every tuple once and reads no freed list exactly if every
bucket list that it goes through without returning keeps a tuple.** -/
theorem offersOnce_iff (hr : HashTable.Reach key (HashTable.Fits key) T M)
    (I : LinearIter σ α) (s : σ) :
    OffersOnce I s T M ↔ ∃ bs, T.buckets = some bs ∧ I.Survives s bs :=
  ⟨survives_of_offersOnce hr, fun ⟨_, hbs, hs⟩ => offersOnce_of_survives hr hbs hs⟩

/-- The iterate whose body consumes every tuple it is offered. -/
def consumeAll : LinearIter Unit Tuple where
  reg := 0
  oldIsLinear := false
  tupleIsUsed := fun _ => false
  doMatches := fun _ => true
  body := fun _ _ => ⟨(), .derived, false⟩

theorem visitList_consumeAll (xs : List Tuple) :
    consumeAll.visitList () xs = (⟨(), .noReturn, xs⟩, []) := by
  induction xs with
  | nil => rfl
  | cons x xs ih =>
    have hskip : consumeAll.skips x = false := rfl
    have hret : consumeAll.returns .derived = false := rfl
    rw [visitList, hskip]
    simp only [Bool.false_eq_true, if_false]
    rw [show consumeAll.body () x = ⟨(), .derived, false⟩ from rfl]
    simp only [hret, Bool.false_eq_true, if_false, ih]
    rfl

theorem not_survives_consumeAll {bs : List (List Tuple)} (hbs : bs ≠ []) :
    ¬ consumeAll.Survives () bs := by
  cases bs with
  | nil => exact absurd rfl hbs
  | cons xs bs =>
    rw [Survives, visitList_consumeAll]
    rintro (hret | ⟨hne, -⟩)
    · exact hret rfl
    · exact hne rfl

/-- The iterate whose body consumes only one tuple. -/
def consumeOne (x : Tuple) : LinearIter Unit Tuple :=
  { consumeAll with body := fun _ y => ⟨(), if y = x then .derived else .noReturn, false⟩ }

/-- Two tuples with one key: one of them is consumed, the other keeps the bucket list. -/
theorem offersOnce_iff_pair : ∃ T,
    HashTable.filled (getField 0) [[.int 7, .int 1], [.int 7, .int 2]] = some T ∧
      OffersOnce (consumeOne [.int 7, .int 1]) () T {[.int 7, .int 1], [.int 7, .int 2]} := by
  have hrun : (HashTable.filled (getField 0) [[.int 7, .int 1], [.int 7, .int 2]]).bind
      HashTable.buckets = some [[[.int 7, .int 2], [.int 7, .int 1]]] := by decide +kernel
  obtain ⟨T, hT, hbs⟩ := Option.bind_eq_some_iff.mp hrun
  exact ⟨T, hT, (offersOnce_iff (HashTable.reach_filled hT) (consumeOne [.int 7, .int 1]) ()).2
    ⟨_, hbs, .inr ⟨by decide, trivial⟩⟩⟩

/-- A table that stores the tuple `(7)` alone. -/
theorem exists_singleton : ∃ T, HashTable.Reach (getField 0) (HashTable.Fits (getField 0)) T
    {[.int 7]} := by
  obtain ⟨T, b, hins, -⟩ := (HashTable.bounded_setup (getField 0)).insert
    (HashTable.fits_setup (getField 0) [.int 7])
  exact ⟨T, .insert .setup (HashTable.fits_setup _ _) hins⟩

/-- **Consuming the only tuple of a bucket list** makes the iterate read the list it has freed. -/
theorem not_forall_offersOnce :
    ¬ ∀ (σ : Type) (key : Tuple → Value) (I : LinearIter σ Tuple) (s : σ) (T : HashTable Tuple)
      (M : Multiset Tuple), HashTable.Reach key (HashTable.Fits key) T M →
        OffersOnce I s T M := by
  intro hall
  obtain ⟨T, hr⟩ := exists_singleton
  obtain ⟨S, H, hstored⟩ := shaped_of_reach hr
  obtain ⟨bs, hbs, hflat, -⟩ := executeLinearIter_eq H consumeAll ()
  obtain ⟨bs', hbs', hs⟩ := survives_of_offersOnce hr (hall _ _ consumeAll () T _ hr)
  obtain rfl := Option.some.inj (hbs.symm.trans hbs')
  refine not_survives_consumeAll ?_ hs
  rintro rfl
  rw [hstored] at hflat
  have hcard := congrArg Multiset.card hflat
  simp at hcard

end LinearIter
end Meld
