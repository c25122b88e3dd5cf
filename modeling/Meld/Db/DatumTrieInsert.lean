import Meld.Db.DatumTrieCorrect

/-!
# Filling a trie

A sequence of insertions into an empty trie.  They are to succeed, and to tell of every tuple
whether an equal one was there.  `tuple::equal` throws for booleans and structures, and of the types
it compares only threads can make an insertion abort: a hash table of threads cannot be expanded.

* `insertAll`, `reports`: the insertions and what they are to answer.
* `Crowded`: threads that do not fit in the first hash table.
* `Filled`: the trie of the tuples that were inserted.
* `Filled.insert`: one insertion.
* `sound_iff`: when the whole sequence is as it should be.
-/

namespace Meld
namespace DatumTrie

open WordTree Datum

variable (H : Hashes) (isCycle : Bool)

/-- Insertions one after the other, each with its depth: the trie, and what they answer. -/
def insertAll : DatumTrie → List (List Datum × ℕ) → Option (DatumTrie × List Bool)
  | T, [] => some (T, [])
  | T, x :: seq =>
    match T.insertTuple H isCycle x.1 x.2 with
    | none => none
    | some (T', isNew) => (insertAll T' seq).map fun r => (r.1, isNew :: r.2)

/-- A tuple is new when `tuple::equal` holds of it and no earlier one. -/
def reports (fields : List FieldType) : List (List Datum) → List (List Datum × ℕ) → List Bool
  | _, [] => []
  | earlier, x :: seq =>
    (earlier.all fun e => decide (tupleEqual fields e x.1 ≠ some true)) ::
      reports fields (earlier ++ [x.1]) seq

/-- The insertions succeed and answer as they should, and `tuple::equal` throws for no tuples of the
predicate. -/
def Sound (fields : List FieldType) (seq : List (List Datum × ℕ)) : Prop :=
  (∀ s t, AllHaveType s fields → AllHaveType t fields → tupleEqual fields s t ≠ none) ∧
    ∃ T, insertAll H isCycle empty seq = some (T, reports fields [] seq)

/-- The symbols that follow `u` in the words of the tuples. -/
def followers (u : List Symbol) (tuples : List (List Datum)) : Finset Symbol :=
  (tuples.filterMap fun e => if u <+: words e then (words e)[u.length]? else none).toFinset

/-- At one place the tuple has a thread that none of the earlier tuples has there, although they
have nine others already, four of which with identifiers that are congruent to its own modulo 64. -/
def Crowded (earlier : List (List Datum)) (tpl : List Datum) : Prop :=
  ∃ u t rest, words tpl = u ++ .thread t :: rest ∧ .thread t ∉ followers u earlier ∧
    9 ≤ (followers u earlier).card ∧
    4 ≤ ((followers u earlier).filter fun d =>
      H.hashItem d % Trie.hashBaseBuckets = H.threadId t % Trie.hashBaseBuckets).card

variable {H isCycle} {fields : List FieldType} {T T' : DatumTrie} {tpl : List Datum} {depth : ℕ}
  {earlier : List (List Datum)}

theorem mem_followers {u : List Symbol} {d : Symbol} :
    d ∈ followers u earlier ↔ ∃ e ∈ earlier, u ++ [d] <+: words e := by
  rw [followers, List.mem_toFinset, List.mem_filterMap]
  refine exists_congr fun e => and_congr_right fun _ => ?_
  constructor
  · intro h
    split at h
    next hpre =>
      obtain ⟨r, hr⟩ := hpre
      rw [← hr, List.getElem?_append_right (Nat.le_refl _), Nat.sub_self] at h
      cases r with
      | nil => cases h
      | cons f r =>
        obtain rfl := Option.some.inj h
        exact ⟨r, by rw [← hr, List.append_assoc]; rfl⟩
    next => cases h
  · rintro ⟨r, hr⟩
    have hpre : u <+: words e := ⟨[d] ++ r, by rw [← hr, List.append_assoc]⟩
    rw [if_pos hpre, ← hr, List.append_assoc, List.getElem?_append_right (Nat.le_refl _),
      Nat.sub_self]
    rfl

end DatumTrie

/-! ## Comparable types -/

namespace Datum

variable {s : List Datum} {ts : List FieldType} {v : Datum} {ty : FieldType}

/-- The values that a value of a comparable type pushes are of comparable types. -/
theorem HasType.pushes_comparable (hv : HasType v ty) (hty : ty.Comparable) :
    v.symbol.hashable = true ∧ ∃ ts, AllHaveType v.pushes ts ∧ ∀ ty ∈ ts, ty.Comparable := by
  cases hty with
  | @list t ht =>
    cases hv with
    | nil => exact ⟨rfl, [], .nil, fun _ hty => absurd hty List.not_mem_nil⟩
    | cons hhead htail =>
      refine ⟨rfl, [t, .list t], .cons hhead (.cons htail .nil), ?_⟩
      exact List.forall_mem_cons.2 ⟨ht, List.forall_mem_singleton.2 (.list ht)⟩
  | _ =>
    cases hv
    exact ⟨rfl, [], .nil, fun _ hty => absurd hty List.not_mem_nil⟩

/-- Tuples of comparable types are spelled without booleans and structures. -/
theorem AllHaveType.hashable (hs : AllHaveType s ts) (hts : ∀ ty ∈ ts, ty.Comparable) :
    ∀ d ∈ words s, d.hashable = true := by
  obtain ⟨n, hn⟩ : ∃ n, n = (words s).length := ⟨_, rfl⟩
  induction n generalizing s ts with
  | zero =>
    rw [List.length_eq_zero_iff.1 hn.symm]
    exact fun d hd => absurd hd List.not_mem_nil
  | succ n ih =>
    cases hs with
    | nil => exact absurd hn (Nat.succ_ne_zero n)
    | @cons v ty vs ts hv hvs =>
      obtain ⟨hsymbol, tys, hpush, htys⟩ := hv.pushes_comparable (hts ty List.mem_cons_self)
      rw [words_cons] at hn ⊢
      refine List.forall_mem_cons.2 ⟨hsymbol, ih (hpush.append hvs) (fun ty' hty' => ?_)
        (Nat.succ.inj hn)⟩
      rcases List.mem_append.1 hty' with hty' | hty'
      · exact htys ty' hty'
      · exact hts ty' (List.mem_cons_of_mem _ hty')

end Datum

namespace DatumTrie

open WordTree Datum

variable {H : Hashes} {isCycle : Bool} {fields : List FieldType} {T T' : DatumTrie}
  {tpl : List Datum} {depth : ℕ} {earlier : List (List Datum)}

/-- The trie of the tuples inserted so far, whose levels of threads are lists of eight at most or
the first hash table. -/
structure Filled (H : Hashes) (fields : List FieldType) (T : DatumTrie)
    (earlier : List (List Datum)) : Prop where
  inv : Inv H fields T
  holds : ∀ w, (∃ l ∈ T.leaves, words l.tpl = w) ↔ ∃ e ∈ earlier, words e = w
  fits : ∀ p t, .thread t ∈ (T.child p).children →
    (∀ nodes, T.child p = .siblings nodes → nodes.length ≤ Trie.hashListThreshold) ∧
    ∀ total buckets, T.child p = .hash total buckets →
      9 ≤ total ∧ buckets.length = Trie.hashBaseBuckets

theorem filled_empty : Filled H fields empty [] where
  inv := inv_empty
  holds := fun _ => iff_of_false (fun ⟨_, hl, _⟩ => List.not_mem_nil hl)
    fun ⟨_, he, _⟩ => List.not_mem_nil he
  fits := fun _ _ ht => absurd ht List.not_mem_nil

namespace Filled

theorem present_iff (h : Filled H fields T earlier) (tpl : List Datum) :
    T.Present tpl ↔ ∃ e ∈ earlier, words e = words tpl := h.holds _

/-- The children of a node are the symbols that follow it in the tuples. -/
theorem toFinset_children (h : Filled H fields T earlier) (u : List Symbol) :
    (T.child u.reverse).children.toFinset = followers u earlier := by
  ext d
  rw [List.mem_toFinset, h.inv.mem_children, mem_followers]
  constructor
  · rintro ⟨l, hl, hpre⟩
    obtain ⟨e, he, hword⟩ := (h.holds (words l.tpl)).1 ⟨l, hl, rfl⟩
    exact ⟨e, he, hword ▸ hpre⟩
  · rintro ⟨e, he, hpre⟩
    obtain ⟨l, hl, hword⟩ := (h.holds (words e)).2 ⟨e, he, rfl⟩
    exact ⟨l, hl, hword ▸ hpre⟩

theorem card_followers (h : Filled H fields T earlier) (u : List Symbol) :
    (followers u earlier).card = (T.child u.reverse).children.length := by
  rw [← h.toFinset_children, List.toFinset_card_of_nodup (h.inv.grown.ok _).nodup]

/-- The followers of one bucket. -/
theorem card_filter_followers (h : Filled H fields T earlier) {u : List Symbol} {total : ℕ}
    {buckets : List (List Symbol)} (hc : T.child u.reverse = .hash total buckets) (d : Symbol) :
    ((followers u earlier).filter fun e =>
      H.hashItem e % buckets.length = H.hashItem d % buckets.length).card =
      (Buckets.bucketOf H.hashItem buckets d).length := by
  have hok := h.inv.grown.ok u.reverse
  rw [hc] at hok
  have hset : ((followers u earlier).filter fun e =>
      H.hashItem e % buckets.length = H.hashItem d % buckets.length) =
      (Buckets.bucketOf H.hashItem buckets d).toFinset := by
    rw [← hok.1.filter_flatten d, ← h.toFinset_children, hc]
    ext e
    simp only [Finset.mem_filter, List.mem_toFinset, List.mem_filter, decide_eq_true_eq]
    rfl
  rw [hset, List.toFinset_card_of_nodup]
  exact hok.2.1.sublist (Buckets.bucketOf_sublist hok.1.pos d)

/-- A tuple of comparable types never clashes. -/
theorem not_clash (hts : ∀ ty ∈ fields, ty.Comparable) (ht : AllHaveType tpl fields) :
    ¬ T.Clash tpl := by
  rintro ⟨u, b, rest, hw, -⟩
  have hbool : Symbol.bool b ∈ words tpl := by
    rw [hw]
    exact List.mem_append_right _ List.mem_cons_self
  exact absurd (ht.hashable hts _ hbool) Bool.false_ne_true

/-- A tuple that is there is not crowded out. -/
theorem not_crowded_of_present (h : Filled H fields T earlier) (hin : T.Present tpl) :
    ¬ Crowded H earlier tpl := by
  rintro ⟨u, t, rest, hw, hnot, -⟩
  obtain ⟨e, he, hword⟩ := (h.present_iff tpl).1 hin
  refine hnot (mem_followers.2 ⟨e, he, rest, ?_⟩)
  rw [hword, hw, List.append_assoc]
  rfl

/-- A tuple is crowded out where its descent stops, or nowhere. -/
theorem crowded_iff (h : Filled H fields T earlier) {u r : List Symbol} {s : Symbol}
    (hw : words tpl = u ++ s :: r) (hnot : s ∉ (T.child u.reverse).children)
    (hin : Grown.Has T.addresses u.reverse) :
    Crowded H earlier tpl ↔ ∃ t, s = .thread t ∧ 9 ≤ (followers u earlier).card ∧
      4 ≤ ((followers u earlier).filter fun d =>
        H.hashItem d % Trie.hashBaseBuckets = H.threadId t % Trie.hashBaseBuckets).card := by
  have hmem : ∀ (u : List Symbol) (d : Symbol), d ∈ followers u earlier ↔
      d ∈ (T.child u.reverse).children := by
    intro u d
    rw [← h.toFinset_children, List.mem_toFinset]
  constructor
  · rintro ⟨u', t, rest, hw', hnot', hnine, hfour⟩
    have hsplit : u ++ s :: r = u' ++ .thread t :: rest := hw.symm.trans hw'
    rcases List.append_eq_append_iff.1 hsplit with ⟨m, hm, hrest⟩ | ⟨m, hm, hrest⟩
    · cases m with
      | nil =>
        rw [List.append_nil] at hm
        subst hm
        exact ⟨t, (List.cons.inj hrest).1, hnine, hfour⟩
      | cons e m =>
        -- the earlier tuples go on past the place where the descent stops
        exfalso
        obtain ⟨rfl, -⟩ := List.cons.inj hrest
        obtain ⟨d, hd⟩ := Finset.card_pos.1 (Nat.lt_of_lt_of_le (by decide) hnine)
        obtain ⟨f, hf, hpre⟩ := mem_followers.1 hd
        refine hnot ((hmem u s).1 (mem_followers.2 ⟨f, hf, List.IsPrefix.trans ?_ hpre⟩))
        exact ⟨m ++ [d], by rw [hm]; simp⟩
    · cases m with
      | nil =>
        rw [List.append_nil] at hm
        subst hm
        exact ⟨t, (List.cons.inj hrest).1.symm, hnine, hfour⟩
      | cons e m =>
        -- the descent has gone past the place
        exfalso
        obtain ⟨rfl, -⟩ := List.cons.inj hrest
        rcases hin with hnil | ⟨a, ⟨l, hl, rfl⟩, hsuf⟩
        · rw [List.reverse_eq_nil_iff, hm] at hnil
          exact absurd hnil (List.append_ne_nil_of_right_ne_nil _ (List.cons_ne_nil _ _))
        · rw [(h.inv.spelled l hl).2, List.reverse_suffix] at hsuf
          refine hnot' ((hmem u' _).2 ((h.inv.mem_children u' _).2
            ⟨l, hl, List.IsPrefix.trans ?_ hsuf⟩))
          exact ⟨m, by rw [hm]; simp⟩
  · rintro ⟨t, rfl, hnine, hfour⟩
    exact ⟨u, t, r, hw, fun hin => hnot ((hmem u _).1 hin), hnine, hfour⟩

/-- Where a tuple has a thread, the others have threads. -/
theorem exists_thread (h : Filled H fields T earlier) (ht : AllHaveType tpl fields)
    {u r : List Symbol} {t : BitVec 64} (hw : words tpl = u ++ .thread t :: r)
    (hne : (T.child u.reverse).children ≠ []) :
    ∃ t', .thread t' ∈ (T.child u.reverse).children := by
  obtain ⟨e, he⟩ := List.exists_mem_of_ne_nil _ hne
  obtain ⟨t', rfl⟩ := Symbol.eq_thread (h.inv.kind_eq ht hw he)
  exact ⟨t', he⟩

/-- Restructuring aborts exactly for a crowded tuple. -/
theorem restructure_eq_none_iff (h : Filled H fields T earlier)
    (hts : ∀ ty ∈ fields, ty.Comparable) (ht : AllHaveType tpl fields) {u r : List Symbol}
    {s : Symbol} (hw : words tpl = u ++ s :: r) (hnot : s ∉ (T.child u.reverse).children)
    (hleaf : T.child u.reverse ≠ .leaf) (hin : Grown.Has T.addresses u.reverse) :
    restructure H s (((T.child u.reverse).candidates H.hashItem s).length + 1)
      (T.child u.reverse) = none ↔ Crowded H earlier tpl := by
  have hs : s.hashable = true := ht.hashable hts s (hw ▸ List.mem_append_right _ List.mem_cons_self)
  have hok := h.inv.grown.ok u.reverse
  rw [h.crowded_iff hw hnot hin]
  cases hc : T.child u.reverse with
  | leaf => exact absurd hc hleaf
  | siblings nodes =>
    refine iff_of_false ?_ ?_
    · simp only [restructure, hs, if_true]
      split <;> exact Option.some_ne_none _
    · rintro ⟨t, rfl, hnine, -⟩
      rw [h.card_followers, hc] at hnine
      have hne : (T.child u.reverse).children ≠ [] := by
        rw [hc]
        exact List.ne_nil_of_length_pos (Nat.lt_of_lt_of_le (by decide) hnine)
      obtain ⟨t', ht'⟩ := h.exists_thread ht hw hne
      have height := (h.fits _ t' ht').1 nodes hc
      exact absurd (Nat.le_trans hnine height) (by decide)
  | hash total buckets =>
    rw [hc] at hok
    have hsize : ∀ t, s = .thread t → 9 ≤ (followers u earlier).card ∧
        ((followers u earlier).filter fun d => H.hashItem d % Trie.hashBaseBuckets =
          H.threadId t % Trie.hashBaseBuckets).card =
          (Buckets.bucketOf H.hashItem buckets s).length := by
      rintro t rfl
      have hne : (T.child u.reverse).children ≠ [] := by
        rw [hc]
        exact hok.2.2.2
      obtain ⟨t', ht'⟩ := h.exists_thread ht hw hne
      obtain ⟨hnine, hlength⟩ := (h.fits _ t' ht').2 total buckets hc
      refine ⟨?_, ?_⟩
      · rw [h.card_followers, hc]
        exact hok.2.2.1 ▸ hnine
      · rw [← h.card_filter_followers hc, hlength]
        rfl
    have hcount : restructure H s ((Buckets.bucketOf H.hashItem buckets s).length + 1)
        (.hash total buckets) = none ↔
        4 ≤ (Buckets.bucketOf H.hashItem buckets s).length ∧ s.expandable = false := by
      rw [restructure]
      by_cases hlong : (Buckets.bucketOf H.hashItem buckets s).length + 1 >
          Trie.hashListThreshold / 2
      · have hfour : 4 ≤ (Buckets.bucketOf H.hashItem buckets s).length := Nat.lt_succ_iff.1 hlong
        rw [if_pos hlong]
        cases hexp : s.expandable with
        | false => exact iff_of_true rfl ⟨hfour, rfl⟩
        | true => exact iff_of_false (Option.some_ne_none _) fun hb => Bool.noConfusion hb.2
      · have hfour : ¬ 4 ≤ (Buckets.bucketOf H.hashItem buckets s).length := fun hfour =>
          hlong (Nat.lt_succ_iff.2 hfour)
        rw [if_neg hlong]
        exact iff_of_false (Option.some_ne_none _) fun hb => hfour hb.1
    refine hcount.trans ⟨?_, ?_⟩
    · rintro ⟨hfour, hexp⟩
      cases s with
      | thread t =>
        obtain ⟨hnine, heq⟩ := hsize t rfl
        exact ⟨t, rfl, hnine, heq ▸ hfour⟩
      | bool b => cases hs
      | size n => cases hs
      | _ => cases hexp
    · rintro ⟨t, rfl, -, hfour⟩
      exact ⟨(hsize t rfl).2 ▸ hfour, rfl⟩

/-- The level where a tuple is added still fits. -/
theorem fits_add (h : Filled H fields T earlier) (ht : AllHaveType tpl fields)
    {u r : List Symbol} {s : Symbol} (hw : words tpl = u ++ s :: r)
    (hleaf : T.child u.reverse ≠ .leaf) {c : Level Symbol}
    (hre : Level.Rearranged H.hashItem (T.child u.reverse) c)
    (hc : restructure H s (((T.child u.reverse).candidates H.hashItem s).length + 1)
      (T.child u.reverse) = some c) {t : BitVec 64}
    (hthread : .thread t ∈ (c.add H.hashItem s).children) :
    (∀ nodes, c.add H.hashItem s = .siblings nodes → nodes.length ≤ Trie.hashListThreshold) ∧
      ∀ total buckets, c.add H.hashItem s = .hash total buckets →
        9 ≤ total ∧ buckets.length = Trie.hashBaseBuckets := by
  -- the new symbol is a thread, as the others are
  have hs : ∃ t', s = .thread t' := by
    have hcleaf : c ≠ .leaf := by rw [Ne, hre.leaf]; exact hleaf
    rw [(hre.ok.perm_add hcleaf s).mem_iff, List.mem_cons, hre.perm.mem_iff] at hthread
    rcases hthread with heq | hold
    · exact ⟨t, heq.symm⟩
    · exact Symbol.eq_thread (h.inv.kind_eq ht hw hold).symm
  obtain ⟨t', rfl⟩ := hs
  cases hlevel : T.child u.reverse with
  | leaf => exact absurd hlevel hleaf
  | siblings nodes =>
    rw [hlevel] at hc
    simp only [restructure, Symbol.hashable, if_true] at hc
    split at hc
    next hcount =>
      obtain rfl := Option.some.inj hc
      refine ⟨fun _ heq => (by cases heq), fun total buckets heq => ?_⟩
      obtain ⟨rfl, rfl⟩ := Level.hash.inj heq
      have hnodes : Trie.hashListThreshold < nodes.length + 1 := hcount
      refine ⟨hnodes, ?_⟩
      rw [Buckets.length_insert, Buckets.length_rehash]
    next hcount =>
      obtain rfl := Option.some.inj hc
      refine ⟨fun nodes' heq => ?_, fun _ _ heq => by cases heq⟩
      obtain rfl := Level.siblings.inj heq
      exact Nat.not_lt.1 hcount
  | hash total buckets =>
    have hok := h.inv.grown.ok u.reverse
    have hne : (T.child u.reverse).children ≠ [] := by
      rw [hlevel] at hok ⊢
      exact hok.2.2.2
    obtain ⟨t'', ht''⟩ := h.exists_thread ht hw hne
    obtain ⟨hnine, hlength⟩ := (h.fits _ t'' ht'').2 total buckets hlevel
    rw [hlevel] at hc
    simp only [restructure, Symbol.expandable, Bool.false_eq_true, if_false] at hc
    split at hc
    next => cases hc
    next =>
      obtain rfl := Option.some.inj hc
      refine ⟨fun _ heq => (by cases heq), fun total' buckets' heq => ?_⟩
      obtain ⟨rfl, rfl⟩ := Level.hash.inj heq
      exact ⟨Nat.le_succ_of_le hnine, by rw [Buckets.length_insert, hlength]⟩

/-- One more tuple among the earlier ones. -/
theorem holds_append (h : Filled H fields T earlier) {l : DatumLeaf}
    (hleaves : T'.leaves = T.leaves ++ [l]) (hl : l.tpl = tpl) (w : List Symbol) :
    (∃ l ∈ T'.leaves, words l.tpl = w) ↔ ∃ e ∈ earlier ++ [tpl], words e = w := by
  rw [hleaves]
  simp only [List.mem_append, List.mem_singleton, or_and_right, exists_or, exists_eq_left, hl,
    h.holds w]

theorem renumber (h : Filled H fields T earlier) (n : ℕ) :
    Filled H fields { T with numberOfReferences := n } earlier :=
  ⟨h.inv.renumber n, h.holds, h.fits⟩

/-- What an insertion is to answer. -/
theorem all_iff (h : Filled H fields T earlier) (tpl : List Datum) :
    (earlier.all fun e => decide (words e ≠ words tpl)) = true ↔ ¬ T.Present tpl := by
  rw [List.all_eq_true, h.present_iff]
  simp only [decide_eq_true_eq, not_exists, not_and]

/-- A tuple that is there is counted once more. -/
theorem recount (h : Filled H fields T earlier) (p : List Symbol) {f : DatumLeaf → DatumLeaf}
    (hf : ∀ l, (f l).node = l.node ∧ (f l).tpl = l.tpl) (hin : T.Present tpl) :
    Filled H fields { T with leaves := updateLeaf p f T.leaves } (earlier ++ [tpl]) := by
  refine ⟨h.inv.updateLeaf p hf _, fun w => ?_, h.fits⟩
  have hold : (∃ l ∈ updateLeaf p f T.leaves, words l.tpl = w) ↔
      ∃ l ∈ T.leaves, words l.tpl = w := by
    have htpl : ∀ l : DatumLeaf, (if l.node = p then f l else l).tpl = l.tpl := by
      intro l
      split
      next => exact (hf l).2
      next => rfl
    constructor
    · rintro ⟨l, hl, rfl⟩
      obtain ⟨m, hm, rfl⟩ := List.mem_map.1 hl
      exact ⟨m, hm, by rw [htpl]⟩
    · rintro ⟨m, hm, rfl⟩
      exact ⟨_, List.mem_map.2 ⟨m, hm, rfl⟩, by rw [htpl]⟩
  rw [hold, h.holds]
  simp only [List.mem_append, List.mem_singleton, or_and_right, exists_or, exists_eq_left]
  refine (or_iff_left_of_imp fun heq => ?_).symm
  obtain ⟨e, he, hword⟩ := (h.present_iff tpl).1 hin
  exact ⟨e, he, hword.trans heq⟩

/-- The tuple without fields is the first. -/
theorem insertRoot (h : Filled H [] T earlier) (hleaf : T.child [] ≠ .leaf) (isCycle : Bool)
    (depth : ℕ) :
    Filled H [] { T with
      child := Function.update T.child [] .leaf
      leaves := [createLeaf isCycle [] [] depth] } (earlier ++ [[]]) := by
  have hnil := h.inv.leaves_eq_nil hleaf
  refine ⟨h.inv.insertRoot hleaf _, h.holds_append (by rw [hnil]; rfl) rfl, fun p t ht => ?_⟩
  simp only at ht
  by_cases hp : p = []
  · rw [hp, Function.update_self] at ht
    exact absurd ht List.not_mem_nil
  · rw [Function.update_of_ne hp, h.inv.grown.mem_children] at ht
    obtain ⟨a, ⟨l, hl, -⟩, -⟩ := ht
    rw [hnil] at hl
    exact absurd hl List.not_mem_nil

/-- **One insertion**: it aborts for a crowded tuple, and else tells whether the tuple is new. -/
theorem insert (h : Filled H fields T earlier) (hts : ∀ ty ∈ fields, ty.Comparable)
    (ht : AllHaveType tpl fields) (depth : ℕ) :
    (Crowded H earlier tpl → T.insertTuple H isCycle tpl depth = none) ∧
      (¬ Crowded H earlier tpl → ∃ T', T.insertTuple H isCycle tpl depth =
          some (T', earlier.all fun e => decide (words e ≠ words tpl)) ∧
        Filled H fields T' (earlier ++ [tpl])) := by
  have h₀ := h.renumber (T.numberOfReferences + 1)
  have hclash : ¬ DatumTrie.Clash { T with numberOfReferences := T.numberOfReferences + 1 } tpl :=
    not_clash hts ht
  by_cases hin : T.Present tpl
  · refine ⟨fun hcrowd => absurd hcrowd (h.not_crowded_of_present hin), fun _ => ?_⟩
    have hroot : ¬ (tpl = [] ∧ T.child [] ≠ .leaf) := by
      rintro ⟨rfl, hleaf⟩
      exact hleaf (h.inv.root_leaf_iff.2 hin)
    have hall : (earlier.all fun e => decide (words e ≠ words tpl)) = false :=
      Bool.eq_false_iff.2 fun hall => (h.all_iff tpl).1 hall hin
    refine ⟨_, ?_, h₀.recount (f := addNew isCycle depth) (words tpl).reverse
      (fun l => ⟨rfl, rfl⟩) hin⟩
    rw [DatumTrie.insertTuple, DatumTrie.checkInsert, if_neg hroot,
      h₀.inv.descend_present ht hclash hin, hall]
    rfl
  by_cases hroot : tpl = [] ∧ T.child [] ≠ .leaf
  · obtain ⟨rfl, hleaf⟩ := hroot
    refine ⟨?_, fun _ => ?_⟩
    · rintro ⟨u, t, rest, hw, -⟩
      exact absurd hw (List.append_ne_nil_of_right_ne_nil u (List.cons_ne_nil _ _)).symm
    · cases ht
      refine ⟨_, ?_, h₀.insertRoot hleaf isCycle depth⟩
      rw [DatumTrie.insertTuple, DatumTrie.checkInsert, if_pos ⟨rfl, hleaf⟩,
        (h.all_iff []).2 hin]
      rfl
  · obtain ⟨u, v, stk, hw, hnot, hleaf, hhas, hnone, hsome⟩ := h₀.inv.checkInsert_absent
      ht hclash hin (h.inv.ne_nil hroot hin)
    rw [words_cons] at hw
    have hcrowded := h₀.restructure_eq_none_iff hts ht hw hnot hleaf hhas
    refine ⟨fun hcrowd => ?_, fun hcrowd => ?_⟩
    · rw [DatumTrie.insertTuple, hnone (hcrowded.2 hcrowd)]
      rfl
    · obtain ⟨c, hc⟩ := Option.ne_none_iff_exists'.1 fun hnone => hcrowd (hcrowded.1 hnone)
      obtain ⟨T', hT', hinv, hleaves, -, hself, hother⟩ := hsome c hc
      obtain ⟨hre, -⟩ := h₀.inv.restructure_spec ht hclash hw hnot hleaf hc
      refine ⟨T', ?_, hinv, h₀.holds_append hleaves rfl, fun p t hthread => ?_⟩
      · rw [DatumTrie.insertTuple, hT', (h.all_iff tpl).2 hin]
        rfl
      · by_cases hp : p = u.reverse
        · subst hp
          rw [hself] at hthread ⊢
          exact h₀.fits_add ht hw hleaf hre hc hthread
        · rcases hother p hp with hchild | hchild | ⟨nodes, hchild, hone⟩
          · rw [hchild] at hthread
            exact absurd hthread List.not_mem_nil
          · rw [hchild] at hthread ⊢
            exact h.fits p t hthread
          · rw [hchild]
            refine ⟨fun nodes' heq => ?_, fun _ _ heq => by cases heq⟩
            obtain rfl := Level.siblings.inj heq
            exact Nat.le_trans hone (by decide)

/-- The insertions succeed, and answer as they should, exactly when no tuple is crowded out. -/
theorem insertAll_iff (h : Filled H fields T earlier) (hts : ∀ ty ∈ fields, ty.Comparable)
    (hearlier : ∀ e ∈ earlier, AllHaveType e fields) (seq : List (List Datum × ℕ))
    (hseq : ∀ x ∈ seq, AllHaveType x.1 fields) :
    (∃ T', insertAll H isCycle T seq = some (T', reports fields earlier seq)) ↔
      ∀ before x after, seq = before ++ x :: after →
        ¬ Crowded H (earlier ++ before.map Prod.fst) x.1 := by
  induction seq generalizing T earlier with
  | nil =>
    refine iff_of_true ⟨T, rfl⟩ fun before x after heq => ?_
    exact absurd heq (List.append_ne_nil_of_right_ne_nil before (List.cons_ne_nil _ _)).symm
  | cons x seq ih =>
    have hx := hseq x List.mem_cons_self
    have hrest : ∀ y ∈ seq, AllHaveType y.1 fields := fun y hy =>
      hseq y (List.mem_cons_of_mem _ hy)
    have hearlier' : ∀ e ∈ earlier ++ [x.1], AllHaveType e fields := by
      intro e he
      rcases List.mem_append.1 he with he | he
      · exact hearlier e he
      · rw [List.mem_singleton.1 he]
        exact hx
    obtain ⟨hcrowd, hfree⟩ := h.insert hts hx x.2
    have hanswer : (earlier.all fun e => decide (words e ≠ words x.1)) =
        earlier.all fun e => decide (tupleEqual fields e x.1 ≠ some true) := by
      rw [Bool.eq_iff_iff, List.all_eq_true, List.all_eq_true]
      refine forall₂_congr fun e he => ?_
      rw [tupleEqual_eq hts (hearlier e he) hx]
      simp
    have hsplit : (∀ before y after, x :: seq = before ++ y :: after →
        ¬ Crowded H (earlier ++ before.map Prod.fst) y.1) ↔
        ¬ Crowded H earlier x.1 ∧ ∀ before y after, seq = before ++ y :: after →
          ¬ Crowded H ((earlier ++ [x.1]) ++ before.map Prod.fst) y.1 := by
      constructor
      · intro hall
        refine ⟨?_, fun before y after heq => ?_⟩
        · simpa using hall [] x seq rfl
        · simpa using hall (x :: before) y after (by rw [heq]; rfl)
      · rintro ⟨hhead, htail⟩ before y after heq
        cases before with
        | nil =>
          obtain ⟨rfl, -⟩ := List.cons.inj heq
          simpa using hhead
        | cons z before =>
          obtain ⟨rfl, hseq'⟩ := List.cons.inj heq
          simpa using htail before y after hseq'
    rw [hsplit]
    by_cases hx' : Crowded H earlier x.1
    · refine iff_of_false ?_ fun hb => hb.1 hx'
      rintro ⟨T', hT'⟩
      rw [DatumTrie.insertAll, hcrowd hx'] at hT'
      cases hT'
    · obtain ⟨T₁, hT₁, hfilled⟩ := hfree hx'
      rw [← ih hfilled hearlier' hrest, DatumTrie.insertAll, hT₁, reports, hanswer]
      constructor
      · rintro ⟨T', hT'⟩
        obtain ⟨⟨T₂, answers⟩, hT₂, heq⟩ := Option.map_eq_some_iff.1 hT'
        obtain ⟨rfl, hanswers⟩ := Prod.mk.inj heq
        have htail : answers = reports fields (earlier ++ [x.1]) seq := (List.cons.inj hanswers).2
        rw [htail] at hT₂
        exact ⟨hx', T₂, hT₂⟩
      · rintro ⟨-, T', hT'⟩
        refine ⟨T', ?_⟩
        simp only [hT', Option.map_some]

end Filled

/-- **Filling a trie.**  For every predicate whose field types are accepted, and every sequence of
insertions: they all succeed, every one answers whether `tuple::equal` holds of the tuple and an
earlier one, and `tuple::equal` does not throw, if and only if no field is or contains a boolean or
a structure and no tuple is crowded out by the threads of earlier ones. -/
theorem sound_iff (hfields : FieldType.AllAccepted fields) (seq : List (List Datum × ℕ))
    (hseq : ∀ x ∈ seq, AllHaveType x.1 fields) :
    Sound H isCycle fields seq ↔ (∀ ty ∈ fields, ty.Comparable) ∧
      ∀ before x after, seq = before ++ x :: after → ¬ Crowded H (before.map Prod.fst) x.1 := by
  have hruns : (∀ ty ∈ fields, ty.Comparable) →
      ((∃ T', insertAll H isCycle empty seq = some (T', reports fields [] seq)) ↔
        ∀ before x after, seq = before ++ x :: after →
          ¬ Crowded H (before.map Prod.fst) x.1) := fun hts =>
    filled_empty.insertAll_iff hts (fun e he => absurd he List.not_mem_nil) seq hseq
  constructor
  · rintro ⟨hequal, hrun⟩
    have hts := hfields.comparable hequal
    exact ⟨hts, (hruns hts).1 hrun⟩
  · rintro ⟨hts, hfree⟩
    refine ⟨fun s t hs ht hthrow => ?_, (hruns hts).2 hfree⟩
    rw [tupleEqual_eq hts hs ht] at hthrow
    cases hthrow

/-- The same integer twice. -/
theorem sound_iff_seven : Sound noHashes false [.int] [([.int 7], 0), ([.int 7], 0)] := by
  have hword : words [.int 7] = [.int 7] := rfl
  refine (sound_iff (.cons .int .nil) _ ?_).2 ⟨?_, ?_⟩
  · simp only [List.forall_mem_cons, List.not_mem_nil, false_implies, implies_true, and_true]
    exact ⟨.cons (.int 7) .nil, .cons (.int 7) .nil⟩
  · exact List.forall_mem_singleton.2 .int
  · rintro before x after heq ⟨u, t, rest, hw, -⟩
    have hx : x ∈ [([Datum.int 7], 0), ([Datum.int 7], 0)] := by
      rw [heq]
      exact List.mem_append_right _ List.mem_cons_self
    have htpl : x.1 = [.int 7] := by
      rcases List.mem_cons.1 hx with rfl | hx
      · rfl
      · rw [List.mem_singleton.1 hx]
    have hthread : Symbol.thread t ∈ words x.1 := by
      rw [hw]
      exact List.mem_append_right _ List.mem_cons_self
    rw [htpl, hword] at hthread
    cases List.mem_singleton.1 hthread

/-- **Not every predicate can be filled**: the second tuple with a boolean makes `match` abort. -/
theorem not_forall_insertAll_sound :
    ¬ ∀ (fields : List FieldType) (seq : List (List Datum × ℕ)), FieldType.AllAccepted fields →
      (∀ x ∈ seq, AllHaveType x.1 fields) → Sound noHashes false fields seq := by
  intro hall
  obtain ⟨-, T, hT⟩ := hall [.bool] [([.bool true], 0), ([.bool true], 0)] (.cons .bool .nil) (by
    simp only [List.forall_mem_cons, List.not_mem_nil, false_implies, implies_true, and_true]
    exact ⟨.cons (.bool true) .nil, .cons (.bool true) .nil⟩)
  have hnone : insertAll noHashes false empty [([.bool true], 0), ([.bool true], 0)] = none := rfl
  rw [hnone] at hT
  cases hT

end DatumTrie

end Meld
