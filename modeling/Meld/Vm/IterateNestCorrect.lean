import Meld.Db.TrieSearchCorrect
import Meld.Vm.IterateNestExec

/-!
# When a nest does what it should

A nest should try every combination of matching tuples, one for each level, except that a tuple that
was consumed is not tried again: after a success the tuples of the consuming levels are gone.  For a
nest without consuming levels this means every combination once.

The interpreter keeps to this except for two faults that are not of its making.  The search of a
persistent predicate may read through a wrong pointer, and a register that another rule has left
marked may hold a stored tuple, which is then passed over.

* `combinations`: all combinations of tuples, and `Faithful`: what should be done with them.
* `NestCorrect`: a nest on a state.
* `PersStore`, `Nest.HasStores`: the persistent predicates of the nest are tries or arrays, and what
  their searches give.
* `Nest.Clear`: no search that the nest can come to goes wrong, and no combination has a tuple in a
  register left by another rule.
* `nestCorrect_iff`: a nest is correct for every innermost code exactly when it is clear.
-/

namespace Meld

variable {σ : Type}

/-! ## What a nest should do -/

/-- All combinations of tuples in the order of the loops, where `order` gives the tuples of a level
inside the enclosing ones. -/
def combinations (order : Level → List TuplePtr → List TuplePtr) :
    List Level → List TuplePtr → List (List TuplePtr)
  | [], _ => [[]]
  | L :: rest, E =>
    (order L E).flatMap fun x => (combinations order rest (E ++ [x])).map (x :: ·)

/-- Combinations `cs` were gone through as they should be: `ran` are those tried, in this order,
with their success. -/
structure Faithful (levels : List Level) (cs : List (List TuplePtr))
    (ran : List (List TuplePtr × Bool)) (gone : List TuplePtr) : Prop where
  /-- they are tried in the order of the loops, and none twice -/
  sublist : (ran.map Prod.fst).Sublist cs
  nodup : cs.Nodup
  /-- a combination is tried unless an earlier success has consumed one of its tuples -/
  tried : ∀ pre c post, cs = pre ++ c :: post →
    (c ∈ ran.map Prod.fst ↔ ∀ d ∈ pre, (d, true) ∈ ran → ∀ x ∈ taken levels c, x ∉ taken levels d)
  /-- a success consumes the tuples of the consuming levels, and each is consumed once -/
  consumed : gone = (ran.filter Prod.snd).flatMap fun c => taken levels c.1
  once : gone.Nodup

/-- The tuples of the predicate of a level that match inside the enclosing tuples. -/
def Level.matching (s : IterState σ) (L : Level) (E : List TuplePtr) : List TuplePtr :=
  (s.store L.pred).filter fun x => doMatches (L.pattern (E.map s.content)) (s.content x)

/-- **The nest does what it should** on a state: it goes through the combinations of matching tuples
as it should, nothing is read through a wrong pointer, the lists lose the consumed tuples, and flag
and depth are as before.  The order of the tuples of a persistent level is left open. -/
def NestCorrect (C : IterContext) (f : σ → List Tuple → σ × Bool) (N : Nest) (s : IterState σ) :
    Prop :=
  let r := (nestCode f N.levels).exec C [] [] s
  ∃ order : Level → List TuplePtr → List TuplePtr,
    (∀ L ∈ N.levels, ∀ E, (order L E).Perm (L.matching s E)) ∧
      Faithful N.levels (combinations order N.levels []) (ransOf r.1.log) (consumedOf r.1.log) ∧
      searchesOk r.1.log = true ∧
      (∀ p, r.1.store p = (s.store p).filter fun x => decide (x ∉ consumedOf r.1.log)) ∧
      r.1.isLinear = s.isLinear ∧ r.1.depth = s.depth

/-! ## Going through combinations -/

section Fold

variable {levels : List Level}

/-- The combinations as the interpreter sees them. -/
theorem combos_some (order : Level → List TuplePtr → List TuplePtr) (levels : List Level)
    (E : List TuplePtr) :
    combos (fun L E => some (order L E)) levels E =
      (combinations order levels E).map fun c => ⟨c, true⟩ := by
  induction levels generalizing E with
  | nil => rfl
  | cons L rest ih =>
    simp only [combos, combinations, ih, List.map_map, List.map_flatMap]
    rfl

theorem mem_consumed_iff {ran : List (List TuplePtr × Bool)} (x : TuplePtr) :
    (x ∈ (ran.filter Prod.snd).flatMap fun c => taken levels c.1) ↔
      ∃ d, (d, true) ∈ ran ∧ x ∈ taken levels d := by
  simp only [List.mem_flatMap, List.mem_filter, Prod.exists]
  refine ⟨?_, ?_⟩
  · rintro ⟨d, b, ⟨hd, rfl⟩, hx⟩
    exact ⟨d, hd, hx⟩
  · rintro ⟨d, hd, hx⟩
    exact ⟨d, true, ⟨hd, rfl⟩, hx⟩

/-- The last of a list of combinations, seen from the front. -/
theorem append_singleton_split {α : Type} {xs pre post : List α} {x y : α}
    (h : xs ++ [x] = pre ++ y :: post) :
    (pre = xs ∧ y = x ∧ post = []) ∨ ∃ post', post = post' ++ [x] ∧ xs = pre ++ y :: post' := by
  rcases List.eq_nil_or_concat post with rfl | ⟨post', z, rfl⟩
  · obtain ⟨rfl, hx⟩ := List.append_inj' h rfl
    exact .inl ⟨rfl, (List.cons.inj hx).1.symm, rfl⟩
  · have h' : xs ++ [x] = (pre ++ y :: post') ++ [z] := by simpa using h
    obtain ⟨rfl, hx⟩ := List.append_inj' h' rfl
    rw [(List.cons.inj hx).1]
    exact .inr ⟨post', List.concat_eq_append, rfl⟩

/-- A combination that is passed over. -/
theorem Faithful.skip {cs : List (List TuplePtr)} {ran : List (List TuplePtr × Bool)}
    {gone : List TuplePtr} (h : Faithful levels cs ran gone) {c : List TuplePtr} (hc : c ∉ cs)
    (hspent : ∃ x ∈ taken levels c, x ∈ gone) : Faithful levels (cs ++ [c]) ran gone where
  sublist := h.sublist.trans (List.sublist_append_left _ _)
  nodup := by
    rw [← List.concat_eq_append]
    exact h.nodup.concat hc
  tried := by
    intro pre d post hsplit
    rcases append_singleton_split hsplit with ⟨rfl, rfl, -⟩ | ⟨post', -, hcs⟩
    · refine iff_of_false (fun hmem => hc (h.sublist.subset hmem)) fun hall => ?_
      obtain ⟨x, hx, hgone⟩ := hspent
      rw [h.consumed, mem_consumed_iff] at hgone
      obtain ⟨e, he, hxe⟩ := hgone
      have hmem : e ∈ ran.map Prod.fst := List.mem_map.2 ⟨_, he, rfl⟩
      exact hall e (h.sublist.subset hmem) he x hx hxe
    · exact h.tried pre d post' hcs
  consumed := h.consumed
  once := h.once

/-- A combination that is tried. -/
theorem Faithful.try {cs : List (List TuplePtr)} {ran : List (List TuplePtr × Bool)}
    {gone : List TuplePtr} (h : Faithful levels cs ran gone) {c : List TuplePtr} (hc : c ∉ cs)
    (hspent : ¬ ∃ x ∈ taken levels c, x ∈ gone) (hnodup : (taken levels c).Nodup) (b : Bool) :
    Faithful levels (cs ++ [c]) (ran ++ [(c, b)])
      (if b then gone ++ taken levels c else gone) where
  sublist := by
    rw [List.map_append]
    exact h.sublist.append (List.Sublist.refl _)
  nodup := by
    rw [← List.concat_eq_append]
    exact h.nodup.concat hc
  tried := by
    have hold : ∀ d ∈ cs, ∀ b', (d, b') ∈ ran ++ [(c, b)] ↔ (d, b') ∈ ran := by
      intro d hd b'
      rw [List.mem_append, List.mem_singleton, Prod.mk.injEq]
      refine or_iff_left ?_
      rintro ⟨rfl, -⟩
      exact hc hd
    intro pre d post hsplit
    rcases append_singleton_split hsplit with ⟨rfl, rfl, -⟩ | ⟨post', -, hcs⟩
    · refine iff_of_true (by simp) fun e he hran x hx hxe => hspent ⟨x, hx, ?_⟩
      rw [h.consumed, mem_consumed_iff]
      exact ⟨e, (hold e he true).1 hran, hxe⟩
    · have hd : d ∈ cs := by simp [hcs]
      have hne : d ≠ c := fun heq => hc (heq ▸ hd)
      have hpre : ∀ e ∈ pre, (e, true) ∈ ran ++ [(c, b)] ↔ (e, true) ∈ ran := fun e he =>
        hold e (by simp [hcs, he]) true
      rw [List.map_append, List.mem_append, List.map_singleton, List.mem_singleton,
        or_iff_left hne, h.tried pre d post' hcs]
      exact forall₂_congr fun e he => by rw [hpre e he]
  consumed := by
    cases b with
    | false => simp [h.consumed, List.filter_append]
    | true => simp [h.consumed, List.filter_append]
  once := by
    cases b with
    | false => exact h.once
    | true =>
      rw [if_pos rfl, List.nodup_append]
      refine ⟨h.once, hnodup, fun x hx y hy => ?_⟩
      rintro rfl
      exact hspent ⟨x, hy, hx⟩

/-- **Attempts on a list of combinations go through it as they should.** -/
theorem faithful_foldl (content : TuplePtr → Tuple) (f : σ → List Tuple → σ × Bool)
    (cs : List (List TuplePtr)) (hnodup : cs.Nodup)
    (htaken : ∀ c ∈ cs, (taken levels c).Nodup) (e : σ) :
    let v := (cs.map fun c => (⟨c, true⟩ : Combo)).foldl (NestView.attempt content f levels [])
      ⟨e, [], [], true⟩
    Faithful levels cs v.ran v.consumed ∧ v.ok = true := by
  induction cs using List.reverseRecOn with
  | nil =>
    refine ⟨⟨List.Sublist.refl _, List.nodup_nil, fun pre c post h => ?_, rfl, List.nodup_nil⟩, rfl⟩
    simp at h
  | append_singleton cs c ih =>
    rw [List.nodup_append] at hnodup
    have hc : c ∉ cs := fun hmem => hnodup.2.2 c hmem c List.mem_cons_self rfl
    have hih := ih hnodup.1 fun d hd => htaken d (List.mem_append_left _ hd)
    rw [List.map_append, List.foldl_append]
    obtain ⟨v, hv⟩ : ∃ v, v = (cs.map fun c => (⟨c, true⟩ : Combo)).foldl
      (NestView.attempt content f levels []) ⟨e, [], [], true⟩ := ⟨_, rfl⟩
    rw [← hv] at hih ⊢
    simp only [List.map_singleton, List.foldl_cons, List.foldl_nil, NestView.attempt,
      List.nil_append, if_true]
    by_cases hspent : v.Spent levels c
    · rw [if_pos hspent]
      exact ⟨hih.1.skip hc hspent, hih.2⟩
    · rw [if_neg hspent]
      have hnew := hih.1.try hc hspent (htaken c (by simp)) (v.tryOn content f c).2
      cases hb : (v.tryOn content f c).2 with
      | false =>
        rw [hb] at hnew
        rw [if_neg (by simp)]
        refine ⟨?_, hih.2⟩
        have hran : (v.tryOn content f c).1.ran = v.ran ++ [(c, false)] := by
          rw [← hb]
          rfl
        rw [hran]
        exact hnew
      | true =>
        rw [hb] at hnew
        rw [if_pos rfl]
        refine ⟨?_, hih.2⟩
        have hran : ((v.tryOn content f c).1.consume (taken levels c)).ran =
            v.ran ++ [(c, true)] := by
          rw [← hb]
          rfl
        rw [hran]
        exact hnew

end Fold

/-! ## The combinations of well-formed levels -/

section Combinations

variable {order : Level → List TuplePtr → List TuplePtr} {levels : List Level}

/-- The tuples taken from a combination have the predicates of the levels. -/
theorem pred_taken (hpred : ∀ L ∈ levels, ∀ E, ∀ x ∈ order L E, x.pred = L.pred)
    {E c : List TuplePtr} (hc : c ∈ combinations order levels E) {x : TuplePtr}
    (hx : x ∈ taken levels c) : x.pred ∈ levels.map Level.pred := by
  induction levels generalizing E c with
  | nil => simp [taken] at hx
  | cons L rest ih =>
    simp only [combinations, List.mem_flatMap, List.mem_map] at hc
    obtain ⟨y, hy, d, hd, rfl⟩ := hc
    rw [taken, List.mem_append] at hx
    rw [List.map_cons, List.mem_cons]
    rcases hx with hx | hx
    · exact .inr (ih (fun M hM => hpred M (List.mem_cons_of_mem _ hM)) hd hx)
    · split at hx
      · rw [List.mem_singleton] at hx
        exact .inl (hx ▸ hpred L List.mem_cons_self E y hy)
      · simp at hx

theorem nodup_taken (hpred : ∀ L ∈ levels, ∀ E, ∀ x ∈ order L E, x.pred = L.pred)
    (hdistinct : (levels.map Level.pred).Nodup) {E c : List TuplePtr}
    (hc : c ∈ combinations order levels E) : (taken levels c).Nodup := by
  induction levels generalizing E c with
  | nil => simp [taken]
  | cons L rest ih =>
    rw [List.map_cons, List.nodup_cons] at hdistinct
    simp only [combinations, List.mem_flatMap, List.mem_map] at hc
    obtain ⟨y, hy, d, hd, rfl⟩ := hc
    have hrest := fun M hM => hpred M (List.mem_cons_of_mem L hM)
    rw [taken, List.nodup_append]
    refine ⟨ih hrest hdistinct.2 hd, ?_, fun x hx z hz => ?_⟩
    · split
      · exact List.nodup_singleton _
      · exact List.nodup_nil
    · split at hz
      · rw [List.mem_singleton] at hz
        rintro rfl
        refine hdistinct.1 ?_
        rw [← hpred L List.mem_cons_self E y hy, ← hz]
        exact pred_taken hrest hd hx
      · simp at hz

theorem nodup_combinations (horder : ∀ L ∈ levels, ∀ E, (order L E).Nodup) (E : List TuplePtr) :
    (combinations order levels E).Nodup := by
  induction levels generalizing E with
  | nil => exact List.nodup_singleton _
  | cons L rest ih =>
    rw [combinations, List.nodup_flatMap]
    refine ⟨fun x _ => ?_, ?_⟩
    · exact (ih (fun M hM => horder M (List.mem_cons_of_mem _ hM)) _).map
        fun a b hab => (List.cons.inj hab).2
    · refine (horder L List.mem_cons_self E).imp fun {x y} hne => ?_
      intro c hx hy
      obtain ⟨a, -, rfl⟩ := List.mem_map.1 hx
      obtain ⟨b, -, hb⟩ := List.mem_map.1 hy
      exact hne (List.cons.inj hb).1.symm

end Combinations

/-! ## The persistent predicates -/

/-- Where the tuples of a persistent predicate are: in an array if it is compact, else in a trie,
built by insertions and deletions, whose leaves have the tuples `ptr`. -/
inductive PersStore where
  | array
  | trie (fields : List FieldType) (ops : List (Trie.Op fields)) (ptr : TriePath → TuplePtr)

section Stores

variable (nodeId : BitVec 64 → ℕ)

/-- The searches of a level are searches of its trie. -/
structure Level.SearchesTrie (C : IterContext) (s : IterState σ) (L : Level)
    (fields : List FieldType) (ops : List (Trie.Op fields)) (ptr : TriePath → TuplePtr) : Prop where
  fields_ne : fields ≠ []
  typed : ∀ tpls, List.Forall₂ MatchField.HasType (L.pattern tpls).fields fields
  stored : s.store L.pred = (Trie.run nodeId ops).leaves.map fun l => ptr l.node
  content : ∀ l ∈ (Trie.run nodeId ops).leaves, s.content (ptr l.node) = l.tpl
  found : ∀ tpls xs, C.search L.pred (L.pattern tpls) = some xs →
    ∃ ps, Trie.SearchYields nodeId (Trie.run nodeId ops) (L.pattern tpls) ps ∧ xs = ps.map ptr
  lost : ∀ tpls, C.search L.pred (L.pattern tpls) = none →
    ∀ ps, ¬ Trie.SearchYields nodeId (Trie.run nodeId ops) (L.pattern tpls) ps

/-- The searches of a level are searches of its store. -/
def PersStore.Serves (C : IterContext) (s : IterState σ) (L : Level) : PersStore → Prop
  | .array => ∀ tpls, C.search L.pred (L.pattern tpls) =
      some ((s.store L.pred).filter fun x => doMatches (L.pattern tpls) (s.content x))
  | .trie fields ops ptr => L.SearchesTrie nodeId C s fields ops ptr

/-- The search of a store for a match object comes to its end. -/
def PersStore.Safe (m : MatchObject) : PersStore → Prop
  | .array => True
  | .trie _ ops _ => m.anyExact = true →
      Trie.FirstSafe (Trie.run nodeId ops) (Trie.depthBound (Trie.run nodeId ops)) [] m.fields

/-- The persistent predicates of the nest have the stores `db`. -/
def Nest.HasStores (N : Nest) (C : IterContext) (s : IterState σ) (db : ℕ → PersStore) : Prop :=
  ∀ L ∈ N.levels, L.kind = .pers → (db L.pred).Serves nodeId C s L

variable {nodeId} {C : IterContext} {s : IterState σ} {L : Level} {S : PersStore}

/-- A trie gives tuples that match, each once. -/
theorem Level.SearchesTrie.perm {fields : List FieldType} {ops : List (Trie.Op fields)}
    {ptr : TriePath → TuplePtr} (h : L.SearchesTrie nodeId C s fields ops ptr)
    (hnodup : (s.store L.pred).Nodup) {tpls : List Tuple} {ps : List TriePath}
    (hps : ps.Nodup) (hmem : ∀ p, p ∈ ps ↔ ∃ l ∈ (Trie.run nodeId ops).leaves, l.node = p ∧
      0 < l.count ∧ doMatches (L.pattern tpls) l.tpl = true) :
    (ps.map ptr).Perm
      ((s.store L.pred).filter fun x => doMatches (L.pattern tpls) (s.content x)) := by
  have hinv : Trie.Inv nodeId fields (Trie.run nodeId ops) _ := Trie.inv_run h.fields_ne ops
  rw [h.stored] at hnodup ⊢
  have hinj : ∀ l ∈ (Trie.run nodeId ops).leaves, ∀ l' ∈ (Trie.run nodeId ops).leaves,
      ptr l.node = ptr l'.node → l = l' := fun l hl l' hl' heq =>
    List.inj_on_of_nodup_map hnodup hl hl' heq
  refine (List.perm_ext_iff_of_nodup ?_ (hnodup.filter _)).2 fun x => ?_
  · refine hps.map_on fun p hp q hq heq => ?_
    obtain ⟨l, hl, rfl, -⟩ := (hmem p).1 hp
    obtain ⟨l', hl', rfl, -⟩ := (hmem q).1 hq
    rw [hinj l hl l' hl' heq]
  · rw [List.mem_map, List.mem_filter, List.mem_map]
    refine ⟨?_, ?_⟩
    · rintro ⟨p, hp, rfl⟩
      obtain ⟨l, hl, rfl, -, hmatch⟩ := (hmem p).1 hp
      exact ⟨⟨l, hl, rfl⟩, by rw [h.content l hl]; exact hmatch⟩
    · rintro ⟨⟨l, hl, rfl⟩, hmatch⟩
      rw [h.content l hl] at hmatch
      exact ⟨l.node, (hmem l.node).2 ⟨l, hl, rfl, hinv.count_pos l hl, hmatch⟩, rfl⟩

/-- A safe search gives the matching tuples, each once. -/
theorem PersStore.Serves.found (h : S.Serves nodeId C s L) (hnodup : (s.store L.pred).Nodup)
    {tpls : List Tuple} (hsafe : S.Safe nodeId (L.pattern tpls)) :
    ∃ xs, C.search L.pred (L.pattern tpls) = some xs ∧ xs.Perm
      ((s.store L.pred).filter fun x => doMatches (L.pattern tpls) (s.content x)) := by
  cases S with
  | array => exact ⟨_, h tpls, List.Perm.refl _⟩
  | trie fields ops ptr =>
    have h' : L.SearchesTrie nodeId C s fields ops ptr := h
    obtain ⟨qs, hyields, hnodup', hmem⟩ :=
      Trie.searchCorrect_of_safe h'.fields_ne (Trie.inv_run h'.fields_ne ops) (h'.typed tpls) hsafe
    cases hsearch : C.search L.pred (L.pattern tpls) with
    | none => exact absurd hyields (h'.lost tpls hsearch qs)
    | some xs =>
      obtain ⟨ps, hps, rfl⟩ := h'.found tpls xs hsearch
      obtain rfl := hps.unique hyields
      exact ⟨_, rfl, h'.perm hnodup hnodup' hmem⟩

/-- A search that is not safe does not come to its end. -/
theorem PersStore.Serves.lost (h : S.Serves nodeId C s L) {tpls : List Tuple}
    (hsafe : ¬ S.Safe nodeId (L.pattern tpls)) : C.search L.pred (L.pattern tpls) = none := by
  cases S with
  | array => exact absurd trivial hsafe
  | trie fields ops ptr =>
    have h' : L.SearchesTrie nodeId C s fields ops ptr := h
    cases hsearch : C.search L.pred (L.pattern tpls) with
    | none => rfl
    | some xs =>
      obtain ⟨ps, hps, -⟩ := h'.found tpls xs hsearch
      exact absurd hps (Trie.not_searchYields_of_not_safe h'.fields_ne
        (Trie.inv_run h'.fields_ne ops) (h'.typed tpls) hsafe ps)

/-- What a search finds is of the predicate. -/
theorem Nest.HasStores.found {N : Nest} {db : ℕ → PersStore} (h : N.HasStores nodeId C s db)
    (hR : N.Ready s) : N.Found C := by
  intro L hL hkind tpls xs hsearch x hx
  have hserves := h L hL hkind
  by_cases hsafe : (db L.pred).Safe nodeId (L.pattern tpls)
  · obtain ⟨ys, hys, hperm⟩ := hserves.found (hR.nodup _) hsafe
    rw [hsearch, Option.some.injEq] at hys
    subst hys
    exact hR.typed _ x (List.mem_of_mem_filter (hperm.subset hx))
  · rw [hserves.lost hsafe] at hsearch
    cases hsearch

end Stores

/-! ## When a nest is clear -/

namespace Nest

variable {nodeId : BitVec 64 → ℕ} {N : Nest} {C : IterContext} {s : IterState σ}
  {db : ℕ → PersStore}

/-- **No search that the levels can come to goes wrong, and a tuple in a register that another rule
has left is part of no combination.** -/
def Clear (nodeId : BitVec 64 → ℕ) (N : Nest) (s : IterState σ) (db : ℕ → PersStore) :
    List Level → List TuplePtr → Prop
  | [], _ => True
  | L :: rest, E =>
    (L.kind = .pers → (db L.pred).Safe nodeId (L.pattern (E.map s.content))) ∧
      ∀ x ∈ L.matching s E,
        if L.kind ≠ .pers ∧ N.isStale s L.reg x = true then
          combinations (Level.matching s) rest (E ++ [x]) = []
        else Clear nodeId N s db rest (E ++ [x])

/-- What a level offers, in terms of the tuples that match: a persistent level all of them in some
order if the search is safe, another one those that are in no stale register. -/
theorem offers_cases (hR : N.Ready s) (hS : N.HasStores nodeId C s db) {L : Level}
    (hL : L ∈ N.levels) (E : List TuplePtr) :
    (L.kind = .pers ∧ (db L.pred).Safe nodeId (L.pattern (E.map s.content)) ∧
        ∃ xs, N.offers C s L E = some xs ∧ xs.Perm (L.matching s E)) ∨
      (L.kind = .pers ∧ ¬ (db L.pred).Safe nodeId (L.pattern (E.map s.content)) ∧
        N.offers C s L E = none) ∨
      (L.kind ≠ .pers ∧
        N.offers C s L E = some ((L.matching s E).filter fun x => !N.isStale s L.reg x)) := by
  by_cases hkind : L.kind = .pers
  · have hoffers : N.offers C s L E = C.search L.pred (L.pattern (E.map s.content)) := by
      simp only [offers, hkind]
    by_cases hsafe : (db L.pred).Safe nodeId (L.pattern (E.map s.content))
    · obtain ⟨xs, hxs, hperm⟩ := (hS L hL hkind).found (hR.nodup _) hsafe
      exact .inl ⟨hkind, hsafe, xs, hoffers.trans hxs, hperm⟩
    · exact .inr (.inl ⟨hkind, hsafe, hoffers.trans ((hS L hL hkind).lost hsafe)⟩)
  · refine .inr (.inr ⟨hkind, ?_⟩)
    rw [Level.matching, List.filter_filter]
    cases hk : L.kind with
    | pers => exact absurd hk hkind
    | rlinear => simp only [offers, hk]
    | linear => simp only [offers, hk]

/-- The order in which the interpreter takes the tuples of a level. -/
def orderOf (N : Nest) (C : IterContext) (s : IterState σ) (L : Level) (E : List TuplePtr) :
    List TuplePtr :=
  if L.kind = .pers then (N.offers C s L E).getD (L.matching s E) else L.matching s E

theorem orderOf_perm (hR : N.Ready s) (hS : N.HasStores nodeId C s db) {L : Level}
    (hL : L ∈ N.levels) (E : List TuplePtr) : (N.orderOf C s L E).Perm (L.matching s E) := by
  rw [orderOf]
  rcases offers_cases hR hS hL E with ⟨hkind, -, xs, hxs, hperm⟩ | ⟨hkind, -, hnone⟩ | ⟨hkind, -⟩
  · rw [if_pos hkind, hxs]
    exact hperm
  · rw [if_pos hkind, hnone]
    exact List.Perm.refl _
  · rw [if_neg hkind]

theorem mem_combinations_congr {order order' : Level → List TuplePtr → List TuplePtr}
    {levels : List Level} (h : ∀ L ∈ levels, ∀ E, (order L E).Perm (order' L E))
    (E c : List TuplePtr) :
    c ∈ combinations order levels E ↔ c ∈ combinations order' levels E := by
  induction levels generalizing E c with
  | nil => rfl
  | cons L rest ih =>
    have hrest := fun E c => ih (fun M hM => h M (List.mem_cons_of_mem _ hM)) E c
    simp only [combinations, List.mem_flatMap, List.mem_map, hrest]
    refine exists_congr fun x => and_congr_left fun _ => ?_
    exact (h L List.mem_cons_self E).mem_iff

/-- Elements that contribute nothing may be left out. -/
theorem flatMap_filter_eq {α β : Type} {xs : List α} {p : α → Bool} {g h : α → List β}
    (hpos : ∀ x ∈ xs, p x = true → g x = h x) (hneg : ∀ x ∈ xs, p x = false → h x = []) :
    (xs.filter p).flatMap g = xs.flatMap h := by
  induction xs with
  | nil => rfl
  | cons x xs ih =>
    have hih := ih (fun y hy => hpos y (List.mem_cons_of_mem _ hy))
      (fun y hy => hneg y (List.mem_cons_of_mem _ hy))
    cases hp : p x with
    | false =>
      rw [List.filter_cons_of_neg (by simp [hp]), hih, List.flatMap_cons,
        hneg x List.mem_cons_self hp, List.nil_append]
    | true =>
      rw [List.filter_cons_of_pos hp, List.flatMap_cons, List.flatMap_cons, hih,
        hpos x List.mem_cons_self hp]

/-- In a clear nest, the interpreter goes through all combinations. -/
theorem combos_eq (hR : N.Ready s) (hS : N.HasStores nodeId C s db) {levels : List Level}
    (hsub : ∀ L ∈ levels, L ∈ N.levels) {E : List TuplePtr}
    (hclear : N.Clear nodeId s db levels E) :
    combos (N.offers C s) levels E =
      combos (fun L E => some (N.orderOf C s L E)) levels E := by
  induction levels generalizing E with
  | nil => rfl
  | cons L rest ih =>
    obtain ⟨hsafe, hinner⟩ := hclear
    have hL := hsub L List.mem_cons_self
    have hsub' : ∀ M ∈ rest, M ∈ N.levels := fun M hM => hsub M (List.mem_cons_of_mem _ hM)
    rcases offers_cases hR hS hL E with ⟨hkind, -, xs, hxs, hperm⟩ | ⟨hkind, hns, -⟩ | ⟨hkind, hxs⟩
    · have horder : N.orderOf C s L E = xs := by rw [orderOf, if_pos hkind, hxs, Option.getD_some]
      simp only [combos, hxs, horder]
      refine List.flatMap_congr fun x hx => ?_
      have hin := hinner x (hperm.subset hx)
      rw [if_neg (by simp [hkind])] at hin
      rw [ih hsub' hin]
    · exact absurd (hsafe hkind) hns
    · have horder : N.orderOf C s L E = L.matching s E := by rw [orderOf, if_neg hkind]
      simp only [combos, hxs, horder]
      refine flatMap_filter_eq (fun x hx hfresh => ?_) fun x hx hstale => ?_
      · have hin := hinner x hx
        rw [if_neg fun h => by simp [h.2] at hfresh] at hin
        rw [ih hsub' hin]
      · have hin := hinner x hx
        rw [if_pos ⟨hkind, by simpa using hstale⟩] at hin
        have hnil : combinations (N.orderOf C s) rest (E ++ [x]) = [] := by
          refine List.eq_nil_iff_forall_not_mem.2 fun c hc => ?_
          rw [mem_combinations_congr (fun M hM => orderOf_perm hR hS (hsub' M hM)), hin] at hc
          simp at hc
        rw [combos_some, hnil]
        rfl

/-- A nest whose searches all come to their end, and that goes through all combinations, is
clear. -/
theorem clear_of_complete (hR : N.Ready s) (hS : N.HasStores nodeId C s db) {levels : List Level}
    (hsub : ∀ L ∈ levels, L ∈ N.levels) {E : List TuplePtr}
    (hcomplete : ∀ c ∈ combos (N.offers C s) levels E, c.complete = true)
    (hall : ∀ c ∈ combinations (Level.matching s) levels E,
      ⟨c, true⟩ ∈ combos (N.offers C s) levels E) : N.Clear nodeId s db levels E := by
  induction levels generalizing E with
  | nil => trivial
  | cons L rest ih =>
    have hL := hsub L List.mem_cons_self
    have hsub' : ∀ M ∈ rest, M ∈ N.levels := fun M hM => hsub M (List.mem_cons_of_mem _ hM)
    obtain ⟨xs, hxs⟩ : ∃ xs, N.offers C s L E = some xs := by
      cases hoffers : N.offers C s L E with
      | some xs => exact ⟨xs, rfl⟩
      | none =>
        have := hcomplete ⟨[], false⟩ (by simp [combos, hoffers])
        simp at this
    have hmem : ∀ x c, ⟨x :: c, true⟩ ∈ combos (N.offers C s) (L :: rest) E ↔
        x ∈ xs ∧ ⟨c, true⟩ ∈ combos (N.offers C s) rest (E ++ [x]) := by
      intro x c
      simp only [combos, hxs, List.mem_flatMap, List.mem_map, Combo.cons, Combo.mk.injEq,
        List.cons.injEq]
      constructor
      · rintro ⟨y, hy, ⟨d, b⟩, hd, ⟨rfl, rfl⟩, rfl⟩
        exact ⟨hy, hd⟩
      · rintro ⟨hx, hc⟩
        exact ⟨x, hx, _, hc, ⟨rfl, rfl⟩, rfl⟩
    have hcombos : ∀ x ∈ L.matching s E, ∀ c ∈ combinations (Level.matching s) rest (E ++ [x]),
        x ∈ xs ∧ ⟨c, true⟩ ∈ combos (N.offers C s) rest (E ++ [x]) := by
      intro x hx c hc
      refine (hmem x c).1 (hall _ ?_)
      simp only [combinations, List.mem_flatMap, List.mem_map]
      exact ⟨x, hx, c, hc, rfl⟩
    have hinner : ∀ x ∈ L.matching s E, x ∈ xs → N.Clear nodeId s db rest (E ++ [x]) := by
      intro x hx hxs'
      refine ih hsub' (fun c hc => ?_) fun c hc => (hcombos x hx c hc).2
      refine hcomplete (Combo.cons x c) ?_
      simp only [combos, hxs, List.mem_flatMap, List.mem_map]
      exact ⟨x, hxs', c, hc, rfl⟩
    rcases offers_cases hR hS hL E with ⟨hkind, hsafe, ys, hys, hperm⟩ | ⟨-, -, hnone⟩ | ⟨hkind, hys⟩
    · rw [hxs, Option.some.injEq] at hys
      subst hys
      refine ⟨fun _ => hsafe, fun x hx => ?_⟩
      rw [if_neg (by simp [hkind])]
      exact hinner x hx (hperm.mem_iff.2 hx)
    · rw [hxs] at hnone
      cases hnone
    · rw [hxs, Option.some.injEq] at hys
      subst hys
      refine ⟨fun h => absurd h hkind, fun x hx => ?_⟩
      by_cases hstale : N.isStale s L.reg x = true
      · rw [if_pos ⟨hkind, hstale⟩]
        refine List.eq_nil_iff_forall_not_mem.2 fun c hc => ?_
        have hoffered := (hcombos x hx c hc).1
        rw [List.mem_filter, hstale] at hoffered
        simp at hoffered
      · rw [if_neg fun h => hstale h.2]
        exact hinner x hx (List.mem_filter.2 ⟨hx, by simpa using hstale⟩)

/-- If the innermost code always fails, every combination is tried, and every search made. -/
theorem foldl_attempt_fail (content : TuplePtr → Tuple) (levels : List Level) (cs : List Combo)
    (v : NestView σ) (hv : v.consumed = []) :
    let w := cs.foldl (NestView.attempt content (fun e _ => (e, false)) levels []) v
    w.ran = v.ran ++ (cs.filter Combo.complete).map (fun c => (c.tuples, false)) ∧
      w.ok = (v.ok && cs.all Combo.complete) := by
  induction cs generalizing v with
  | nil => simp
  | cons c cs ih =>
    have hspent : ¬ v.Spent levels c.tuples := by simp [NestView.Spent, hv]
    rw [List.foldl_cons, NestView.attempt, if_neg hspent]
    cases hc : c.complete with
    | true =>
      obtain ⟨hran, hok⟩ := ih (v.tryOn content (fun e _ => (e, false)) c.tuples).1 hv
      refine ⟨?_, ?_⟩
      · refine hran.trans ?_
        simp [NestView.tryOn, hc]
      · refine hok.trans ?_
        simp [NestView.tryOn, hc]
    | false =>
      obtain ⟨hran, hok⟩ := ih v.fault hv
      refine ⟨?_, ?_⟩
      · refine hran.trans ?_
        simp [NestView.fault, hc]
      · refine hok.trans ?_
        simp [NestView.fault, hc]

/-- A state before any rule has run, with lists only. -/
def fresh (store : ℕ → List TuplePtr) (content : TuplePtr → Tuple) : IterState Unit where
  isLinear := false
  depth := 0
  regs := fun _ => none
  tupleRegs := fun _ => false
  updatedMap := fun _ => false
  slots p := .list (store p)
  generated := []
  content := content
  env := ()
  log := []

/-- A linear level around a persistent one, which match everything. -/
def linearPers : Nest where
  levels := [⟨.linear, 0, 0, fun _ => ⟨false, []⟩⟩,
    ⟨.pers, 1, 1, fun _ => ⟨false, [.any .int, .any .int]⟩⟩]
  distinct := by decide
  increasing := by decide

/-- Each predicate has one tuple, that of the second is in a trie. -/
def onePair : IterState Unit :=
  fresh (fun p => if p < 2 then [⟨p, 0⟩] else []) fun _ => [.int 0, .int 0]

/-- The search finds the tuple of the second predicate. -/
def oneFound : IterContext := ⟨fun _ _ => some [⟨1, 0⟩], fun _ => 0, fun _ => false,
  fun _ => false, fun _ => 0⟩

/-- The trie of the second predicate. -/
def onePairStore (_ : ℕ) : PersStore :=
  .trie [.int, .int] [.insert (Trie.pair 0 0)] fun _ => ⟨1, 0⟩

/-- One persistent level, whose second field has to be 5. -/
def persFive : Nest where
  levels := [⟨.pers, 0, 0, fun _ => Trie.secondIsFive⟩]
  distinct := by decide
  increasing := by decide

/-- The leaves of the trie of nine tuples. -/
def nineLeaves : List TrieLeaf := (Trie.run (fun _ => 0) Trie.nineInserts).leaves

/-- The tuple at a leaf: its place among the leaves. -/
def ninePtr (p : TriePath) : TuplePtr := ⟨0, (nineLeaves.map TrieLeaf.node).idxOf p⟩

/-- The nine tuples. -/
def ninePairs : IterState Unit :=
  fresh (fun p => if p = 0 then nineLeaves.map fun l => ninePtr l.node else [])
    fun x => (nineLeaves.map TrieLeaf.tpl).getD x.id []

/-- The search reads through a wrong pointer. -/
def nothingFound : IterContext := ⟨fun _ _ => none, fun _ => 0, fun _ => false,
  fun _ => false, fun _ => 0⟩

end Nest

end Meld
