import Meld.Vm.IterateNest

/-!
# The interpreter on a nest

The interpreter does with a nest what `NestView.attempt` says.  The induction is on the levels.
Inside a consuming iterate, where the flag is set, the levels have to stop at the first success;
outside, they have to go through all combinations.  `Outcome` says both, and a level passes from one
to the other.

* `Nest`, `Nest.Ready`: a nest, and a state in which it can start.
* `Nest.Inv`, `Nest.Step`: what holds all through a run, and what the levels inside a place may do.
* `Outcome.level`, `Outcome.append`: how the outcome of a level is made of those of its tuples.
* `exec_nestCode`: the whole nest, from a state in which the flag is not set.
-/

namespace Meld

variable {σ : Type}

/-! ## Where the nest stands -/

/-- A nest: its levels are over different predicates, and their registers increase inwards. -/
structure Nest where
  levels : List Level
  distinct : (levels.map Level.pred).Nodup
  increasing : (levels.map Level.reg).Pairwise (· < ·)

namespace Nest

/-- The registers of the nest. -/
def regs (N : Nest) : List ℕ := N.levels.map Level.reg

/-- A register below `reg` that does not belong to the nest is marked and has the tuple.  Such a
register was left by another rule. -/
def isStale (N : Nest) (s : IterState σ) (reg : ℕ) (x : TuplePtr) : Bool :=
  (List.range reg).any fun r =>
    decide (r ∉ N.regs) && (s.tupleRegs r && decide (s.regs r = some x))

/-- The tuples a level offers inside the enclosing tuples `E`, or `none` if the search goes
wrong. -/
def offers (N : Nest) (C : IterContext) (s : IterState σ) (L : Level) (E : List TuplePtr) :
    Option (List TuplePtr) :=
  match L.kind with
  | .pers => C.search L.pred (L.pattern (E.map s.content))
  | _ => some ((s.store L.pred).filter fun x =>
      !N.isStale s L.reg x && doMatches (L.pattern (E.map s.content)) (s.content x))

/-- The nest can start: nothing has happened yet, the predicates are stored as lists, which have
every tuple once and under its predicate, and no register of the nest is marked as updated. -/
structure Ready (N : Nest) (s : IterState σ) : Prop where
  log : s.log = []
  lists : ∀ p, s.slots p = .list (s.store p)
  nodup : ∀ p, (s.store p).Nodup
  typed : ∀ p, ∀ x ∈ s.store p, x.pred = p
  updated : ∀ L ∈ N.levels, s.updatedMap L.reg = false

/-- Searches of the persistent levels find tuples of their predicates. -/
def Found (N : Nest) (C : IterContext) : Prop :=
  ∀ L ∈ N.levels, L.kind = .pers → ∀ tpls xs, C.search L.pred (L.pattern tpls) = some xs →
    ∀ x ∈ xs, x.pred = L.pred

/-- What holds all through a run of the nest from `s₀`: the lists have lost the consumed tuples, and
registers outside the nest are as they were. -/
structure Inv (N : Nest) (s₀ s : IterState σ) : Prop where
  content : s.content = s₀.content
  updated : ∀ L ∈ N.levels, s.updatedMap L.reg = false
  regs : ∀ r, r ∉ N.regs → s.regs r = s₀.regs r ∧ s.tupleRegs r = s₀.tupleRegs r
  slots : ∀ p, s.slots p = .list ((s₀.store p).filter fun x => decide (x ∉ consumedOf s.log))
  consumed : ∀ y ∈ consumedOf s.log, ∃ M ∈ N.levels, M.kind = .linear ∧ y.pred = M.pred

/-- What the levels `rest` may do. -/
structure Step (N : Nest) (s₀ : IterState σ) (rest : List Level) (s s' : IterState σ) : Prop where
  inv : N.Inv s₀ s'
  isLinear : s'.isLinear = s.isLinear
  depth : s'.depth = s.depth
  regs : ∀ r, r ∉ rest.map Level.reg → s'.regs r = s.regs r
  consumed : ∀ y ∈ consumedOf s'.log,
    y ∈ consumedOf s.log ∨ ∃ M ∈ rest, M.kind = .linear ∧ y.pred = M.pred
  mono : ∀ y ∈ consumedOf s.log, y ∈ consumedOf s'.log

/-- The levels `rest` are next, inside the levels `pre`, whose tuples are `E`. -/
structure Place (N : Nest) (pre rest : List Level) (E : Enclosing) (s : IterState σ) : Prop where
  split : N.levels = pre ++ rest
  enclosing : ∀ M ∈ pre, ∃ e ∈ E, e.1 = M.reg ∧ e.2.pred = M.pred
  inside : ∀ e ∈ E, ∃ M ∈ pre, e.1 = M.reg
  held : ∀ e ∈ E, s.regs e.1 = some e.2

/-- How the combinations `cs` of the levels end: inside a consuming iterate with the first success,
else all of them are gone through. -/
def Outcome (content : TuplePtr → Tuple) (f : σ → List Tuple → σ × Bool) (isLinear : Bool)
    (levels : List Level) (E : List TuplePtr) (cs : List Combo) (v v' : NestView σ)
    (ret : ReturnType) : Prop :=
  if isLinear then
    match NestView.search content f levels E cs v with
    | (w, none) => v' = w ∧ ret.toFinish = false
    | (w, some c) => v' = w.consume (taken levels c) ∧ ret = .derived
  else v' = cs.foldl (NestView.attempt content f levels E) v ∧ ret ≠ .linear

variable {N : Nest} {C : IterContext} {f : σ → List Tuple → σ × Bool} {s₀ s s' s'' : IterState σ}
  {pre rest : List Level} {L : Level} {E : Enclosing}

theorem Inv.store (hs : N.Inv s₀ s) (p : ℕ) :
    s.store p = (s₀.store p).filter fun x => decide (x ∉ consumedOf s.log) := by
  rw [IterState.store, hs.slots p, TupleSlot.tuples]

theorem Step.refl (hs : N.Inv s₀ s) (rest : List Level) : N.Step s₀ rest s s :=
  ⟨hs, rfl, rfl, fun _ _ => rfl, fun _ hy => .inl hy, fun _ hy => hy⟩

theorem Step.trans (h : N.Step s₀ rest s s') (h' : N.Step s₀ rest s' s'') :
    N.Step s₀ rest s s'' where
  inv := h'.inv
  isLinear := h'.isLinear.trans h.isLinear
  depth := h'.depth.trans h.depth
  regs := fun r hr => (h'.regs r hr).trans (h.regs r hr)
  consumed := by
    intro y hy
    rcases h'.consumed y hy with hy | hy
    · exact h.consumed y hy
    · exact .inr hy
  mono := fun y hy => h'.mono y (h.mono y hy)

theorem Place.mem (h : N.Place pre (L :: rest) E s) : L ∈ N.levels := by
  rw [h.split]
  simp

/-- The levels inside a level have larger registers, those around it smaller ones. -/
theorem Place.reg_lt (h : N.Place pre (L :: rest) E s) :
    (∀ M ∈ pre, M.reg < L.reg) ∧ ∀ M ∈ rest, L.reg < M.reg := by
  have hinc := N.increasing
  rw [h.split, List.map_append, List.map_cons, List.pairwise_append, List.pairwise_cons] at hinc
  refine ⟨fun M hM => ?_, fun M hM => ?_⟩
  · exact hinc.2.2 _ (List.mem_map_of_mem hM) _ List.mem_cons_self
  · exact hinc.2.1.1 _ (List.mem_map_of_mem hM)

/-- The levels around and inside a level are over other predicates. -/
theorem Place.pred_ne (h : N.Place pre (L :: rest) E s) {M : Level} (hM : M ∈ pre ∨ M ∈ rest) :
    M.pred ≠ L.pred := by
  have hdis := N.distinct
  rw [h.split, List.map_append, List.map_cons, List.nodup_append, List.nodup_cons] at hdis
  rcases hM with hM | hM
  · exact hdis.2.2 _ (List.mem_map_of_mem hM) _ List.mem_cons_self
  · intro heq
    exact hdis.2.1.1 (heq ▸ List.mem_map_of_mem hM)

/-- The registers around a level keep their tuples while it runs. -/
theorem Place.of_step (h : N.Place pre rest E s) (hs : N.Step s₀ rest s s') :
    N.Place pre rest E s' := by
  refine ⟨h.split, h.enclosing, h.inside, fun e he => ?_⟩
  rw [← h.held e he]
  refine hs.regs _ fun hmem => ?_
  obtain ⟨M, hM, heq⟩ := List.mem_map.1 hmem
  obtain ⟨M', hM', hreg⟩ := h.inside e he
  have hinc := N.increasing
  rw [h.split, List.map_append, List.pairwise_append] at hinc
  have := hinc.2.2 _ (List.mem_map_of_mem hM') _ (List.mem_map_of_mem hM)
  omega

/-- Registers of the nest never make a tuple used: those around a level hold tuples of other
predicates. -/
theorem Place.tupleIsUsed_eq (h : N.Place pre (L :: rest) E s) (hs : N.Inv s₀ s) {x : TuplePtr}
    (hx : x.pred = L.pred) : s.tupleIsUsed x L.reg = N.isStale s₀ L.reg x := by
  rw [Bool.eq_iff_iff, IterState.tupleIsUsed, isStale, List.any_eq_true, List.any_eq_true]
  refine exists_congr fun r => and_congr_right fun hr => ?_
  have hlt : r < L.reg := List.mem_range.1 hr
  by_cases hmem : r ∈ N.regs
  · obtain ⟨M, hM, rfl⟩ := List.mem_map.1 hmem
    rw [h.split, List.mem_append, List.mem_cons] at hM
    have hpre : M ∈ pre := by
      rcases hM with hM | rfl | hM
      · exact hM
      · exact absurd hlt (lt_irrefl _)
      · exact absurd (h.reg_lt.2 M hM) (by omega)
    obtain ⟨e, he, hreg, hpred⟩ := h.enclosing M hpre
    have hne : s.regs M.reg ≠ some x := by
      rw [← hreg, h.held e he]
      intro heq
      refine h.pred_ne (.inl hpre) ?_
      rw [← hpred, Option.some.inj heq, hx]
    simp [hmem, hne]
  · simp [hmem, (hs.regs r hmem).1, (hs.regs r hmem).2]

/-- The combinations of a level with one of its tuples. -/
def combosWith (N : Nest) (C : IterContext) (s₀ : IterState σ) (rest : List Level)
    (E : List TuplePtr) (x : TuplePtr) : List Combo :=
  (combos (N.offers C s₀) rest (E ++ [x])).map (Combo.cons x)

/-- The body of a level does what the levels inside it should do. -/
def BodyOk (N : Nest) (C : IterContext) (f : σ → List Tuple → σ × Bool) (s₀ : IterState σ)
    (pre rest : List Level) (L : Level) (E : Enclosing) (body : IterBody σ) : Prop :=
  ∀ pending x s, x.pred = L.pred → N.Inv s₀ s →
    N.Place (pre ++ [L]) rest (E ++ [(L.reg, x)]) s →
    N.Step s₀ rest s (body pending x s).1 ∧
      Outcome s₀.content f s.isLinear rest (E.map Prod.snd ++ [x])
        (combos (N.offers C s₀) rest (E.map Prod.snd ++ [x])) s.view
        (body pending x s).1.view (body pending x s).2

/-! ## One tuple of a level -/

theorem Inv.of_note (hs : N.Inv s₀ s) {e : IterEvent} (he : consumedOf [e] = []) :
    N.Inv s₀ (s.note e) := by
  have hlog : consumedOf (s.note e).log = consumedOf s.log := by
    rw [IterState.note, consumedOf, List.filterMap_append]
    exact (congrArg _ he).trans (List.append_nil _)
  refine ⟨hs.content, hs.updated, hs.regs, fun p => ?_, ?_⟩
  · rw [hlog]
    exact hs.slots p
  · rw [hlog]
    exact hs.consumed

theorem Step.of_note (hs : N.Inv s₀ s) {e : IterEvent} (he : consumedOf [e] = [])
    (rest : List Level) : N.Step s₀ rest s (s.note e) := by
  have hlog : consumedOf (s.note e).log = consumedOf s.log := by
    rw [IterState.note, consumedOf, List.filterMap_append]
    exact (congrArg _ he).trans (List.append_nil _)
  refine ⟨hs.of_note he, rfl, rfl, fun _ _ => rfl, fun y hy => ?_, fun y hy => ?_⟩
  · rw [hlog] at hy
    exact .inl hy
  · rw [hlog]
    exact hy

/-- The state in which the body of a level starts. -/
def inBody (C : IterContext) (L : Level) (this isLinearPred : Bool) (x : TuplePtr) (new : ℕ)
    (alive : Bool) (s : IterState σ) : IterState σ :=
  ((s.note (.offered x alive)).push this (C.isCycle L.pred) new s.depth).setTuple L.reg x
    isLinearPred

theorem Place.inBody (h : N.Place pre (L :: rest) E s) {x : TuplePtr} (hx : x.pred = L.pred)
    (this isLinearPred : Bool) (new : ℕ) (alive : Bool) :
    N.Place (pre ++ [L]) rest (E ++ [(L.reg, x)])
      (Nest.inBody C L this isLinearPred x new alive s) where
  split := by rw [h.split, List.append_assoc, List.singleton_append]
  enclosing := by
    intro M hM
    rcases List.mem_append.1 hM with hM | hM
    · obtain ⟨e, he, hrest⟩ := h.enclosing M hM
      exact ⟨e, List.mem_append_left _ he, hrest⟩
    · rw [List.mem_singleton] at hM
      subst hM
      exact ⟨_, List.mem_append_right _ List.mem_cons_self, rfl, hx⟩
  inside := by
    intro e he
    rcases List.mem_append.1 he with he | he
    · obtain ⟨M, hM, hreg⟩ := h.inside e he
      exact ⟨M, List.mem_append_left _ hM, hreg⟩
    · rw [List.mem_singleton] at he
      subst he
      exact ⟨L, List.mem_append_right _ List.mem_cons_self, rfl⟩
  held := by
    intro e he
    have hregs : (Nest.inBody C L this isLinearPred x new alive s).regs =
        Function.update s.regs L.reg (some x) := rfl
    rw [hregs]
    rcases List.mem_append.1 he with he | he
    · obtain ⟨M, hM, hreg⟩ := h.inside e he
      have hlt := h.reg_lt.1 M hM
      rw [Function.update_of_ne (by omega), h.held e he]
    · rw [List.mem_singleton] at he
      subst he
      exact Function.update_self _ _ _

theorem Inv.inBody (hs : N.Inv s₀ s) (hL : L ∈ N.levels) (this isLinearPred : Bool) (x : TuplePtr)
    (new : ℕ) (alive : Bool) : N.Inv s₀ (Nest.inBody C L this isLinearPred x new alive s) := by
  have hnote : N.Inv s₀ (s.note (.offered x alive)) := hs.of_note rfl
  refine ⟨hnote.content, hnote.updated, fun r hr => ?_, hnote.slots, hnote.consumed⟩
  have hne : r ≠ L.reg := fun h => hr (h ▸ List.mem_map_of_mem hL)
  have hregs := hnote.regs r hr
  refine ⟨?_, ?_⟩
  · rw [← hregs.1]
    exact Function.update_of_ne hne _ _
  · rw [← hregs.2]
    cases isLinearPred with
    | false => rfl
    | true => exact Function.update_of_ne hne _ _

/-- One run of the body: flag and depth are restored, and the levels inside have done their work
with the flag that the level has set. -/
theorem runBody_spec {body : IterBody σ} (hbody : N.BodyOk C f s₀ pre rest L E body)
    (h : N.Place pre (L :: rest) E s) (hs : N.Inv s₀ s) {x : TuplePtr} (hx : x.pred = L.pred)
    (this isLinearPred : Bool) (pending : List TuplePtr) (new : ℕ) (alive : Bool) :
    let r := runBody C L.toIterate this isLinearPred s.isLinear s.depth body pending x new alive s
    N.Step s₀ (L :: rest) s r.1 ∧
      (∀ y ∈ consumedOf r.1.log, y ∈ consumedOf s.log ∨
        ∃ M ∈ rest, M.kind = .linear ∧ y.pred = M.pred) ∧
      Outcome s₀.content f (this || s.isLinear) rest (E.map Prod.snd ++ [x])
        (combos (N.offers C s₀) rest (E.map Prod.snd ++ [x])) s.view r.1.view r.2 := by
  intro r
  obtain ⟨t, ht⟩ : ∃ t, t = Nest.inBody C L this isLinearPred x new alive s := ⟨_, rfl⟩
  have hr : r = ((body pending x t).1.pop s.isLinear s.depth, (body pending x t).2) := by
    rw [ht]
    rfl
  have hview : t.view = s.view := by
    rw [ht]
    exact IterState.view_offered s x alive
  have hcons : consumedOf t.log = consumedOf s.log := congrArg NestView.consumed hview
  have htregs : ∀ r, r ≠ L.reg → t.regs r = s.regs r := by
    intro r hne
    rw [ht]
    exact Function.update_of_ne hne _ _
  have htlin : t.isLinear = (this || s.isLinear) := by rw [ht]; rfl
  obtain ⟨hstep, hout⟩ := hbody pending x t hx (ht ▸ hs.inBody h.mem this isLinearPred x new alive)
    (ht ▸ h.inBody hx this isLinearPred new alive)
  clear_value r
  subst hr
  rw [htlin, hview] at hout
  have hcons' : ∀ y ∈ consumedOf (body pending x t).1.log, y ∈ consumedOf s.log ∨
      ∃ M ∈ rest, M.kind = .linear ∧ y.pred = M.pred := by
    rw [← hcons]
    exact hstep.consumed
  refine ⟨⟨?_, rfl, rfl, fun r hr => ?_, fun y hy => ?_, fun y hy => ?_⟩, hcons', hout⟩
  · exact ⟨hstep.inv.content, hstep.inv.updated, hstep.inv.regs, hstep.inv.slots,
      hstep.inv.consumed⟩
  · rw [List.map_cons, List.mem_cons, not_or] at hr
    rw [← htregs r hr.1]
    exact hstep.regs r hr.2
  · rcases hcons' y hy with hy | ⟨M, hM, hrest⟩
    · exact .inl hy
    · exact .inr ⟨M, List.mem_cons_of_mem _ hM, hrest⟩
  · rw [← hcons] at hy
    exact hstep.mono y hy

/-- A success at a consuming level consumes its tuple. -/
theorem Step.consume (hR : N.Ready s₀) (h : N.Place pre (L :: rest) E s)
    (hL : L.kind = .linear) (hstep : N.Step s₀ (L :: rest) s s') {x : TuplePtr}
    (hx : x ∈ s₀.store L.pred) (pending : List TuplePtr) :
    N.Step s₀ (L :: rest) s (s'.consume pending x) := by
  have hpred : x.pred = L.pred := hR.typed _ x hx
  have hlog : consumedOf (s'.consume pending x).log = consumedOf s'.log ++ [x] :=
    congrArg NestView.consumed (IterState.view_consume s' pending x)
  have hinv := hstep.inv
  have hconsume : s'.consume pending x = (s'.note (.removed x (s'.alive x)
      (decide (x ∈ pending)) true)).setSlot x.pred
        (.list (((s₀.store x.pred).filter fun y => decide (y ∉ consumedOf s'.log)).erase x)) := by
    rw [IterState.consume, IterState.erase]
    simp only [IterState.note, hinv.slots, TupleSlot.isTable, TupleSlot.erase,
      Bool.false_eq_true, if_false]
  rw [hconsume] at hlog ⊢
  refine ⟨⟨hinv.content, hinv.updated, hinv.regs, fun p => ?_, ?_⟩, hstep.isLinear, hstep.depth,
    hstep.regs, ?_, ?_⟩
  · have hmem : ∀ y, y ∉ consumedOf s'.log ++ [x] ↔ y ≠ x ∧ y ∉ consumedOf s'.log := by
      intro y
      simp [and_comm]
    rw [hlog, IterState.setSlot]
    simp only [hmem, Bool.decide_and]
    rw [← List.filter_filter]
    by_cases hp : p = x.pred
    · subst hp
      rw [Function.update_self, List.Nodup.erase_eq_filter ((hR.nodup _).filter _)]
      refine congrArg _ (List.filter_congr fun y _ => ?_)
      rw [Bool.eq_iff_iff, bne_iff_ne, decide_eq_true_iff]
    · rw [Function.update_of_ne hp]
      refine (hinv.slots p).trans (congrArg _ (List.filter_eq_self.2 fun y hy => ?_).symm)
      rw [decide_eq_true_iff]
      rintro rfl
      exact hp (hR.typed p y (List.mem_of_mem_filter hy)).symm
  · rw [hlog]
    intro y hy
    rcases List.mem_append.1 hy with hy | hy
    · exact hinv.consumed y hy
    · rw [List.mem_singleton] at hy
      subst hy
      exact ⟨L, h.mem, hL, hpred⟩
  · rw [hlog]
    intro y hy
    rcases List.mem_append.1 hy with hy | hy
    · exact hstep.consumed y hy
    · rw [List.mem_singleton] at hy
      subst hy
      exact .inr ⟨L, List.mem_cons_self, hL, hpred⟩
  · rw [hlog]
    intro y hy
    exact List.mem_append_left _ (hstep.mono y hy)

/-! ## How outcomes compose -/

section Outcome

variable {content : TuplePtr → Tuple} {isLinear : Bool} {levels : List Level} {T : List TuplePtr}
  {cs ds : List Combo} {v v' w : NestView σ} {ret ret' : ReturnType}

/-- The end of an iterate. -/
theorem Outcome.append_of_ends (h : Outcome content f isLinear levels T cs v w ret)
    (hends : endsIterate isLinear ret = true) (ds : List Combo) :
    Outcome content f isLinear levels T (cs ++ ds) v w ret := by
  cases isLinear with
  | false =>
    rw [Outcome, if_neg (by simp)] at h
    simp [endsIterate, h.2] at hends
  | true =>
    rw [Outcome, if_pos rfl] at h ⊢
    rw [NestView.search_append]
    rcases hsearch : NestView.search content f levels T cs v with ⟨u, _ | c⟩
    · rw [hsearch] at h
      have hret := h.2
      simp only [ReturnType.toFinish, Bool.or_eq_false_iff] at hret
      simp [endsIterate, hret] at hends
    · rw [hsearch] at h
      exact h

/-- The next combinations. -/
theorem Outcome.append (h : Outcome content f isLinear levels T cs v w ret)
    (hends : endsIterate isLinear ret = false)
    (h' : Outcome content f isLinear levels T ds w v' ret') :
    Outcome content f isLinear levels T (cs ++ ds) v v' ret' := by
  cases isLinear with
  | false =>
    rw [Outcome, if_neg (by simp)] at h h' ⊢
    rw [List.foldl_append, ← h.1]
    exact h'
  | true =>
    rw [Outcome, if_pos rfl] at h h' ⊢
    rw [NestView.search_append]
    rcases hsearch : NestView.search content f levels T cs v with ⟨u, _ | c⟩
    · rw [hsearch] at h
      rw [h.1] at h'
      exact h'
    · rw [hsearch] at h
      simp [endsIterate, h.2] at hends

theorem outcome_nil (r : ReturnType) (hret : r.toFinish = false) :
    Outcome content f isLinear levels T [] v v r := by
  cases isLinear with
  | false =>
    refine ⟨rfl, ?_⟩
    rintro rfl
    simp [ReturnType.toFinish] at hret
  | true => exact ⟨rfl, hret⟩

/-- A consumed tuple is passed over. -/
theorem outcome_spent (hL : L.kind = .linear) {x : TuplePtr} (hx : x ∈ v.consumed)
    (isLinear : Bool) (cs : List Combo) :
    Outcome content f isLinear (L :: rest) T (cs.map (Combo.cons x)) v v .noReturn := by
  cases isLinear with
  | false =>
    rw [Outcome, if_neg (by simp), NestView.foldl_attempt_spent hL hx]
    exact ⟨rfl, by simp⟩
  | true =>
    rw [Outcome, if_pos rfl, NestView.search_spent hL hx]
    exact ⟨rfl, rfl⟩

/-- **One tuple of a level**, from the outcome of the levels inside: after a success at a consuming
level its tuple is consumed too. -/
theorem Outcome.level {x : TuplePtr}
    (h : Outcome content f (decide (L.kind = .linear) || isLinear) rest (T ++ [x]) cs v v' ret)
    (hx : L.kind = .linear → x ∉ v.consumed) :
    Outcome content f isLinear (L :: rest) T (cs.map (Combo.cons x)) v
      (if decide (L.kind = .linear) && ret.toFinish then v'.consume [x] else v') ret := by
  by_cases hL : L.kind = .linear
  · have htaken : ∀ c, taken (L :: rest) (x :: c) = taken rest c ++ [x] := by
      intro c
      rw [taken, if_pos hL]
    simp only [hL, decide_true, Bool.true_or, Bool.true_and] at h ⊢
    rw [Outcome, if_pos rfl] at h
    rcases hsearch : NestView.search content f rest (T ++ [x]) cs v with ⟨u, _ | c⟩
    · rw [hsearch] at h
      obtain ⟨rfl, hret⟩ := h
      rw [if_neg (by simp [hret])]
      cases isLinear with
      | false =>
        rw [Outcome, if_neg (by simp), NestView.foldl_attempt_linear hL cs v (hx hL), hsearch]
        refine ⟨rfl, ?_⟩
        rintro rfl
        simp [ReturnType.toFinish] at hret
      | true =>
        rw [Outcome, if_pos rfl, NestView.search_cons cs v hx, hsearch]
        exact ⟨rfl, hret⟩
    · rw [hsearch] at h
      obtain ⟨rfl, rfl⟩ := h
      have htwice : (u.consume (taken rest c)).consume [x] = u.consume (taken rest c ++ [x]) := by
        simp [NestView.consume]
      have hfinish : ReturnType.toFinish .derived = true := rfl
      rw [if_pos hfinish, htwice]
      cases isLinear with
      | false =>
        rw [Outcome, if_neg (by simp), NestView.foldl_attempt_linear hL cs v (hx hL), hsearch]
        exact ⟨rfl, by simp⟩
      | true =>
        rw [Outcome, if_pos rfl, NestView.search_cons cs v hx, hsearch]
        exact ⟨by rw [htaken], rfl⟩
  · have htaken : ∀ c, taken (L :: rest) (x :: c) = taken rest c := by
      intro c
      rw [taken, if_neg hL, List.append_nil]
    simp only [hL, decide_false, Bool.false_or, Bool.false_and, Bool.false_eq_true,
      if_false] at h ⊢
    cases isLinear with
    | false =>
      rw [Outcome, if_neg (by simp)] at h ⊢
      rw [NestView.foldl_attempt_cons hL]
      exact h
    | true =>
      rw [Outcome, if_pos rfl] at h ⊢
      rw [NestView.search_cons cs v hx]
      rcases hsearch : NestView.search content f rest (T ++ [x]) cs v with ⟨u, _ | c⟩
      · rw [hsearch] at h
        exact h
      · rw [hsearch] at h
        exact ⟨by rw [h.1, htaken], h.2⟩

end Outcome

/-! ## The loops of a level -/

/-- The loop of a persistent level. -/
theorem persLoop_spec {body : IterBody σ} (hbody : N.BodyOk C f s₀ pre rest L E body)
    (hL : L.kind ≠ .linear) (pending xs : List TuplePtr) (hxs : ∀ x ∈ xs, x.pred = L.pred)
    (h : N.Place pre (L :: rest) E s) (hs : N.Inv s₀ s) :
    let r := persLoop C L.toIterate s.isLinear s.depth body pending xs s
    N.Step s₀ (L :: rest) s r.1 ∧
      Outcome s₀.content f s.isLinear (L :: rest) (E.map Prod.snd)
        (xs.flatMap (N.combosWith C s₀ rest (E.map Prod.snd))) s.view r.1.view r.2 := by
  induction xs generalizing s with
  | nil => exact ⟨Step.refl hs _, outcome_nil _ rfl⟩
  | cons x xs ih =>
    intro r
    obtain ⟨hstep, -, hout⟩ := runBody_spec hbody h hs (hxs x List.mem_cons_self) false false
      pending (C.minDepth x) true
    obtain ⟨q, hq⟩ : ∃ q, q = runBody C L.toIterate false false s.isLinear s.depth body pending x
      (C.minDepth x) true s := ⟨_, rfl⟩
    rw [← hq] at hstep hout
    have hr : r = if endsIterate s.isLinear q.2 then q
        else persLoop C L.toIterate s.isLinear s.depth body pending xs q.1 := by
      rw [hq]
      rfl
    have hhead : Outcome s₀.content f s.isLinear (L :: rest) (E.map Prod.snd)
        (N.combosWith C s₀ rest (E.map Prod.snd) x) s.view q.1.view q.2 := by
      have hin : Outcome s₀.content f (decide (L.kind = .linear) || s.isLinear) rest
          (E.map Prod.snd ++ [x]) (combos (N.offers C s₀) rest (E.map Prod.snd ++ [x])) s.view
          q.1.view q.2 := by simpa [hL] using hout
      simpa [hL, combosWith] using hin.level fun hlin => absurd hlin hL
    rw [hr, List.flatMap_cons]
    by_cases hends : endsIterate s.isLinear q.2 = true
    · rw [if_pos hends]
      exact ⟨hstep, hhead.append_of_ends hends _⟩
    · rw [if_neg hends]
      obtain ⟨hstep', hout'⟩ := ih (fun y hy => hxs y (List.mem_cons_of_mem _ hy))
        (h.of_step hstep) hstep.inv
      rw [hstep.isLinear, hstep.depth] at hstep' hout'
      exact ⟨hstep.trans hstep', hhead.append (by simpa using hends) hout'⟩

/-- A consumed tuple of the predicate of a level has been consumed by the level. -/
theorem Place.kind_eq_linear (h : N.Place pre (L :: rest) E s) (hs : N.Inv s₀ s) {x : TuplePtr}
    (hx : x.pred = L.pred) (hmem : x ∈ consumedOf s.log) : L.kind = .linear := by
  obtain ⟨M, hM, hkind, hpred⟩ := hs.consumed x hmem
  rw [h.split, List.mem_append, List.mem_cons] at hM
  rcases hM with hM | rfl | hM
  · exact absurd (hpred.symm.trans hx) (h.pred_ne (.inl hM))
  · exact hkind
  · exact absurd (hpred.symm.trans hx) (h.pred_ne (.inr hM))

/-- The tuples of a level over a linear predicate that are offered. -/
def passes (N : Nest) (s : IterState σ) (L : Level) (m : MatchObject) (x : TuplePtr) : Bool :=
  !N.isStale s L.reg x && doMatches m (s.content x)

/-- The end of a round of a level over a linear predicate. -/
theorem listRound_spec {body : IterBody σ} (hR : N.Ready s₀)
    (hbody : N.BodyOk C f s₀ pre rest L E body) {consumes : Bool}
    (hconsumes : consumes = decide (L.kind = .linear)) (pending : List TuplePtr) {x : TuplePtr}
    (hx : x ∈ s₀.store L.pred) (hmem : x ∉ consumedOf s.log)
    (h : N.Place pre (L :: rest) E s) (hs : N.Inv s₀ s) :
    let q := runBody C L.toIterate consumes true s.isLinear s.depth body pending x 0 true s
    let t := if consumes && q.2.toFinish then q.1.finishLinear pending L.reg x else q.1
    N.Step s₀ (L :: rest) s t ∧
      (∀ y ∈ consumedOf t.log, y.pred = L.pred → y ∈ consumedOf s.log ∨ y = x) ∧
      Outcome s₀.content f s.isLinear (L :: rest) (E.map Prod.snd)
        (N.combosWith C s₀ rest (E.map Prod.snd) x) s.view t.view q.2 := by
  subst hconsumes
  intro q t
  obtain ⟨hstep, hcons, hout⟩ := runBody_spec hbody h hs (hR.typed _ x hx)
    (decide (L.kind = .linear)) true pending 0 true
  have hlevel := hout.level fun _ => hmem
  have hother : ∀ y ∈ consumedOf q.1.log, y.pred = L.pred → y ∈ consumedOf s.log := by
    intro y hy hpred
    rcases hcons y hy with hy | ⟨M, hM, -, hyM⟩
    · exact hy
    · exact absurd (hyM.symm.trans hpred) (h.pred_ne (.inr hM))
  by_cases hfin : (decide (L.kind = .linear) && q.2.toFinish) = true
  · have hL : L.kind = .linear := by
      rw [Bool.and_eq_true, decide_eq_true_iff] at hfin
      exact hfin.1
    have ht : t = q.1.consume pending x := by
      have hupd : q.1.updatedMap L.reg = false := hstep.inv.updated L h.mem
      refine (if_pos hfin).trans ?_
      rw [IterState.finishLinear, hupd]
      rfl
    have hview : t.view = q.1.view.consume [x] := by rw [ht, IterState.view_consume]
    have hlog : consumedOf t.log = consumedOf q.1.log ++ [x] := congrArg NestView.consumed hview
    refine ⟨?_, ?_, ?_⟩
    · rw [ht]
      exact hstep.consume hR h hL hx pending
    · rw [hlog]
      intro y hy hpred
      rcases List.mem_append.1 hy with hy | hy
      · exact .inl (hother y hy hpred)
      · exact .inr (List.mem_singleton.1 hy)
    · rw [if_pos hfin] at hlevel
      rw [hview]
      exact hlevel
  · have ht : t = q.1 := if_neg hfin
    refine ⟨?_, ?_, ?_⟩
    · rw [ht]
      exact hstep
    · rw [ht]
      exact fun y hy hpred => .inl (hother y hy hpred)
    · rw [if_neg hfin] at hlevel
      rw [ht]
      exact hlevel

/-- The loop of a level over a linear predicate, where `D` are the tuples consumed before it. -/
theorem listLoop_spec {body : IterBody σ} (hR : N.Ready s₀)
    (hbody : N.BodyOk C f s₀ pre rest L E body) {consumes : Bool}
    (hconsumes : consumes = decide (L.kind = .linear)) (m : MatchObject)
    (pending D xs : List TuplePtr) (hxs : ∀ x ∈ xs, x ∈ s₀.store L.pred) (hnodup : xs.Nodup)
    (h : N.Place pre (L :: rest) E s) (hs : N.Inv s₀ s)
    (hD : ∀ x ∈ xs, x ∈ consumedOf s.log ↔ x ∈ D) :
    let r := listLoop C L.toIterate consumes E m s.isLinear s.depth body pending
      (xs.filter fun x => decide (x ∉ D)) s
    N.Step s₀ (L :: rest) s r.1 ∧
      Outcome s₀.content f s.isLinear (L :: rest) (E.map Prod.snd)
        ((xs.filter (N.passes s₀ L m)).flatMap (N.combosWith C s₀ rest (E.map Prod.snd))) s.view
        r.1.view r.2 := by
  induction xs generalizing s with
  | nil => exact ⟨Step.refl hs _, outcome_nil _ rfl⟩
  | cons x xs ih =>
    rw [List.nodup_cons] at hnodup
    have hxmem := hxs x List.mem_cons_self
    have hpred := hR.typed _ x hxmem
    have hxs' : ∀ y ∈ xs, y ∈ s₀.store L.pred := fun y hy => hxs y (List.mem_cons_of_mem _ hy)
    have hD' : ∀ y ∈ xs, y ∈ consumedOf s.log ↔ y ∈ D := fun y hy =>
      hD y (List.mem_cons_of_mem _ hy)
    by_cases hxD : x ∈ D
    · -- consumed by an earlier run of the level
      have hmem : x ∈ consumedOf s.log := (hD x List.mem_cons_self).2 hxD
      have hkind := h.kind_eq_linear hs hpred hmem
      have hih := ih hxs' hnodup.2 h hs hD'
      rw [List.filter_cons_of_neg (by simpa using hxD)]
      refine ⟨hih.1, ?_⟩
      by_cases hpass : N.passes s₀ L m x = true
      · rw [List.filter_cons_of_pos hpass, List.flatMap_cons]
        refine Outcome.append (outcome_spent hkind hmem _ _) ?_ hih.2
        simp [endsIterate]
      · rw [List.filter_cons_of_neg hpass]
        exact hih.2
    · have hmem : x ∉ consumedOf s.log := fun hx => hxD ((hD x List.mem_cons_self).1 hx)
      have halive : s.alive x = true := by
        rw [IterState.alive, decide_eq_true_iff, hpred, hs.store, List.mem_filter]
        exact ⟨hxmem, by simpa using hmem⟩
      have hused : s.tupleIsUsed x (L.toIterate : Iterate σ).reg = N.isStale s₀ L.reg x :=
        h.tupleIsUsed_eq hs hpred
      rw [List.filter_cons_of_pos (by simpa using hxD), listLoop,
        if_neg (by simp [halive])]
      by_cases hstale : N.isStale s₀ L.reg x = true
      · -- in a register that another rule has left
        rw [if_pos (hused.trans hstale), List.filter_cons_of_neg (by simp [passes, hstale])]
        split
        · have hnote : N.Step s₀ (L :: rest) s (s.note (.skipped x (E.holds L.reg x))) :=
            Step.of_note hs rfl _
          have hih := ih hxs' hnodup.2 (h.of_step hnote) hnote.inv (by
            intro y hy
            have hview := IterState.view_skipped s x (E.holds L.reg x)
            rw [show consumedOf (s.note (.skipped x (E.holds L.reg x))).log = consumedOf s.log from
              congrArg NestView.consumed hview]
            exact hD' y hy)
          rw [IterState.view_skipped] at hih
          exact ⟨hnote.trans hih.1, hih.2⟩
        · exact ih hxs' hnodup.2 h hs hD'
      · rw [Bool.not_eq_true] at hstale
        rw [if_neg (by simp [hused, hstale])]
        by_cases hmatch : doMatches m (s.content x) = true
        · rw [if_neg (by simp [hmatch]), List.filter_cons_of_pos
            (by simp [passes, hstale, ← hs.content, hmatch]), List.flatMap_cons]
          obtain ⟨hstep, hcons, hout⟩ := listRound_spec hR hbody hconsumes pending hxmem hmem h hs
          obtain ⟨q, hq⟩ : ∃ q, q = runBody C L.toIterate consumes true s.isLinear s.depth body
            pending x 0 true s := ⟨_, rfl⟩
          rw [← hq] at hstep hcons hout
          obtain ⟨t, ht⟩ : ∃ t, t = if consumes && q.2.toFinish then
            q.1.finishLinear pending L.reg x else q.1 := ⟨_, rfl⟩
          rw [← ht] at hstep hcons hout
          dsimp only
          have ht' : (if consumes && q.2.toFinish then
              q.1.finishLinear pending (L.toIterate : Iterate σ).reg x else q.1) = t := ht.symm
          rw [← hq, ht']
          by_cases hends : endsIterate s.isLinear q.2 = true
          · rw [if_pos hends]
            exact ⟨hstep, hout.append_of_ends hends _⟩
          · rw [if_neg hends]
            have hih := ih hxs' hnodup.2 (h.of_step hstep) hstep.inv (by
              intro y hy
              rw [← hD' y hy]
              refine ⟨fun hyt => ?_, hstep.mono y⟩
              rcases hcons y hyt (hR.typed _ y (hxs' y hy)) with hyt | rfl
              · exact hyt
              · exact absurd hy hnodup.1)
            rw [hstep.isLinear, hstep.depth] at hih
            exact ⟨hstep.trans hih.1, hout.append (by simpa using hends) hih.2⟩
        · rw [if_pos (by simpa using hmatch), List.filter_cons_of_neg
            (by simp [passes, ← hs.content, hmatch])]
          exact ih hxs' hnodup.2 h hs hD'

/-! ## The nest -/

/-- The innermost code. -/
theorem leaf_spec (hs : N.Inv s₀ s) (E : Enclosing) (pending : List TuplePtr) :
    let r := (nestCode f []).exec C E pending s
    N.Step s₀ [] s r.1 ∧
      Outcome s₀.content f s.isLinear [] (E.map Prod.snd)
        (combos (N.offers C s₀) [] (E.map Prod.snd)) s.view r.1.view r.2 := by
  intro r
  obtain ⟨a, ha⟩ : ∃ a, a = f s.env ((E.map Prod.snd).map s₀.content) := ⟨_, rfl⟩
  have hcontents : (E.map fun e => s.content e.2) = (E.map Prod.snd).map s₀.content := by
    rw [List.map_map, hs.content]
    rfl
  obtain ⟨ret, hret⟩ : ∃ ret, ret = if a.2 then ReturnType.derived else .next := ⟨_, rfl⟩
  have hr : r = ({ s.note (.ran (E.map Prod.snd) ret) with env := a.1 }, ret) := by
    rw [hret, ha, ← hcontents]
    rfl
  clear_value r
  subst hr
  have hderived : (ret == .derived) = a.2 := by
    rw [hret]
    cases a.2 <;> rfl
  have hnote : N.Step s₀ [] s (s.note (.ran (E.map Prod.snd) ret)) := Step.of_note hs rfl _
  refine ⟨⟨⟨hnote.inv.content, hnote.inv.updated, hnote.inv.regs, hnote.inv.slots,
    hnote.inv.consumed⟩, rfl, rfl, fun _ _ => rfl, hnote.consumed, hnote.mono⟩, ?_⟩
  have hview : IterState.view { s.note (.ran (E.map Prod.snd) ret) with env := a.1 } =
      (s.view.tryOn s₀.content f (E.map Prod.snd)).1 := by
    have htry : (s.view.tryOn s₀.content f (E.map Prod.snd)).1 =
        ⟨a.1, ransOf s.log ++ [(E.map Prod.snd, a.2)], consumedOf s.log, searchesOk s.log⟩ := by
      rw [ha]
      rfl
    rw [htry, ← hderived]
    simp [IterState.view, IterState.note, ransOf, consumedOf, searchesOk]
  have hsucc : (s.view.tryOn s₀.content f (E.map Prod.snd)).2 = a.2 := by
    rw [ha]
    rfl
  have hspent : ¬ s.view.Spent [] [] := by simp [NestView.Spent, taken]
  rw [hview]
  cases hlin : s.isLinear with
  | false =>
    rw [Outcome, if_neg (by simp)]
    refine ⟨?_, ?_⟩
    · simp [combos, NestView.attempt, hspent, taken]
    · rw [hret]
      cases a.2 <;> simp
  | true =>
    rw [Outcome, if_pos rfl]
    cases hsucc' : a.2 with
    | false =>
      rw [hsucc'] at hsucc hret
      simp [combos, NestView.search, hspent, hsucc, hret, ReturnType.toFinish]
    | true =>
      rw [hsucc'] at hsucc hret
      simp [combos, NestView.search, hspent, hsucc, hret, taken]

/-- An iterate of the nest, up to the value its routine returns. -/
theorem executeIter_spec {body : IterBody σ} (hR : N.Ready s₀) (hF : N.Found C)
    (hbody : N.BodyOk C f s₀ pre rest L E body) (pending : List TuplePtr)
    (h : N.Place pre (L :: rest) E s) (hs : N.Inv s₀ s) :
    let r := executeIter C L.toIterate E body pending s
    N.Step s₀ (L :: rest) s r.1 ∧
      Outcome s₀.content f s.isLinear (L :: rest) (E.map Prod.snd)
        (combos (N.offers C s₀) (L :: rest) (E.map Prod.snd)) s.view r.1.view r.2 := by
  obtain ⟨m, hm⟩ : ∃ m, m = L.pattern ((E.map Prod.snd).map s₀.content) := ⟨_, rfl⟩
  have hpattern : (L.toIterate : Iterate σ).pattern s.env (E.map fun e => s.content e.2) = m := by
    rw [hm, List.map_map, ← hs.content]
    rfl
  have hlist : ∀ consumes : Bool, consumes = decide (L.kind = .linear) →
      let r := executeStoredIter C L.toIterate consumes E m body pending s
      N.Step s₀ (L :: rest) s r.1 ∧
        Outcome s₀.content f s.isLinear (L :: rest) (E.map Prod.snd)
          (((s₀.store L.pred).filter (N.passes s₀ L m)).flatMap
            (N.combosWith C s₀ rest (E.map Prod.snd))) s.view r.1.view r.2 := by
    intro consumes hconsumes
    have henter : N.Step s₀ (L :: rest) s (s.enterLinear L.toIterate E) := Step.of_note hs rfl _
    have hview : (s.enterLinear L.toIterate E).view = s.view := IterState.view_entered s _
    have hlog : consumedOf (s.enterLinear L.toIterate E).log = consumedOf s.log :=
      congrArg NestView.consumed hview
    have hloop := listLoop_spec hR hbody hconsumes m pending (consumedOf s.log) (s₀.store L.pred)
      (fun _ hx => hx) (hR.nodup _) (h.of_step henter) henter.inv
      (fun x _ => by rw [hlog])
    rw [henter.isLinear, henter.depth, hview] at hloop
    rw [executeStoredIter_of_list C (hs.slots L.pred)]
    exact ⟨henter.trans hloop.1, hloop.2⟩
  rw [executeIter, hpattern]
  cases hkind : L.kind with
  | pers =>
    have hit : (L.toIterate : Iterate σ).kind = .pers := by simp only [Level.toIterate, hkind]
    have hoffers : N.offers C s₀ L (E.map Prod.snd) = C.search L.pred m := by
      simp only [offers, hkind, hm]
    rw [hit]
    simp only [executePersIter, combos, hoffers]
    cases hsearch : C.search L.pred m with
    | none =>
      have hnone : C.search (L.toIterate : Iterate σ).pred m = none := hsearch
      rw [hnone]
      refine ⟨Step.of_note hs rfl _, ?_⟩
      rw [IterState.view_searched_false]
      have hspent : ¬ s.view.Spent (L :: rest) [] := by simp [NestView.Spent, taken]
      cases s.isLinear with
      | false =>
        rw [Outcome, if_neg (by simp)]
        refine ⟨?_, by simp⟩
        simp [NestView.attempt, hspent]
      | true =>
        rw [Outcome, if_pos rfl]
        simp [NestView.search, hspent, ReturnType.toFinish]
    | some xs =>
      have hsome : C.search (L.toIterate : Iterate σ).pred m = some xs := hsearch
      have hfound : ∀ x ∈ xs, x.pred = L.pred := hF L h.mem hkind _ xs (hm ▸ hsearch)
      rw [hsome]
      have hnote : N.Step s₀ (L :: rest) s (s.note (.searched true)) := Step.of_note hs rfl _
      have hloop := persLoop_spec hbody (by simp [hkind]) pending xs hfound
        (h.of_step hnote) hnote.inv
      rw [hnote.isLinear, hnote.depth, IterState.view_searched] at hloop
      exact ⟨hnote.trans hloop.1, hloop.2⟩
  | rlinear =>
    have hit : (L.toIterate : Iterate σ).kind = .rlinear := by simp only [Level.toIterate, hkind]
    have hoffers : N.offers C s₀ L (E.map Prod.snd) =
        some ((s₀.store L.pred).filter (N.passes s₀ L m)) := by
      simp only [offers, hkind, hm]
      rfl
    rw [hit]
    simp only [combos, hoffers]
    exact hlist false (by simp [hkind])
  | linear =>
    have hit : (L.toIterate : Iterate σ).kind = .linear := by simp only [Level.toIterate, hkind]
    have hoffers : N.offers C s₀ L (E.map Prod.snd) =
        some ((s₀.store L.pred).filter (N.passes s₀ L m)) := by
      simp only [offers, hkind, hm]
      rfl
    rw [hit]
    simp only [combos, hoffers]
    exact hlist true (by simp [hkind])

/-- **The levels of a nest, from any of them on**, do what they should with their combinations. -/
theorem exec_levels (hR : N.Ready s₀) (hF : N.Found C) (pending : List TuplePtr)
    (h : N.Place pre rest E s) (hs : N.Inv s₀ s) :
    let r := (nestCode f rest).exec C E pending s
    N.Step s₀ rest s r.1 ∧
      Outcome s₀.content f s.isLinear rest (E.map Prod.snd)
        (combos (N.offers C s₀) rest (E.map Prod.snd)) s.view r.1.view r.2 := by
  induction rest generalizing pre E pending s with
  | nil => exact leaf_spec hs E pending
  | cons L rest ih =>
    have hbody : N.BodyOk C f s₀ pre rest L E fun pending x s =>
        (nestCode f rest).exec C (E ++ [(L.reg, x)]) pending s := by
      intro pending x s _ hs hplace
      have hin := ih pending hplace hs
      rw [List.map_append] at hin
      exact hin
    obtain ⟨q, hq⟩ : ∃ q, q = executeIter C L.toIterate E (fun pending x s =>
      (nestCode f rest).exec C (E ++ [(L.reg, x)]) pending s) pending s := ⟨_, rfl⟩
    have hspec := executeIter_spec hR hF hbody pending h hs
    rw [← hq] at hspec
    obtain ⟨hstep, hout⟩ := hspec
    have hexec : (nestCode f (L :: rest)).exec C E pending s =
        if q.2 = .linear then q
        else if q.2 = .derived ∧ q.1.isLinear = true then q else (q.1, .next) := by
      rw [hq]
      rfl
    rw [hexec, hstep.isLinear]
    by_cases hends : endsIterate s.isLinear q.2 = true
    · rw [endsIterate, Bool.or_eq_true, Bool.and_eq_true, beq_iff_eq, beq_iff_eq] at hends
      rcases hends with hends | ⟨hlin, hends⟩
      · rw [if_pos hends]
        exact ⟨hstep, hout⟩
      · rw [if_neg (by simp [hends]), if_pos ⟨hends, hlin⟩]
        exact ⟨hstep, hout⟩
    · have hends' := hends
      rw [endsIterate, Bool.or_eq_true, Bool.and_eq_true, beq_iff_eq, beq_iff_eq, not_or] at hends
      rw [if_neg hends.1, if_neg fun hd => hends.2 ⟨hd.2, hd.1⟩]
      refine ⟨hstep, ?_⟩
      have hnext := hout.append (by simpa using hends') (outcome_nil .next rfl)
      rwa [List.append_nil] at hnext

/-- **A nest goes through all its combinations in the order of the loops, tries each of them whose
consumed tuples are still there, and after a success consumes those.**  Flag and depth are as
before. -/
theorem exec_nestCode (hR : N.Ready s₀) (hF : N.Found C) (hlin : s₀.isLinear = false) :
    let r := (nestCode f N.levels).exec C [] [] s₀
    r.1.view = (combos (N.offers C s₀) N.levels []).foldl
        (NestView.attempt s₀.content f N.levels []) ⟨s₀.env, [], [], true⟩ ∧
      r.1.isLinear = s₀.isLinear ∧ r.1.depth = s₀.depth ∧
      ∀ p, r.1.store p = (s₀.store p).filter fun x => decide (x ∉ r.1.view.consumed) := by
  have hview : s₀.view = ⟨s₀.env, [], [], true⟩ := by
    rw [IterState.view, hR.log]
    rfl
  have hinv : N.Inv s₀ s₀ := by
    refine ⟨rfl, hR.updated, fun _ _ => ⟨rfl, rfl⟩, fun p => (hR.lists p).trans ?_, ?_⟩
    · simp [hR.log, consumedOf]
    · simp [hR.log, consumedOf]
  have hplace : N.Place [] N.levels [] s₀ := ⟨rfl, by simp, by simp, by simp⟩
  obtain ⟨hstep, hout⟩ := exec_levels (f := f) hR hF [] hplace hinv
  rw [hlin, Outcome, if_neg (by simp), hview] at hout
  exact ⟨hout.1, hstep.isLinear, hstep.depth, hstep.inv.store⟩

end Nest

end Meld
