import Meld.Vm.Iterates

/-!
# Which tuples iterates use

Several iterates of a rule may be over the same linear predicate, and each has to take another
tuple. `tuple_is_used` looks for the tuple in the registers below that are marked in `tuple_regs`; a
mark is set when an iterate puts a tuple into its register, and stays until the end of `run_node`.
An ordered iterate collects its candidates before it runs its body on any of them.

Two things go wrong with this.  A register that an earlier rule has left marked makes a later
iterate pass over a tuple that nobody holds.  And an iterate inside an ordered one may consume a
tuple that the ordered one has collected, and later runs its body on.  Hash tables add others: an
ordered iterate reads them as lists, a plain one goes on from a bucket list that it has freed, and
a tuple that was updated in place may be missing from the bucket list that is looked up.

* `IterEvent.good`: what should hold of an event, and `IterEvent.careful`: the condition, that
  nothing of this happens.
* `Fine`: what holds in between, and `Ran`: what code may do to the state.
* `exec_ran`: all code with registers that increase inwards does so.
* `RunNode`: the states of one `run_node`, and `runNode_good`: as long as all events are careful,
  all events are good.
-/

namespace Meld

namespace IterEvent

/-- What should hold of an event: a tuple is passed over only if an enclosing iterate holds it, and
a body runs on a stored tuple, and only such a one is consumed. -/
def good : IterEvent → Bool
  | .skipped _ held => held
  | .offered _ alive => alive
  | .removed _ alive _ _ => alive
  | _ => true

/-- The condition: an iterate starts with no marked register below its own that points at a tuple of
its list, other than those of enclosing iterates, and no tuple is consumed that an enclosing ordered
iterate has still to offer; a bucket list that is looked up has all tuples that match, no hash table
and no freed bucket list is read as a list, a removal from a hash table leaves all other tuples in
it, and no tuple is added to the predicate of an enclosing iterate. -/
def careful : IterEvent → Bool
  | .entered clean => clean
  | .removed _ _ pending _ => !pending
  | .lookedUp complete => complete
  | .misread => false
  | .unlinked intact => intact
  | .added _ under => !under
  | _ => true

end IterEvent

variable {σ : Type}

/-- Registers increase inwards: all iterates have registers from `lo` on, and those inside an
iterate have larger ones than it. -/
def IterCode.Increasing : ℕ → IterCode σ → Prop
  | _, .ret _ => True
  | _, .leaf _ => True
  | lo, .test _ yes no => yes.Increasing lo ∧ no.Increasing lo
  | lo, .update _ _ next => next.Increasing lo
  | lo, .add _ next => next.Increasing lo
  | lo, .iter it body next =>
    lo ≤ it.reg ∧ body.Increasing (it.reg + 1) ∧ next.Increasing lo

/-- All events so far are careful. -/
def Careful (s : IterState σ) : Prop := ∀ e ∈ s.log, e.careful = true

/-- **What holds between instructions**, where `H` are the registers of the enclosing iterates over
linear predicates with their tuples, and `pending` the tuples that ordered ones have still to
offer. -/
structure Fine (H : Enclosing) (pending : List TuplePtr) (s : IterState σ) : Prop where
  good : ∀ e ∈ s.log, e.good = true
  nodup : ∀ p, (s.store p).Nodup
  typed : ∀ p, ∀ x ∈ s.store p, x.pred = p
  generated : s.generated.Nodup ∧ ∀ x ∈ s.generated, x ∉ s.store x.pred
  marked : ∀ e ∈ H, s.tupleRegs e.1 = true ∧ s.regs e.1 = some e.2
  held : ∀ e ∈ H, e.2 ∈ s.store e.2.pred
  pending : ∀ x ∈ pending, x ∈ s.store x.pred

/-- The registers below `lo` are as before. -/
def SameBelow (lo : ℕ) (s s' : IterState σ) : Prop :=
  ∀ r < lo, s'.regs r = s.regs r ∧ s'.tupleRegs r = s.tupleRegs r

/-- **What code may do**: it changes registers from `lo` on, and if all events are careful, it leads
from `P` to `Q`. -/
structure Ran (lo : ℕ) (P Q : IterState σ → Prop) (s s' : IterState σ) : Prop where
  log : s.log <+: s'.log
  below : SameBelow lo s s'
  fine : Careful s' → P s → Q s'

variable {C : IterContext} {s s' s'' : IterState σ} {lo : ℕ} {P Q R : IterState σ → Prop}
  {E H : Enclosing} {pending pending' : List TuplePtr} {x : TuplePtr}

theorem Careful.of_isPrefix (h : Careful s') (hlog : s.log <+: s'.log) : Careful s := fun e he =>
  h e (hlog.subset he)

theorem SameBelow.trans (h : SameBelow lo s s') (h' : SameBelow lo s' s'') :
    SameBelow lo s s'' := fun r hr =>
  ⟨(h' r hr).1.trans (h r hr).1, (h' r hr).2.trans (h r hr).2⟩

theorem Ran.refl (h : Careful s → P s → Q s) : Ran lo P Q s s :=
  ⟨List.prefix_rfl, fun _ _ => ⟨rfl, rfl⟩, h⟩

theorem Ran.trans (h : Ran lo P Q s s') (h' : Ran lo Q R s' s'') : Ran lo P R s s'' where
  log := h.log.trans h'.log
  below := h.below.trans h'.below
  fine := fun hc hp => h'.fine hc (h.fine (hc.of_isPrefix h'.log) hp)

theorem Ran.mono (h : Ran lo P Q s s') {lo' : ℕ} (hle : lo' ≤ lo) : Ran lo' P Q s s' :=
  ⟨h.log, fun r hr => h.below r (hr.trans_le hle), h.fine⟩

/-! ## Single changes -/

theorem Fine.weaken (hf : Fine H pending s) (hsub : ∀ y ∈ pending', y ∈ pending) :
    Fine H pending' s :=
  ⟨hf.good, hf.nodup, hf.typed, hf.generated, hf.marked, hf.held, fun y hy =>
    hf.pending y (hsub y hy)⟩

theorem Fine.note (hf : Fine H pending s) {e : IterEvent} (he : e.good = true) :
    Fine H pending (s.note e) := by
  refine ⟨?_, hf.nodup, hf.typed, hf.generated, hf.marked, hf.held, hf.pending⟩
  intro e' he'
  rcases List.mem_append.1 he' with he' | he'
  · exact hf.good e' he'
  · rw [List.mem_singleton.1 he']
    exact he

/-- A good event. -/
theorem ran_note {e : IterEvent} (he : Careful (s.note e) → e.good = true) :
    Ran lo (Fine H pending) (Fine H pending) s (s.note e) where
  log := List.prefix_append _ _
  below := fun _ _ => ⟨rfl, rfl⟩
  fine := fun hc hf => hf.note (he hc)

/-- Changes to what iterates do not look at. -/
theorem Fine.of_eq (hf : Fine H pending s) (hlog : s'.log = s.log) (hregs : s'.regs = s.regs)
    (htuple : s'.tupleRegs = s.tupleRegs) (hslots : s'.slots = s.slots)
    (hgen : s'.generated = s.generated) : Fine H pending s' := by
  have hstore : s'.store = s.store := by
    funext p
    rw [IterState.store, IterState.store, hslots]
  refine ⟨?_, ?_, ?_, ?_, ?_, ?_, ?_⟩
  · rw [hlog]
    exact hf.good
  · rw [hstore]
    exact hf.nodup
  · rw [hstore]
    exact hf.typed
  · rw [hgen, hstore]
    exact hf.generated
  · rw [htuple, hregs]
    exact hf.marked
  · rw [hstore]
    exact hf.held
  · rw [hstore]
    exact hf.pending

theorem ran_of_eq (hlog : s'.log = s.log) (hregs : s'.regs = s.regs)
    (htuple : s'.tupleRegs = s.tupleRegs) (hslots : s'.slots = s.slots)
    (hgen : s'.generated = s.generated) : Ran lo (Fine H pending) (Fine H pending) s s' where
  log := by rw [hlog]
  below := fun _ _ => by rw [hregs, htuple]; exact ⟨rfl, rfl⟩
  fine := fun _ hf => hf.of_eq hlog hregs htuple hslots hgen

/-- A tuple that is not in a marked register below is none that an enclosing iterate holds. -/
theorem Fine.ne_of_not_used (hf : Fine H pending s) {reg : ℕ} (hH : ∀ e ∈ H, e.1 < reg)
    (hused : s.tupleIsUsed x reg = false) : ∀ e ∈ H, e.2 ≠ x := by
  intro e he heq
  have hany : s.tupleIsUsed x reg = true := by
    rw [IterState.tupleIsUsed, List.any_eq_true]
    refine ⟨e.1, List.mem_range.2 (hH e he), ?_⟩
    rw [(hf.marked e he).1, (hf.marked e he).2, heq]
    simp
  rw [hused] at hany
  cases hany

/-- A slot loses the tuple that is erased, and gets none. -/
theorem TupleSlot.erase_spec (x : TuplePtr) (slot : TupleSlot) (hnodup : slot.tuples.Nodup) :
    (slot.erase x).tuples.Sublist slot.tuples ∧ x ∉ (slot.erase x).tuples := by
  cases slot with
  | list xs => exact ⟨List.erase_sublist, hnodup.not_mem_erase⟩
  | table t =>
    obtain ⟨hsub, hgone⟩ := HashTree.eraseItem_spec (S := valueScheme) x t
    exact ⟨hsub, hgone hnodup⟩

theorem store_erase (s : IterState σ) (x : TuplePtr) (p : ℕ) :
    (s.erase x).store p =
      if p = x.pred then ((s.slots x.pred).erase x).tuples else s.store p := by
  have hslots : (s.erase x).slots =
      Function.update s.slots x.pred ((s.slots x.pred).erase x) := by
    unfold IterState.erase
    dsimp only
    split <;> rfl
  rw [IterState.store, hslots]
  by_cases hp : p = x.pred
  · rw [if_pos hp, hp, Function.update_self]
  · rw [if_neg hp, Function.update_of_ne hp]
    rfl

/-- A careful removal leaves the other tuples of the predicate. -/
theorem mem_erase_of_careful (hc : Careful (s.erase x)) {y : TuplePtr} (hne : y ≠ x)
    (hy : y ∈ s.store x.pred) : y ∈ ((s.slots x.pred).erase x).tuples := by
  cases hslot : s.slots x.pred with
  | list xs =>
    rw [IterState.store, hslot] at hy
    exact (List.mem_erase_of_ne hne).2 hy
  | table t =>
    have hintact := hc (.unlinked ((s.store x.pred).all fun y =>
      decide (y = x) || decide (y ∈ ((s.slots x.pred).erase x).tuples))) (by
        rw [IterState.erase]
        simp only [hslot, TupleSlot.isTable, if_true]
        exact List.mem_append_right _ List.mem_cons_self)
    have hyx := List.all_eq_true.1 hintact y hy
    rw [hslot] at hyx
    simpa [hne] using hyx

theorem log_erase (s : IterState σ) (x : TuplePtr) : s.log <+: (s.erase x).log := by
  unfold IterState.erase
  dsimp only
  split
  · exact List.prefix_append _ _
  · exact List.prefix_rfl

/-- A tuple leaves its slot. -/
theorem Fine.erase (hf : Fine H pending s) (hc : Careful (s.erase x)) (hheld : ∀ e ∈ H, e.2 ≠ x)
    (hpending : x ∉ pending) : Fine H pending (s.erase x) := by
  have hrest : (s.erase x).regs = s.regs ∧ (s.erase x).tupleRegs = s.tupleRegs ∧
      (s.erase x).generated = s.generated := by
    unfold IterState.erase
    dsimp only
    split <;> exact ⟨rfl, rfl, rfl⟩
  obtain ⟨hregs, htuple, hgen⟩ := hrest
  have hgood : ∀ e ∈ (s.erase x).log, e.good = true := by
    intro e he
    unfold IterState.erase at he
    dsimp only at he
    split at he
    · rcases List.mem_append.1 he with he | he
      · exact hf.good e he
      · rw [List.mem_singleton.1 he]
        rfl
    · exact hf.good e he
  have hmem : ∀ y, y ≠ x → y ∈ s.store y.pred → y ∈ (s.erase x).store y.pred := by
    intro y hne hy
    rw [store_erase]
    split
    · rename_i hpred
      exact mem_erase_of_careful hc hne (hpred ▸ hy)
    · exact hy
  have hsub : ∀ p, ((s.erase x).store p).Sublist (s.store p) := by
    intro p
    rw [store_erase]
    split
    · rename_i hpred
      rw [hpred]
      exact (TupleSlot.erase_spec x _ (hf.nodup x.pred)).1
    · exact List.Sublist.refl _
  refine ⟨hgood, fun p => (hf.nodup p).sublist (hsub p), fun p y hy => ?_, ?_, ?_, fun e he => ?_,
    fun y hy => ?_⟩
  · exact hf.typed p y ((hsub p).subset hy)
  · rw [hgen]
    exact ⟨hf.generated.1, fun y hy hmem' => hf.generated.2 y hy ((hsub _).subset hmem')⟩
  · rw [htuple, hregs]
    exact hf.marked
  · exact hmem _ (hheld e he) (hf.held e he)
  · refine hmem _ ?_ (hf.pending y hy)
    rintro rfl
    exact hpending hy

/-- An iterate holds a tuple that no enclosing one holds. -/
def Holding (H : Enclosing) (pending : List TuplePtr) (reg : ℕ) (x : TuplePtr)
    (s : IterState σ) : Prop :=
  Fine ((reg, x) :: H) pending s ∧ ∀ e ∈ H, e.2 ≠ x

theorem Holding.alive {reg : ℕ} (h : Holding H pending reg x s) : s.alive x = true :=
  decide_eq_true (h.1.held (reg, x) List.mem_cons_self)

theorem Holding.fine {reg : ℕ} (h : Holding H pending reg x s) : Fine H pending s :=
  ⟨h.1.good, h.1.nodup, h.1.typed, h.1.generated, fun e he =>
    h.1.marked e (List.mem_cons_of_mem _ he), fun e he => h.1.held e (List.mem_cons_of_mem _ he),
    h.1.pending⟩

/-- The tuple of an iterate leaves its list; `outer` are the tuples the enclosing ordered iterates
have still to offer. -/
theorem ran_remove {reg : ℕ} {outer : List TuplePtr} (consumed : Bool) :
    Ran lo (fun t => Holding H pending reg x t ∧ (x ∉ outer → x ∉ pending))
      (fun t => Fine H pending t ∧ x ∉ t.store x.pred) s
      ((s.note (.removed x (s.alive x) (decide (x ∈ outer)) consumed)).erase x) where
  log := (List.prefix_append s.log _).trans
    (log_erase (s.note (.removed x (s.alive x) (decide (x ∈ outer)) consumed)) x)
  below := fun _ _ => by
    unfold IterState.erase
    dsimp only
    split <;> exact ⟨rfl, rfl⟩
  fine := by
    rintro hc ⟨hf, hpending⟩
    have hcareful := hc _ ((log_erase _ x).subset (List.mem_append_right _ List.mem_cons_self))
    have houter : x ∉ outer := by simpa [IterEvent.careful] using hcareful
    have hnote := hf.fine.note (e := .removed x (s.alive x) (decide (x ∈ outer)) consumed) hf.alive
    refine ⟨hnote.erase hc hf.2 (hpending houter), ?_⟩
    rw [store_erase, if_pos rfl]
    exact (TupleSlot.erase_spec x _ (hf.1.nodup x.pred)).2

theorem ran_consume {reg : ℕ} {outer : List TuplePtr} :
    Ran lo (fun t => Holding H pending reg x t ∧ (x ∉ outer → x ∉ pending)) (Fine H pending) s
      (s.consume outer x) :=
  (ran_remove true).trans (Ran.refl fun _ h => h.1)

theorem ran_consumeOrdered {reg : ℕ} {outer : List TuplePtr} :
    Ran lo (fun t => Holding H pending reg x t ∧ (x ∉ outer → x ∉ pending)) (Fine H pending) s
      (s.consumeOrdered outer x) := by
  rw [IterState.consumeOrdered]
  split
  · refine ⟨List.prefix_append _ _, fun _ _ => ⟨rfl, rfl⟩, fun hc _ => ?_⟩
    exact absurd (hc .misread (List.mem_append_right _ List.mem_cons_self)) (by decide)
  · exact ran_consume

/-- The end of a round of a consuming iterate. -/
theorem ran_finishLinear {reg : ℕ} :
    Ran lo (Holding H pending reg x) (Fine H pending) s (s.finishLinear pending reg x) := by
  rw [IterState.finishLinear]
  split
  · obtain ⟨t, ht⟩ : ∃ t : IterState σ,
      t = { s with updatedMap := Function.update s.updatedMap reg false } := ⟨_, rfl⟩
    have hrest : Ran lo (Holding H pending reg x) (Holding H pending reg x) s t := by
      rw [ht]
      exact ⟨List.prefix_rfl, fun _ _ => ⟨rfl, rfl⟩, fun _ h =>
        ⟨h.1.of_eq rfl rfl rfl rfl rfl, h.2⟩⟩
    dsimp only
    rw [← ht]
    split
    · -- to the generated facts
      obtain ⟨u, hu⟩ : ∃ u, u = (t.note (.removed x (t.alive x) (decide (x ∈ pending)) false)).erase x :=
        ⟨_, rfl⟩
      have hremove : Ran lo (fun t => Holding H pending reg x t ∧ (x ∉ pending → x ∉ pending))
          (fun t => Fine H pending t ∧ x ∉ t.store x.pred) t u := hu ▸ ran_remove false
      have hgen : u.generated = t.generated := by
        rw [hu]
        unfold IterState.erase
        dsimp only
        split <;> rfl
      rw [← hu]
      refine hrest.trans ⟨hremove.log, hremove.below, fun hc hf => ?_⟩
      have hfresh : x ∉ t.generated := fun hmem =>
        hf.1.generated.2 x hmem (hf.1.held (reg, x) List.mem_cons_self)
      obtain ⟨hfine, hgone⟩ := hremove.fine hc ⟨hf, id⟩
      refine ⟨hfine.good, hfine.nodup, hfine.typed, ⟨?_, fun y hy => ?_⟩, hfine.marked, hfine.held,
        hfine.pending⟩
      · show (u.generated ++ [x]).Nodup
        rw [← List.concat_eq_append]
        exact hfine.generated.1.concat fun hmem => hfresh (hgen ▸ hmem)
      · rcases List.mem_append.1 hy with hy | hy
        · exact hfine.generated.2 y hy
        · rw [List.mem_singleton.1 hy]
          exact hgone
    · exact hrest.trans (Ran.refl fun _ h => h.fine)
  · exact (Ran.refl fun _ h => ⟨h, id⟩).trans ran_consume

/-! ## Running the body of an iterate -/

/-- The enclosing iterates have their tuples in their registers, which are below `lo`. -/
def Around (lo : ℕ) (E : Enclosing) (s : IterState σ) : Prop :=
  ∀ e ∈ E, e.1 < lo ∧ s.regs e.1 = some e.2

/-- The body of an iterate does what code may do. -/
def BodyRan (it : Iterate σ) (E : Enclosing) (body : IterBody σ) : Prop :=
  ∀ (H : Enclosing) (pending : List TuplePtr) (x : TuplePtr) (s : IterState σ),
    Around (it.reg + 1) (E ++ [(it.reg, x)]) s → (∀ e ∈ H, e.1 < it.reg + 1) →
    Ran (it.reg + 1) (Fine H pending) (Fine H pending) s (body pending x s).1

theorem Around.of_sameBelow {reg : ℕ} (h : Around reg E s) (hs : SameBelow reg s s') :
    Around reg E s' := fun e he => ⟨(h e he).1, ((hs e.1 (h e he).1).1).trans (h e he).2⟩

theorem tupleIsUsed_congr {reg : ℕ} (h : SameBelow reg s s') (x : TuplePtr) :
    s'.tupleIsUsed x reg = s.tupleIsUsed x reg := by
  rw [Bool.eq_iff_iff, IterState.tupleIsUsed, IterState.tupleIsUsed, List.any_eq_true,
    List.any_eq_true]
  refine exists_congr fun r => and_congr_right fun hr => ?_
  rw [(h r (List.mem_range.1 hr)).1, (h r (List.mem_range.1 hr)).2]

section Body

variable {it : Iterate σ} {body : IterBody σ} {this isLinearPred oldIsLinear alive : Bool}
  {oldDepth newDepth : ℕ}

/-- The state in which the body starts. -/
def startBody (C : IterContext) (it : Iterate σ) (this isLinearPred : Bool) (oldDepth : ℕ)
    (x : TuplePtr) (newDepth : ℕ) (alive : Bool) (s : IterState σ) : IterState σ :=
  ((s.note (.offered x alive)).push this (C.isCycle it.pred) newDepth oldDepth).setTuple it.reg x
    isLinearPred

theorem sameBelow_startBody :
    SameBelow it.reg s (startBody C it this isLinearPred oldDepth x newDepth alive s) := by
  intro r hr
  refine ⟨Function.update_of_ne hr.ne _ _, ?_⟩
  cases isLinearPred with
  | false => rfl
  | true => exact Function.update_of_ne hr.ne _ _

theorem around_startBody (hE : Around it.reg E s) :
    Around (it.reg + 1) (E ++ [(it.reg, x)])
      (startBody C it this isLinearPred oldDepth x newDepth alive s) := by
  intro e he
  rcases List.mem_append.1 he with he | he
  · obtain ⟨hlt, hregs⟩ := hE e he
    exact ⟨hlt.trans (Nat.lt_succ_self _), (sameBelow_startBody e.1 hlt).1.trans hregs⟩
  · rw [List.mem_singleton.1 he]
    exact ⟨Nat.lt_succ_self _, Function.update_self _ _ _⟩

/-- The body of a linear iterate starts with the tuple held. -/
theorem ran_startBody (hH : ∀ e ∈ H, e.1 < it.reg) (hused : s.tupleIsUsed x it.reg = false)
    (halive : s.alive x = true → alive = true) :
    Ran it.reg (fun s => Fine H pending s ∧ s.alive x = true) (Holding H pending it.reg x) s
      (startBody C it this true oldDepth x newDepth alive s) where
  log := List.prefix_append _ _
  below := sameBelow_startBody
  fine := by
    rintro - ⟨hf, hx⟩
    have hne := hf.ne_of_not_used hH hused
    have hnote := hf.note (e := .offered x alive) (halive hx)
    refine ⟨⟨hnote.good, hf.nodup, hf.typed, hf.generated, fun e he => ?_, fun e he => ?_,
      hf.pending⟩, hne⟩
    · rcases List.mem_cons.1 he with rfl | he
      · exact ⟨Function.update_self _ _ _, Function.update_self _ _ _⟩
      · have hlt := hH e he
        obtain ⟨hmark, hreg⟩ := hf.marked e he
        exact ⟨(sameBelow_startBody e.1 hlt).2.trans hmark,
          (sameBelow_startBody e.1 hlt).1.trans hreg⟩
    · rcases List.mem_cons.1 he with rfl | he
      · exact of_decide_eq_true hx
      · exact hf.held e he

/-- One run of the body of a linear iterate. -/
theorem ran_runBody (hbody : BodyRan it E body) (hE : Around it.reg E s)
    (hH : ∀ e ∈ H, e.1 < it.reg) (hused : s.tupleIsUsed x it.reg = false)
    (halive : s.alive x = true → alive = true) :
    Ran it.reg (fun s => Fine H pending s ∧ s.alive x = true) (Holding H pending it.reg x) s
      (runBody C it this true oldIsLinear oldDepth body pending x newDepth alive s).1 := by
  obtain ⟨t, ht⟩ : ∃ t, t = startBody C it this true oldDepth x newDepth alive s := ⟨_, rfl⟩
  have hstart : Ran it.reg (fun s => Fine H pending s ∧ s.alive x = true)
      (Holding H pending it.reg x) s t := ht ▸ ran_startBody hH hused halive
  have hin : Ran it.reg (Fine ((it.reg, x) :: H) pending) (Fine ((it.reg, x) :: H) pending) t
      (body pending x t).1 := by
    refine (hbody _ pending x t (ht ▸ around_startBody hE) fun e he => ?_).mono (Nat.le_succ _)
    rcases List.mem_cons.1 he with rfl | he
    · exact Nat.lt_succ_self _
    · exact (hH e he).trans (Nat.lt_succ_self _)
  have hr : (runBody C it this true oldIsLinear oldDepth body pending x newDepth alive s).1 =
      (body pending x t).1.pop oldIsLinear oldDepth := by
    rw [ht]
    rfl
  rw [hr]
  refine hstart.trans ⟨hin.log, hin.below, fun hc h => ⟨?_, h.2⟩⟩
  exact (hin.fine hc h.1).of_eq rfl rfl rfl rfl rfl

/-- One run of the body of a persistent iterate. -/
theorem ran_runBody_pers (hbody : BodyRan it E body) (hE : Around it.reg E s)
    (hH : ∀ e ∈ H, e.1 < it.reg) :
    Ran it.reg (Fine H pending) (Fine H pending) s
      (runBody C it this false oldIsLinear oldDepth body pending x newDepth true s).1 := by
  obtain ⟨t, ht⟩ : ∃ t, t = startBody C it this false oldDepth x newDepth true s := ⟨_, rfl⟩
  have hstart : Ran it.reg (Fine H pending) (Fine H pending) s t := by
    rw [ht]
    refine ⟨List.prefix_append _ _, sameBelow_startBody, fun _ hf => ?_⟩
    have hnote := hf.note (e := .offered x true) rfl
    refine ⟨hnote.good, hf.nodup, hf.typed, hf.generated, fun e he => ?_, hf.held, hf.pending⟩
    have hlt := hH e he
    obtain ⟨hmark, hreg⟩ := hf.marked e he
    exact ⟨(sameBelow_startBody e.1 hlt).2.trans hmark, (sameBelow_startBody e.1 hlt).1.trans hreg⟩
  have hin : Ran it.reg (Fine H pending) (Fine H pending) t (body pending x t).1 := by
    refine (hbody H pending x t (ht ▸ around_startBody hE) fun e he => ?_).mono (Nat.le_succ _)
    exact (hH e he).trans (Nat.lt_succ_self _)
  have hr : (runBody C it this false oldIsLinear oldDepth body pending x newDepth true s).1 =
      (body pending x t).1.pop oldIsLinear oldDepth := by
    rw [ht]
    rfl
  rw [hr]
  exact (hstart.trans hin).trans (ran_of_eq rfl rfl rfl rfl rfl)

end Body

/-! ## The loops -/

section Loops

variable {it : Iterate σ} {body : IterBody σ}

/-- A tuple of `xs` that is found in a register below is held by an enclosing iterate. -/
def HeldIfUsed (it : Iterate σ) (E : Enclosing) (xs : List TuplePtr) (s : IterState σ) : Prop :=
  ∀ x ∈ xs, s.tupleIsUsed x it.reg = true → E.holds it.reg x = true

theorem HeldIfUsed.of_sameBelow {xs ys : List TuplePtr} (h : HeldIfUsed it E xs s)
    (hs : SameBelow it.reg s s') (hsub : ∀ y ∈ ys, y ∈ xs) : HeldIfUsed it E ys s' := by
  intro y hy hused
  rw [tupleIsUsed_congr hs] at hused
  exact h y (hsub y hy) hused

/-- An iterate that starts clean finds only tuples that enclosing iterates hold. -/
theorem heldIfUsed_of_clean (hE : Around it.reg E s) (hclean : cleanBelow it E s = true) :
    HeldIfUsed it E (s.store it.pred) s := by
  intro x hx hused
  rw [IterState.tupleIsUsed, List.any_eq_true] at hused
  obtain ⟨r, hr, hmark⟩ := hused
  rw [Bool.and_eq_true, decide_eq_true_iff] at hmark
  rw [cleanBelow, List.all_eq_true] at hclean
  have hr' := hclean r hr
  rw [Bool.or_eq_true, Bool.or_eq_true, hmark.1] at hr'
  rcases hr' with (hr' | hr') | hr'
  · cases hr'
  · rw [List.any_eq_true] at hr'
    obtain ⟨e, he, heq⟩ := hr'
    rw [decide_eq_true_iff] at heq
    subst heq
    have hx' : e.2 = x := by
      have hregs := (hE e he).2
      rw [hmark.2, Option.some.injEq] at hregs
      exact hregs.symm
    rw [Enclosing.holds, List.any_eq_true]
    exact ⟨e, he, by simp [(hE e he).1, hx']⟩
  · rw [List.all_eq_true] at hr'
    have hne := hr' x hx
    rw [decide_eq_true_iff] at hne
    exact absurd hmark.2 hne

theorem ran_persLoop (hbody : BodyRan it E body) (oldIsLinear : Bool) (oldDepth : ℕ)
    (xs : List TuplePtr) (hE : Around it.reg E s) (hH : ∀ e ∈ H, e.1 < it.reg) :
    Ran it.reg (Fine H pending) (Fine H pending) s
      (persLoop C it oldIsLinear oldDepth body pending xs s).1 := by
  induction xs generalizing s with
  | nil => exact Ran.refl fun _ h => h
  | cons x xs ih =>
    have hrun : Ran it.reg (Fine H pending) (Fine H pending) s (runBody C it false false oldIsLinear
        oldDepth body pending x (C.minDepth x) true s).1 := ran_runBody_pers hbody hE hH
    rw [persLoop]
    split
    · exact hrun
    · exact hrun.trans (ih (hE.of_sameBelow hrun.below))

theorem ran_listLoop (hbody : BodyRan it E body) (consumes : Bool) (m : MatchObject)
    (oldIsLinear : Bool) (oldDepth : ℕ) (xs : List TuplePtr) (hE : Around it.reg E s)
    (hH : ∀ e ∈ H, e.1 < it.reg) (hused : Careful s → HeldIfUsed it E xs s) :
    Ran it.reg (Fine H pending) (Fine H pending) s
      (listLoop C it consumes E m oldIsLinear oldDepth body pending xs s).1 := by
  induction xs generalizing s with
  | nil => exact Ran.refl fun _ h => h
  | cons x xs ih =>
    have hrest : ∀ t, Ran it.reg (Fine H pending) (Fine H pending) s t →
        Ran it.reg (Fine H pending) (Fine H pending) s
          (listLoop C it consumes E m oldIsLinear oldDepth body pending xs t).1 := by
      intro t ht
      refine ht.trans (ih (hE.of_sameBelow ht.below) fun hc => ?_)
      exact (hused (hc.of_isPrefix ht.log)).of_sameBelow ht.below fun y hy =>
        List.mem_cons_of_mem _ hy
    rw [listLoop]
    by_cases halive : s.alive x = true
    · rw [if_neg (by simp [halive])]
      by_cases hu : s.tupleIsUsed x it.reg = true
      · rw [if_pos hu]
        split
        · refine hrest _ (ran_note fun hc => ?_)
          exact hused (hc.of_isPrefix (List.prefix_append _ _)) x List.mem_cons_self hu
        · exact hrest s (Ran.refl fun _ h => h)
      · rw [if_neg hu]
        split
        · exact hrest s (Ran.refl fun _ h => h)
        · obtain ⟨q, hq⟩ : ∃ q, q = runBody C it consumes true oldIsLinear oldDepth body pending x 0
            true s := ⟨_, rfl⟩
          have hrun : Ran it.reg (fun s => Fine H pending s ∧ s.alive x = true)
              (Holding H pending it.reg x) s q.1 :=
            hq ▸ ran_runBody hbody hE hH (by simpa using hu) fun _ => rfl
          obtain ⟨t, ht⟩ : ∃ t, t = if consumes && q.2.toFinish then
            q.1.finishLinear pending it.reg x else q.1 := ⟨_, rfl⟩
          have hround : Ran it.reg (Fine H pending) (Fine H pending) s t := by
            have hend : Ran it.reg (Holding H pending it.reg x) (Fine H pending) q.1 t := by
              rw [ht]
              split
              · exact ran_finishLinear
              · exact Ran.refl fun _ h => h.fine
            have hboth := hrun.trans hend
            exact ⟨hboth.log, hboth.below, fun hc hf => hboth.fine hc ⟨hf, halive⟩⟩
          dsimp only
          rw [← hq, ← ht]
          split
          · exact hround
          · exact hrest t hround
    · rw [if_pos (by simpa using halive)]
      exact hrest s (Ran.refl fun _ h => h)

theorem ran_orderedLoop (hbody : BodyRan it E body) (consumes : Bool) (oldIsLinear : Bool)
    (oldDepth : ℕ) (xs : List TuplePtr) (hE : Around it.reg E s) (hH : ∀ e ∈ H, e.1 < it.reg)
    (hused : Careful s → HeldIfUsed it E xs s) :
    Ran it.reg (fun s => Fine H (xs ++ pending) s ∧ xs.Nodup) (Fine H pending) s
      (orderedLoop C it consumes E oldIsLinear oldDepth body pending xs s).1 := by
  induction xs generalizing s with
  | nil => exact Ran.refl fun _ h => h.1
  | cons x xs ih =>
    have hweak : ∀ t : IterState σ, Fine H (x :: xs ++ pending) t → Fine H (xs ++ pending) t :=
      fun t hf => hf.weaken fun y hy => List.mem_cons_of_mem _ hy
    have hrest : ∀ t, Ran it.reg (fun s => Fine H (x :: xs ++ pending) s ∧ (x :: xs).Nodup)
        (Fine H (xs ++ pending)) s t →
        Ran it.reg (fun s => Fine H (x :: xs ++ pending) s ∧ (x :: xs).Nodup) (Fine H pending) s
          (orderedLoop C it consumes E oldIsLinear oldDepth body pending xs t).1 := by
      intro t ht
      have hih := ih (hE.of_sameBelow ht.below) fun hc =>
        (hused (hc.of_isPrefix ht.log)).of_sameBelow ht.below fun y hy => List.mem_cons_of_mem _ hy
      refine ⟨ht.log.trans hih.log, ht.below.trans hih.below, fun hc hf =>
        hih.fine hc ⟨?_, hf.2.of_cons⟩⟩
      exact ht.fine (hc.of_isPrefix hih.log) hf
    rw [orderedLoop]
    by_cases hu : s.tupleIsUsed x it.reg = true
    · rw [if_pos hu]
      refine hrest _ ?_
      have hnote : Ran it.reg (Fine H (xs ++ pending)) (Fine H (xs ++ pending)) s
          (s.note (.skipped x (E.holds it.reg x))) := ran_note fun hc =>
        hused (hc.of_isPrefix (List.prefix_append _ _)) x List.mem_cons_self hu
      exact ⟨hnote.log, hnote.below, fun hc hf => hnote.fine hc (hweak s hf.1)⟩
    · rw [if_neg hu]
      obtain ⟨q, hq⟩ : ∃ q, q = runBody C it consumes true oldIsLinear oldDepth body
        (xs ++ pending) x 0 (s.alive x) s := ⟨_, rfl⟩
      have hrun : Ran it.reg (fun s => Fine H (xs ++ pending) s ∧ s.alive x = true)
          (Holding H (xs ++ pending) it.reg x) s q.1 :=
        hq ▸ ran_runBody hbody hE hH (by simpa using hu) fun h => h
      obtain ⟨t, ht⟩ : ∃ t, t = if consumes && q.2.toFinish then q.1.consumeOrdered pending x
        else q.1 := ⟨_, rfl⟩
      have hend : Ran it.reg (fun t => Holding H (xs ++ pending) it.reg x t ∧
          (x ∉ pending → x ∉ xs ++ pending)) (Fine H (xs ++ pending)) q.1 t := by
        rw [ht]
        split
        · exact ran_consumeOrdered
        · exact Ran.refl fun _ h => h.1.fine
      have hround : Ran it.reg (fun s => Fine H (x :: xs ++ pending) s ∧ (x :: xs).Nodup)
          (Fine H (xs ++ pending)) s t := by
        refine ⟨hrun.log.trans hend.log, hrun.below.trans hend.below, fun hc hf =>
          hend.fine hc ⟨?_, fun hout hmem => ?_⟩⟩
        · refine hrun.fine (hc.of_isPrefix hend.log) ⟨hweak s hf.1, ?_⟩
          exact decide_eq_true (hf.1.pending x List.mem_cons_self)
        · rcases List.mem_append.1 hmem with hmem | hmem
          · exact (List.nodup_cons.1 hf.2).1 hmem
          · exact hout hmem
      dsimp only
      rw [← hq, ← ht]
      split
      · refine hround.trans (Ran.refl fun _ hf => hf.weaken fun y hy => ?_)
        exact List.mem_append_right _ hy
      · exact hrest t hround

/-- Tuples that enclosing iterates hold are passed over. -/
theorem ran_noteSkipped (xs : List TuplePtr)
    (hheld : Careful s → ∀ x ∈ xs, E.holds it.reg x = true) :
    Ran it.reg (Fine H pending) (Fine H pending) s (s.noteSkipped it E xs) := by
  induction xs generalizing s with
  | nil => exact Ran.refl fun _ h => h
  | cons x xs ih =>
    have hnote : Ran it.reg (Fine H pending) (Fine H pending) s
        (s.note (.skipped x (E.holds it.reg x))) := ran_note fun hc =>
      hheld (hc.of_isPrefix (List.prefix_append _ _)) x List.mem_cons_self
    refine hnote.trans (ih fun hc y hy => ?_)
    exact hheld (hc.of_isPrefix hnote.log) y (List.mem_cons_of_mem _ hy)

/-- The tuples that an ordered iterate passes over. -/
theorem ran_noteUsed (m : MatchObject)
    (hused : Careful s → HeldIfUsed it E (s.store it.pred) s) :
    Ran it.reg (Fine H pending) (Fine H pending) s (noteUsed it E m s) := by
  refine ran_noteSkipped _ fun hc x hx => ?_
  rw [List.mem_filter, Bool.and_eq_true] at hx
  exact hused hc x hx.1 hx.2.1

/-- A careful look-up passes no tuple over. -/
theorem ran_lookUp (m : MatchObject) (xs : List TuplePtr) :
    Ran it.reg (Fine H pending) (Fine H pending) s (s.lookUp it E m xs) := by
  unfold IterState.lookUp
  obtain ⟨missed, hmissed⟩ : ∃ missed, missed = (s.store it.pred).filter fun x =>
    decide (x ∉ xs) && doMatches m (s.content x) := ⟨_, rfl⟩
  rw [← hmissed]
  have hnote : Ran it.reg (Fine H pending) (Fine H pending) s
      (s.note (.lookedUp missed.isEmpty)) := ran_note fun _ => rfl
  refine hnote.trans (ran_noteSkipped missed fun hc x hx => ?_)
  have hempty : missed.isEmpty = true :=
    hc (.lookedUp missed.isEmpty) (List.mem_append_right _ List.mem_cons_self)
  rw [List.isEmpty_iff.1 hempty] at hx
  cases hx

theorem ran_tableLoop (hbody : BodyRan it E body) (consumes : Bool) (m : MatchObject)
    (oldIsLinear : Bool) (oldDepth : ℕ) (bs : List (List TuplePtr)) (hE : Around it.reg E s)
    (hH : ∀ e ∈ H, e.1 < it.reg) (hused : Careful s → HeldIfUsed it E bs.flatten s) :
    Ran it.reg (Fine H pending) (Fine H pending) s
      (tableLoop C it consumes E m oldIsLinear oldDepth body pending bs s).1 := by
  induction bs generalizing s with
  | nil => exact Ran.refl fun _ h => h
  | cons xs bs ih =>
    have hrest : ∀ t, Ran it.reg (Fine H pending) (Fine H pending) s t →
        Ran it.reg (Fine H pending) (Fine H pending) s
          (tableLoop C it consumes E m oldIsLinear oldDepth body pending bs t).1 := by
      intro t ht
      refine ht.trans (ih (hE.of_sameBelow ht.below) fun hc => ?_)
      refine (hused (hc.of_isPrefix ht.log)).of_sameBelow ht.below fun y hy => ?_
      exact List.mem_append_right _ hy
    obtain ⟨q, hq⟩ : ∃ q, q = listLoop C it consumes E m oldIsLinear oldDepth body pending xs s :=
      ⟨_, rfl⟩
    have hlist : Ran it.reg (Fine H pending) (Fine H pending) s q.1 := by
      rw [hq]
      refine ran_listLoop hbody consumes m oldIsLinear oldDepth xs hE hH fun hc y hy hy' => ?_
      exact hused hc y (List.mem_append_left _ hy) hy'
    rw [tableLoop]
    split
    · exact hrest s (Ran.refl fun _ h => h)
    · dsimp only
      rw [← hq]
      split
      · exact hlist
      · split
        · exact hlist.trans (ran_note fun _ => rfl)
        · exact hrest q.1 hlist

/-! ## Whole iterates -/

theorem careful_enterLinear (h : Careful (s.enterLinear it E)) : cleanBelow it E s = true :=
  h (.entered (cleanBelow it E s)) (List.mem_append_right _ List.mem_cons_self)

theorem heldIfUsed_enterLinear (hE : Around it.reg E s) (h : Careful (s.enterLinear it E)) :
    HeldIfUsed it E (s.store it.pred) (s.enterLinear it E) :=
  heldIfUsed_of_clean hE (careful_enterLinear h)

theorem ran_enterLinear : Ran it.reg (Fine H pending) (Fine H pending) s (s.enterLinear it E) :=
  ran_note fun _ => rfl

/-- The tuples of the bucket list that is looked up are stored. -/
theorem mem_items_of_mem_lookupItems {S : HashTree.Scheme Value} {v : Value}
    {t : HashTree.Tree Value TuplePtr} (hx : x ∈ HashTree.lookupItems S v t) :
    x ∈ HashTree.items S t := by
  unfold HashTree.lookupItems at hx
  cases hfind : HashTree.lookup S v t with
  | none =>
    rw [hfind] at hx
    cases hx
  | some b =>
    rw [hfind] at hx
    have hb := HashTree.mem_walk_of_chainOf (List.mem_of_find?_eq_some hfind)
    exact List.mem_flatMap.2 ⟨b, hb, hx⟩

theorem ran_stored (hbody : BodyRan it E body) (consumes : Bool) (m : MatchObject)
    (hE : Around it.reg E s) (hH : ∀ e ∈ H, e.1 < it.reg) :
    Ran it.reg (Fine H pending) (Fine H pending) s
      (executeStoredIter C it consumes E m body pending s).1 := by
  have henter : Ran it.reg (Fine H pending) (Fine H pending) s (s.enterLinear it E) :=
    ran_enterLinear
  unfold executeStoredIter
  cases hslot : s.slots it.pred with
  | list xs =>
    have hstore : s.store it.pred = xs := congrArg TupleSlot.tuples hslot
    refine henter.trans (ran_listLoop hbody consumes m s.isLinear s.depth _
      (hE.of_sameBelow henter.below) hH fun hc => ?_)
    exact hstore ▸ heldIfUsed_enterLinear hE hc
  | table t =>
    have hstore : s.store it.pred = HashTree.items valueScheme t :=
      congrArg TupleSlot.tuples hslot
    dsimp only
    cases lookupField C it.pred m with
    | some v =>
      have hlook : Ran it.reg (Fine H pending) (Fine H pending) (s.enterLinear it E)
          ((s.enterLinear it E).lookUp it E m (HashTree.lookupItems valueScheme v t)) :=
        ran_lookUp m _
      have hstart := henter.trans hlook
      refine hstart.trans (ran_listLoop hbody consumes m s.isLinear s.depth _
        (hE.of_sameBelow hstart.below) hH fun hc => ?_)
      refine (heldIfUsed_enterLinear hE (hc.of_isPrefix hlook.log)).of_sameBelow hlook.below ?_
      exact fun y hy => hstore ▸ mem_items_of_mem_lookupItems hy
    | none =>
      refine henter.trans (ran_tableLoop hbody consumes m s.isLinear s.depth _
        (hE.of_sameBelow henter.below) hH fun hc => ?_)
      have hflat : ((HashTree.walk valueScheme t).map Prod.snd).flatten = s.store it.pred := by
        rw [hstore, HashTree.items, List.flatMap_def]
      exact hflat ▸ heldIfUsed_enterLinear hE hc

theorem ran_ordered (hbody : BodyRan it E body) (sel : Selector σ) (consumes : Bool)
    (m : MatchObject) (hE : Around it.reg E s) (hH : ∀ e ∈ H, e.1 < it.reg) :
    Ran it.reg (Fine H pending) (Fine H pending) s
      (executeOrderedIter C it sel consumes E m body pending s).1 := by
  have henter : Ran it.reg (Fine H pending) (Fine H pending) s (s.enterLinear it E) :=
    ran_enterLinear
  have hnote : Ran it.reg (Fine H pending) (Fine H pending) (s.enterLinear it E)
      (noteUsed it E m (s.enterLinear it E)) := ran_noteUsed m (heldIfUsed_enterLinear hE)
  have hstart := henter.trans hnote
  obtain ⟨t, ht⟩ : ∃ t, t = noteUsed it E m (s.enterLinear it E) := ⟨_, rfl⟩
  obtain ⟨xs, hxs⟩ : ∃ xs, xs = sel.pick s (candidates it m s) := ⟨_, rfl⟩
  rw [executeOrderedIter, ← ht, ← hxs]
  split
  · exact henter.trans (ran_note fun _ => rfl)
  rw [← ht] at hnote hstart
  have hperm : xs.Perm (candidates it m s) := hxs ▸ sel.perm s _
  have hsub : ∀ x ∈ xs, x ∈ s.store it.pred := fun x hx =>
    List.mem_of_mem_filter (hperm.subset hx)
  have hstore : t.store = s.store := by
    have hfold : ∀ (ys : List TuplePtr) (u : IterState σ),
        (u.noteSkipped it E ys).store = u.store := by
      intro ys
      induction ys with
      | nil => exact fun _ => rfl
      | cons y ys ih => exact fun u => ih _
    rw [ht]
    exact hfold _ _
  have hloop : Ran it.reg (fun s => Fine H (xs ++ pending) s ∧ xs.Nodup) (Fine H pending) t
      (orderedLoop C it consumes E s.isLinear s.depth body pending xs t).1 := by
    refine ran_orderedLoop hbody consumes _ _ xs (hE.of_sameBelow hstart.below) hH fun hc => ?_
    exact (heldIfUsed_enterLinear hE (hc.of_isPrefix hnote.log)).of_sameBelow hnote.below hsub
  refine ⟨hstart.log.trans hloop.log, hstart.below.trans hloop.below, fun hc hf =>
    hloop.fine hc ?_⟩
  have hft : Fine H pending t := hstart.fine (hc.of_isPrefix hloop.log) hf
  refine ⟨⟨hft.good, hft.nodup, hft.typed, hft.generated, hft.marked, hft.held, fun y hy => ?_⟩,
    hperm.nodup_iff.2 ((hf.nodup _).filter _)⟩
  rcases List.mem_append.1 hy with hy | hy
  · rw [hstore, hf.typed _ y (hsub y hy)]
    exact hsub y hy
  · exact hft.pending y hy

theorem ran_executeIter (hbody : BodyRan it E body) (hE : Around it.reg E s)
    (hH : ∀ e ∈ H, e.1 < it.reg) :
    Ran it.reg (Fine H pending) (Fine H pending) s (executeIter C it E body pending s).1 := by
  rw [executeIter]
  split
  · rw [executePersIter]
    split
    · exact ran_note fun _ => rfl
    · have hnote : Ran it.reg (Fine H pending) (Fine H pending) s (s.note (.searched true)) :=
        ran_note fun _ => rfl
      exact hnote.trans (ran_persLoop hbody _ _ _ (hE.of_sameBelow hnote.below) hH)
  · exact ran_stored hbody true _ hE hH
  · exact ran_stored hbody false _ hE hH
  · exact ran_ordered hbody _ true _ hE hH
  · exact ran_ordered hbody _ false _ hE hH

end Loops

/-! ## New tuples -/

theorem TupleSlot.insertAll_perm (key : TuplePtr → Value) (t : HashTree.Tree Value TuplePtr)
    (xs : List TuplePtr) : (HashTree.items valueScheme (TupleSlot.insertAll key t xs)).Perm
      (HashTree.items valueScheme t ++ xs) := by
  induction xs generalizing t with
  | nil => simp [TupleSlot.insertAll]
  | cons x xs ih =>
    refine (ih _).trans (((HashTree.items_insert (key x) x t).append_right xs).trans ?_)
    exact List.perm_middle.symm

/-- A slot gets the tuples that are put in. -/
theorem TupleSlot.add_perm (isHashTable : Bool) (key : TuplePtr → Value) (xs : List TuplePtr)
    (slot : TupleSlot) : (slot.add isHashTable key xs).tuples.Perm (slot.tuples ++ xs) := by
  cases slot with
  | table t => exact insertAll_perm key t xs
  | list ys =>
    rw [TupleSlot.add]
    split
    · refine (insertAll_perm key _ xs).trans (((insertAll_perm key _ ys).append_right xs).trans ?_)
      have hnil : HashTree.items valueScheme (HashTree.empty : HashTree.Tree Value TuplePtr) = [] :=
        List.flatMap_eq_nil_iff.2 fun b hb => by
          obtain ⟨i, -, hb⟩ := HashTree.mem_walk_table.1 hb
          cases hb
      rw [hnil]
      exact List.Perm.refl _
    · exact List.Perm.refl _

/-- New tuples leave everything fine. -/
theorem Fine.addFacts (hf : Fine H pending s) {xs : List TuplePtr} (hnodup : xs.Nodup)
    (hnew : ∀ x ∈ xs, x ∉ s.store x.pred ∧ x ∉ s.generated) :
    Fine H pending (s.addFacts C xs) := by
  have hstore : ∀ p, ((s.addFacts C xs).store p).Perm
      (s.store p ++ xs.filter fun x => decide (x.pred = p)) := fun p =>
    TupleSlot.add_perm _ _ _ _
  have hold : ∀ y, y ∈ s.store y.pred → y ∈ (s.addFacts C xs).store y.pred := fun y hy =>
    (hstore y.pred).mem_iff.2 (List.mem_append_left _ hy)
  refine ⟨hf.good, fun p => ?_, fun p x hx => ?_, ⟨hf.generated.1, fun x hx hmem => ?_⟩, hf.marked,
    fun e he => hold _ (hf.held e he), fun y hy => hold y (hf.pending y hy)⟩
  · rw [(hstore p).nodup_iff, List.nodup_append]
    refine ⟨hf.nodup p, hnodup.filter _, fun y hy z hz => ?_⟩
    rw [List.mem_filter, decide_eq_true_iff] at hz
    rintro rfl
    exact (hnew y hz.1).1 (hz.2 ▸ hy)
  · rw [(hstore p).mem_iff, List.mem_append, List.mem_filter, decide_eq_true_iff] at hx
    rcases hx with hx | hx
    · exact hf.typed p x hx
    · exact hx.2
  · rw [(hstore x.pred).mem_iff, List.mem_append] at hmem
    rcases hmem with hmem | hmem
    · exact hf.generated.2 x hx hmem
    · exact (hnew x (List.mem_of_mem_filter hmem)).2 hx

/-- **Code whose registers increase inwards leaves everything fine**, as long as its events are
careful.  The induction is on the code. -/
theorem exec_ran (code : IterCode σ) (hcode : code.Increasing lo) (hE : Around lo E s)
    (hH : ∀ e ∈ H, e.1 < lo) :
    Ran lo (Fine H pending) (Fine H pending) s (code.exec C E pending s).1 := by
  induction code generalizing lo E H pending s with
  | ret r => exact Ran.refl fun _ h => h
  | leaf f =>
    have hnote : ∀ ret, Ran lo (Fine H pending) (Fine H pending) s
        (s.note (.ran (E.map Prod.snd) ret)) := fun ret => ran_note fun _ => rfl
    rw [IterCode.exec]
    exact (hnote _).trans (ran_of_eq rfl rfl rfl rfl rfl)
  | test f yes no ihyes ihno =>
    rw [IterCode.exec]
    split
    · have hset : Ran lo (Fine H pending) (Fine H pending) s
          { s with env := (f s.env (E.map fun e => s.content e.2)).1 } :=
        ran_of_eq rfl rfl rfl rfl rfl
      exact hset.trans (ihyes hcode.1 hE hH)
    · have hset : Ran lo (Fine H pending) (Fine H pending) s
          { s with env := (f s.env (E.map fun e => s.content e.2)).1 } :=
        ran_of_eq rfl rfl rfl rfl rfl
      exact hset.trans (ihno hcode.2 hE hH)
  | update reg f next ih =>
    rw [IterCode.exec]
    split
    · exact ih hcode hE hH
    · rename_i x _
      obtain ⟨t, ht⟩ : ∃ t : IterState σ, t = { s with
        content := Function.update s.content x (f s.env (s.content x))
        updatedMap := Function.update s.updatedMap reg true } := ⟨_, rfl⟩
      have hset : Ran lo (Fine H pending) (Fine H pending) s t := by
        rw [ht]
        exact ran_of_eq rfl rfl rfl rfl rfl
      rw [← ht]
      exact hset.trans (ih hcode (hE.of_sameBelow hset.below) hH)
  | add f next ih =>
    rw [IterCode.exec]
    dsimp only
    split
    · exact ih hcode hE hH
    · rename_i hfree
      rw [not_or] at hfree
      obtain ⟨x, hx⟩ : ∃ x, x = (f s.env (E.map fun e => s.content e.2)).1 := ⟨_, rfl⟩
      obtain ⟨tpl, htpl⟩ : ∃ tpl, tpl = (f s.env (E.map fun e => s.content e.2)).2 := ⟨_, rfl⟩
      rw [← hx] at hfree
      rw [← hx, ← htpl]
      obtain ⟨t, ht⟩ : ∃ t : IterState σ, t = { s.note (.added x (E.any fun e =>
        decide (e.2.pred = x.pred))) with content := Function.update s.content x tpl } := ⟨_, rfl⟩
      have hnote : Ran lo (Fine H pending) (fun u => Fine H pending u ∧
          ∀ y ∈ [x], y ∉ t.store y.pred ∧ y ∉ t.generated) s t := by
        refine ⟨ht ▸ List.prefix_append _ _, fun _ _ => ht ▸ ⟨rfl, rfl⟩, fun hc hf => ⟨?_, ?_⟩⟩
        · rw [ht]
          exact (hf.note rfl).of_eq rfl rfl rfl rfl rfl
        · intro y hy
          rw [List.mem_singleton.1 hy, ht]
          exact hfree
      have hadd : Ran lo (Fine H pending) (Fine H pending) s (t.addFacts C [x]) :=
        ⟨hnote.log, hnote.below, fun hc hf => by
          obtain ⟨hft, hnew⟩ := hnote.fine hc hf
          exact hft.addFacts (List.nodup_singleton x) hnew⟩
      rw [ht] at hadd
      exact hadd.trans (ih hcode (hE.of_sameBelow hadd.below) hH)
  | iter it body next ihbody ihnext =>
    obtain ⟨hlo, hbody, hnext⟩ := hcode
    have hran : BodyRan it E fun pending x s => body.exec C (E ++ [(it.reg, x)]) pending s :=
      fun H pending x s hE hH => ihbody hbody hE hH
    obtain ⟨q, hq⟩ : ∃ q, q = executeIter C it E (fun pending x s =>
      body.exec C (E ++ [(it.reg, x)]) pending s) pending s := ⟨_, rfl⟩
    have hiter : Ran lo (Fine H pending) (Fine H pending) s q.1 := by
      rw [hq]
      refine (ran_executeIter hran (fun e he => ?_) fun e he => ?_).mono hlo
      · exact ⟨(hE e he).1.trans_le hlo, (hE e he).2⟩
      · exact (hH e he).trans_le hlo
    rw [IterCode.exec]
    rw [← hq]
    split
    · exact hiter
    · split
      · exact hiter
      · exact hiter.trans (ihnext hnext (hE.of_sameBelow hiter.below) hH)

/-! ## One `run_node` -/

/-- One rule: `setup`, `execute_rule`, and the generated facts go to their slots. -/
def IterState.runRule (C : IterContext) (code : IterCode σ) (s : IterState σ) : IterState σ :=
  let s := (code.exec C [] [] { s with isLinear := false, depth := 0 }).1
  { s.addFacts C s.generated with generated := [] }

/-- The code of a persistent tuple: `setup` and `execute_process`, with the tuple in register 0. -/
def IterState.runProcess (C : IterContext) (code : IterCode σ) (x : TuplePtr) (depth : ℕ)
    (s : IterState σ) : IterState σ :=
  let s : IterState σ := { s with isLinear := false, depth := depth }
  let s := (code.exec C [(0, x)] [] (s.setTuple 0 x false)).1
  { s.addFacts C s.generated with generated := [] }

/-- **The states of one `run_node`**, from the cleared bitmap on: rules are run, persistent tuples
are processed, new facts arrive, and `cleanup_index` makes some hash tables lists again.  A new
tuple may get the address of a destroyed one. -/
inductive RunNode (C : IterContext) : IterState σ → Prop where
  | start (s : IterState σ) (hlog : s.log = []) (hregs : ∀ r, s.tupleRegs r = false)
      (hgenerated : s.generated = []) (hnodup : ∀ p, (s.store p).Nodup)
      (htyped : ∀ p, ∀ x ∈ s.store p, x.pred = p) : RunNode C s
  | rule {s : IterState σ} (hs : RunNode C s) (code : IterCode σ) (hcode : code.Increasing 0) :
      RunNode C (s.runRule C code)
  | process {s : IterState σ} (hs : RunNode C s) (code : IterCode σ) (hcode : code.Increasing 1)
      (x : TuplePtr) (depth : ℕ) : RunNode C (s.runProcess C code x depth)
  | facts {s : IterState σ} (hs : RunNode C s) (xs : List TuplePtr) (hnodup : xs.Nodup)
      (hnew : ∀ x ∈ xs, x ∉ s.store x.pred) (content : TuplePtr → Tuple) (e : σ) :
      RunNode C (({ s with content := content, env := e } : IterState σ).addFacts C xs)
  | cleanup {s : IterState σ} (hs : RunNode C s) (sparse : ℕ → Bool) :
      RunNode C { s with slots := fun p => if sparse p then .list (s.store p) else s.slots p }

/-- What one run of code inside `run_node` leaves, with the generated facts in their slots. -/
theorem Fine.exec (hf : Fine [] [] s) {code : IterCode σ} (hcode : code.Increasing lo)
    (hE : Around lo E s) (hc : Careful (code.exec C E [] s).1) :
    Fine [] [] { (code.exec C E [] s).1.addFacts C (code.exec C E [] s).1.generated with
      generated := [] } := by
  have hran : Ran lo (Fine [] []) (Fine [] []) s (code.exec C E [] s).1 :=
    exec_ran code hcode hE (by simp)
  obtain ⟨t, ht⟩ : ∃ t, t = (code.exec C E [] s).1 := ⟨_, rfl⟩
  have hend : Fine [] [] t := ht ▸ hran.fine hc hf
  have hcleared : Fine [] [] ({ t with generated := [] } : IterState σ) :=
    ⟨hend.good, hend.nodup, hend.typed, by simp, hend.marked, hend.held, hend.pending⟩
  rw [← ht]
  exact hcleared.addFacts hend.generated.1 fun x hx => ⟨hend.generated.2 x hx, by simp⟩

/-- Between rules there are no generated facts. -/
theorem runNode_generated (h : RunNode C s) : s.generated = [] := by
  induction h with
  | start s _ _ hgenerated _ _ => exact hgenerated
  | rule _ _ _ _ => rfl
  | process _ _ _ _ _ _ => rfl
  | facts _ _ _ _ _ _ ih => exact ih
  | cleanup _ _ ih => exact ih

/-- Everything is fine between the rules of a `run_node` whose events are careful. -/
theorem runNode_fine (h : RunNode C s) (hc : Careful s) : Fine [] [] s := by
  induction h with
  | start s hlog _ hgenerated hnodup htyped =>
    refine ⟨by simp [hlog], hnodup, htyped, by simp [hgenerated], by simp, by simp, by simp⟩
  | @rule s _ code hcode ih =>
    obtain ⟨t, ht⟩ : ∃ t : IterState σ, t = { s with isLinear := false, depth := 0 } := ⟨_, rfl⟩
    have hran : Ran 0 (Fine [] []) (Fine [] []) t (code.exec C [] [] t).1 :=
      exec_ran code hcode (by simp [Around]) (by simp)
    have hexec : Careful (code.exec C [] [] t).1 := ht ▸ hc
    have hs : Careful s := fun e he => hexec e (hran.log.subset (ht ▸ he))
    have hft : Fine [] [] t := ht ▸ (ih hs).of_eq rfl rfl rfl rfl rfl
    rw [IterState.runRule, ← ht]
    exact hft.exec hcode (by simp [Around]) hexec
  | @process s _ code hcode x depth ih =>
    obtain ⟨t, ht⟩ : ∃ t : IterState σ, t = IterState.setTuple
      ({ s with isLinear := false, depth := depth } : IterState σ) 0 x false := ⟨_, rfl⟩
    have hE : Around 1 [(0, x)] t := by
      intro e he
      rw [List.mem_singleton] at he
      subst he
      have hregs : t.regs = Function.update s.regs 0 (some x) := by
        rw [ht]
        rfl
      rw [hregs]
      exact ⟨Nat.one_pos, Function.update_self _ _ _⟩
    have hran : Ran 1 (Fine [] []) (Fine [] []) t (code.exec C [(0, x)] [] t).1 :=
      exec_ran code hcode hE (by simp)
    have hexec : Careful (code.exec C [(0, x)] [] t).1 := ht ▸ hc
    have hs : Careful s := fun e he => hexec e (hran.log.subset (ht ▸ he))
    have hfs := ih hs
    have hft : Fine [] [] t := by
      rw [ht]
      exact ⟨hfs.good, hfs.nodup, hfs.typed, hfs.generated, by simp, by simp, by simp⟩
    rw [IterState.runProcess, ← ht]
    exact hft.exec hcode hE hexec
  | @facts s hs xs hnodup hnew content e ih =>
    have hgen : s.generated = [] := runNode_generated hs
    have hset : Fine [] [] ({ s with content := content, env := e } : IterState σ) :=
      (ih hc).of_eq rfl rfl rfl rfl rfl
    refine hset.addFacts hnodup fun x hx => ⟨hnew x hx, ?_⟩
    show x ∉ s.generated
    simp [hgen]
  | @cleanup s hs sparse ih =>
    have hfs := ih hc
    have hstore : ∀ p, IterState.store { s with
        slots := fun p => if sparse p then .list (s.store p) else s.slots p } p = s.store p := by
      intro p
      rw [IterState.store]
      dsimp only
      split <;> rfl
    refine ⟨hfs.good, fun p => ?_, fun p => ?_, ⟨hfs.generated.1, ?_⟩, hfs.marked, by simp,
      by simp⟩
    · rw [hstore]
      exact hfs.nodup p
    · rw [hstore]
      exact hfs.typed p
    · simp only [hstore]
      exact hfs.generated.2

/-- No persistent tuples, and no cycles. -/
def noSearch : IterContext :=
  ⟨fun _ _ => some [], fun _ => 0, fun _ => false, fun _ => false, fun _ => 0⟩

/-- The selector that takes the candidates as they are. -/
def inOrder : Selector Unit := ⟨fun _ xs => xs, fun _ xs => List.Perm.refl xs⟩

/-- An iterate over predicate 0 that matches every tuple. -/
def overAll (kind : IterKind Unit) (reg : ℕ) : Iterate Unit :=
  ⟨kind, 0, reg, fun _ _ => ⟨false, []⟩⟩

/-- Two tuples of predicate 0, before any rule has run. -/
def twoTuples : IterState Unit where
  isLinear := false
  depth := 0
  regs := fun _ => none
  tupleRegs := fun _ => false
  updatedMap := fun _ => false
  slots := fun p => .list (if p = 0 then [⟨0, 0⟩, ⟨0, 1⟩] else [])
  generated := []
  content := fun _ => []
  env := ()
  log := []

/-- A rule that consumes two tuples of the predicate, the first one with the iterate `kind`. -/
def consumeTwo (kind : IterKind Unit) : IterCode Unit :=
  .iter (overAll kind 0)
    (.iter (overAll .linear 1) (.leaf fun e _ => (e, .derived)) (.ret .next)) (.ret .ok)

theorem runNode_consumeTwo (kind : IterKind Unit) :
    RunNode noSearch (twoTuples.runRule noSearch (consumeTwo kind)) := by
  refine .rule (.start _ rfl (fun _ => rfl) rfl (fun p => ?_) fun p x hx => ?_) _ ?_
  · show (if p = 0 then [(⟨0, 0⟩ : TuplePtr), ⟨0, 1⟩] else []).Nodup
    split
    · decide
    · exact List.nodup_nil
  · have hx' : x ∈ if p = 0 then [(⟨0, 0⟩ : TuplePtr), ⟨0, 1⟩] else [] := hx
    split at hx'
    · rename_i hp
      simp only [List.mem_cons, List.not_mem_nil, or_false] at hx'
      rcases hx' with rfl | rfl
      · exact hp.symm
      · exact hp.symm
    · simp at hx'
  · exact ⟨Nat.zero_le _, ⟨le_refl _, trivial, trivial⟩, trivial⟩

end Meld
