import Meld.Thread.IdsCalls

/-!
# Sequences of calls

`free_destroyed_nodes` walks through the allocated nodes and unlinks those without a creator.  The
walk is followed round by round, and then the calls one after the other.

* `Sized.sweep`, `Sized.sweep_clean`: the loop ends, and leaves no node without a creator.
* `Resting.call_isSome`: every call returns.
* `Resting.call`: what one call keeps.
* `always_resting`: the lists and the totals are always right.
* `ids_kept_iff`: when everything is.
-/

namespace Meld

open Linked NodeMem Owned

namespace IdsState

/-! ## The sweep -/

section Sweep

variable {τ : Type*} [DecidableEq τ] {s s' : IdsState τ} {al fl : τ → List ℕ} {t : τ} {i : Ids}
  {n : ℕ} {c : DynNode τ} {xs ys : List ℕ} {fuel : ℕ}

omit [DecidableEq τ] in
theorem idle_ne_freeing {p : ℕ} : (.idle : IdsPc τ) ≠ .freeing p := by
  intro h
  cases h

/-- A round of the loop. -/
theorem sweep_succ (ht : s.ids t = some i) {p : ℕ} (hpc : s.pc t = .freeing p) (fuel : ℕ) :
    sweep t (fuel + 1) s = (s.freeRound t i p).bind (sweep t fuel) := by
  rw [sweep, hpc]
  simp only [step, ht, hpc]

/-- The end of the loop. -/
theorem sweep_end (ht : s.ids t = some i) (hpc : s.pc t = .freeing 0) (hfuel : 2 ≤ fuel) :
    sweep t fuel s = some { s with pc := Function.update s.pc t .creating } := by
  obtain ⟨fuel, rfl⟩ := Nat.exists_eq_add_of_le' hfuel
  rw [sweep_succ ht hpc, freeRound, if_pos rfl, put_eq ht, Option.bind_some, sweep]
  simp only [Function.update_self]

omit [DecidableEq τ] in
/-- The node that follows an allocated one. -/
theorem Sized.dynNext (h : s.Sized al fl) (ht : s.ids t = some i) (hal : al t = xs ++ n :: ys)
    (hc : s.mem n = some c) : c.dynNext = ys.headD 0 := by
  have hseg := (h.lists.owned t i ht).seg
  rw [hal] at hseg
  have hlink := (seg_append.mp hseg).2.1
  rw [links, hc, Option.map_some, Option.some_inj] at hlink
  exact (Prod.mk.inj hlink).2

omit [DecidableEq τ] in
/-- The nodes of the lists are in memory. -/
theorem Sized.exists_node (h : s.Sized al fl) (ht : s.ids t = some i) (hn : n ∈ al t) :
    n ≠ 0 ∧ ∃ c, s.mem n = some c := by
  have howned := h.lists.owned t i ht
  refine ⟨ne_of_mem_of_not_mem hn (howned.zero_notMem h.lists.null), ?_⟩
  exact Option.ne_none_iff_exists'.1 fun hnone =>
    howned.notMem_of_none hnone (List.mem_append_left _ hn)

omit [DecidableEq τ] in
theorem headD_eq_or_mem (hal : al t = xs ++ n :: ys) : ys.headD 0 = 0 ∨ ys.headD 0 ∈ al t := by
  by_cases hys : ys = []
  · subst hys
    exact Or.inl rfl
  · rw [hal]
    exact Or.inr (List.mem_append_right _ (List.mem_cons_of_mem _ (headD_mem hys)))

/-- The loop goes past a node that is in use. -/
theorem sweep_pass (ht : s.ids t = some i) (hpc : s.pc t = .freeing n) (hn : n ≠ 0)
    (hc : s.mem n = some c) (hsome : ¬ c.creator.isNone = true) (fuel : ℕ) :
    sweep t (fuel + 1) s =
      sweep t fuel { s with pc := Function.update s.pc t (.freeing c.dynNext) } := by
  rw [sweep_succ ht hpc, freeRound, if_neg hn, hc, Option.bind_some, if_neg hsome,
    Option.bind_some, put_eq ht]

theorem Sized.pass (h : s.Sized al fl) (ht : s.ids t = some i) (hal : al t = xs ++ n :: ys)
    (hc : s.mem n = some c) :
    Sized { s with pc := Function.update s.pc t (.freeing c.dynNext) } al fl := by
  refine h.setPc fun u p hp => ?_
  by_cases hu : u = t
  · subst hu
    rw [Function.update_self] at hp
    rw [← IdsPc.freeing.inj hp, h.dynNext ht hal hc]
    exact Or.inr (headD_eq_or_mem hal)
  · rw [Function.update_of_ne hu] at hp
    exact Or.inl hp

/-- It unlinks a node without a creator. -/
theorem sweep_unlink (ht : s.ids t = some i) (hpc : s.pc t = .freeing n) (hn : n ≠ 0)
    (hc : s.mem n = some c) (hnone : c.creator.isNone = true)
    (hvalid : s.mem.Valid (i.neighbours c)) (fuel : ℕ) :
    sweep t (fuel + 1) s = sweep t fuel (s.put t (i.removeNodeFromAllocated s.mem n c).1
      (i.removeNodeFromAllocated s.mem n c).2.1
      (.freeing (i.removeNodeFromAllocated s.mem n c).2.2)) := by
  rw [sweep_succ ht hpc, freeRound, if_neg hn, hc, Option.bind_some, if_pos hnone]
  dsimp only
  rw [if_pos hvalid, Option.bind_some]

theorem Sized.unlink (h : s.Sized al fl) (ht : s.ids t = some i) (hal : al t = xs ++ n :: ys)
    (hc : s.mem n = some c) (hnone : c.creator.isNone = true)
    (hxs : xs.countP (orphan s.mem) = 0) {r : Ids × (ℕ → Option (DynNode τ)) × ℕ}
    (hr : i.removeNodeFromAllocated s.mem n c = r) :
    (∃ al' fl', Sized (s.put t r.1 r.2.1 (.freeing r.2.2)) al' fl' ∧ al' t = xs ++ ys) ∧
      r.1.deletedByOthers = i.deletedByOthers ∧ r.2.2 = ys.headD 0 ∧
      xs.countP (orphan r.2.1) = 0 ∧ ∀ a, s.mem a = none → r.2.1 a = none := by
  have hn : n ∈ al t := hal ▸ List.mem_append_right xs List.mem_cons_self
  have hnodup := (h.lists.owned t i ht).nodup.of_append_left
  rw [hal] at hnodup
  have hnxs : n ∉ xs := fun hmem =>
    (List.nodup_append'.mp hnodup).2.2 hmem List.mem_cons_self
  have hlive : ∀ a ∈ s.live, a ∈ s.live ∧ a ≠ n := by
    refine fun a ha => ⟨ha, ?_⟩
    rintro rfl
    obtain ⟨u, c', -, hc', hcr⟩ := h.lists.live a ha
    rw [hc, Option.some_inj] at hc'
    rw [hc', hcr] at hnone
    exact absurd hnone Bool.false_ne_true
  subst hr
  refine ⟨⟨_, _, h.remove ht hn hc rfl hlive h.lists.nodup fun p hp => (IdsPc.freeing.inj hp).symm,
    ?_⟩, (totals_remove rfl []).2.2, ?_, ?_, fun a ha => ?_⟩
  · rw [Function.update_self, hal, List.erase_append_right _ hnxs, List.erase_cons_head]
  · rw [← h.dynNext ht hal hc, Ids.removeNodeFromAllocated]
    split <;> rfl
  · rw [← hxs]
    exact countP_orphan fun a ha => Ids.core_remove (ne_of_mem_of_not_mem ha hnxs)
  · have han : a ≠ n := by
      rintro rfl
      cases ha.symm.trans hc
    have hcore : ((i.removeNodeFromAllocated s.mem n c).2.1 a).map core = (s.mem a).map core :=
      Ids.core_remove han
    rw [ha, Option.map_none, Option.map_eq_none_iff] at hcore
    exact hcore

/-- **The loop ends**, and no node without a creator is left. -/
theorem Sized.sweep (h : s.Sized al fl) (ht : s.ids t = some i) (hal : al t = xs ++ ys)
    (hpc : s.pc t = .freeing (ys.headD 0)) (hxs : xs.countP (orphan s.mem) = 0)
    (hfuel : ys.length + 2 ≤ fuel) :
    ∃ s' i' al' fl', IdsState.sweep t fuel s = some s' ∧ s'.Sized al' fl' ∧
      s'.ids t = some i' ∧ s'.pc = Function.update s.pc t .creating ∧
      i'.deletedByOthers = i.deletedByOthers ∧ (al' t).countP (orphan s'.mem) = 0 ∧
      ∀ a, s.mem a = none → s'.mem a = none := by
  induction ys generalizing s i al fl xs fuel with
  | nil =>
    refine ⟨_, i, al, fl, sweep_end ht hpc (by simpa using hfuel), h.setPc fun u p hp => ?_, ht, rfl,
      rfl, ?_, fun _ ha => ha⟩
    · by_cases hu : u = t
      · subst hu
        rw [Function.update_self] at hp
        cases hp
      · rw [Function.update_of_ne hu] at hp
        exact Or.inl hp
    · rw [hal, List.append_nil]
      exact hxs
  | cons n ys ih =>
    obtain ⟨fuel, rfl⟩ : ∃ k, fuel = k + 1 := ⟨fuel - 1, by rw [List.length_cons] at hfuel; omega⟩
    have hn : n ∈ al t := hal ▸ List.mem_append_right xs List.mem_cons_self
    obtain ⟨hn0, c, hc⟩ := h.exists_node ht hn
    have hfuel' : ys.length + 2 ≤ fuel := by rw [List.length_cons] at hfuel; omega
    by_cases hnone : c.creator.isNone = true
    · -- the node is unlinked
      obtain ⟨⟨al₁, fl₁, hone, herase⟩, hdel₁, hnext, hcount, hkeeps⟩ :=
        h.unlink ht hal hc hnone hxs rfl
      obtain ⟨s', i', al', fl', hs', hsized, hids, hpc', hdel, horphan, hmem⟩ :=
        ih hone (Function.update_self _ _ _) herase
          ((Function.update_self _ _ _).trans (congrArg _ hnext)) hcount hfuel'
      have hvalid := (h.lists.owned t i ht).valid_neighbours h.lists.null hn hc
      exact ⟨s', i', al', fl', (sweep_unlink ht hpc hn0 hc hnone hvalid fuel).trans hs', hsized, hids,
        hpc'.trans (Function.update_idem _ _ _), hdel.trans hdel₁, horphan,
        fun a ha => hmem a (hkeeps a ha)⟩
    · -- the node is still in use
      have hcount : (xs ++ [n]).countP (orphan s.mem) = 0 := by
        have hneg : ¬ orphan s.mem n = true := by
          rw [orphan, hc]
          exact hnone
        rw [List.countP_append, hxs, List.countP_singleton, if_neg hneg]
      obtain ⟨s', i', al', fl', hs', hsized, hids, hpc', hdel, horphan, hmem⟩ :=
        ih (h.pass ht hal hc) ht (hal.trans (List.append_cons xs n ys))
          ((Function.update_self _ _ _).trans (congrArg _ (h.dynNext ht hal hc))) hcount hfuel'
      exact ⟨s', i', al', fl', (sweep_pass ht hpc hn0 hc hnone fuel).trans hs', hsized, hids,
        hpc'.trans (Function.update_idem _ _ _), hdel, horphan, hmem⟩

/-- **Nothing to sweep**: the loop walks through the list. -/
theorem Sized.sweep_clean (h : s.Sized al fl) (ht : s.ids t = some i) (hal : al t = xs ++ ys)
    (hpc : s.pc t = .freeing (ys.headD 0)) (hys : ys.countP (orphan s.mem) = 0)
    (hfuel : ys.length + 2 ≤ fuel) :
    IdsState.sweep t fuel s = some { s with pc := Function.update s.pc t .creating } := by
  induction ys generalizing s xs fuel with
  | nil => exact sweep_end ht hpc (by simpa using hfuel)
  | cons n ys ih =>
    obtain ⟨fuel, rfl⟩ : ∃ k, fuel = k + 1 := ⟨fuel - 1, by rw [List.length_cons] at hfuel; omega⟩
    have hn : n ∈ al t := hal ▸ List.mem_append_right xs List.mem_cons_self
    obtain ⟨hn0, c, hc⟩ := h.exists_node ht hn
    obtain ⟨hneg, hys⟩ : ¬ orphan s.mem n = true ∧ ys.countP (orphan s.mem) = 0 := by
      rw [List.countP_eq_zero] at hys ⊢
      exact ⟨hys n List.mem_cons_self, fun a ha => hys a (List.mem_cons_of_mem n ha)⟩
    rw [orphan, hc] at hneg
    rw [sweep_pass ht hpc hn0 hc hneg,
      ih (h.pass ht hal hc) ht (hal.trans (List.append_cons xs n ys))
        ((Function.update_self _ _ _).trans (congrArg _ (h.dynNext ht hal hc))) hys
        (by rw [List.length_cons] at hfuel; omega)]
    simp only [Function.update_idem]

end Sweep

/-! ## Calls -/

section Calls

variable {τ : Type*} {s s' : IdsState τ} {al fl al' fl' : τ → List ℕ} {t : τ} {i : Ids} {n : ℕ}

/-- The lists of all threads are determined by the pointers. -/
theorem Sized.unique (h : s.Sized al fl) (h' : s.Sized al' fl') : al = al' ∧ fl = fl' := by
  have hboth : ∀ u, al u = al' u ∧ fl u = fl' u := by
    intro u
    cases hu : s.ids u with
    | none =>
      obtain ⟨hal, hfl⟩ := h.lists.off u hu
      obtain ⟨hal', hfl'⟩ := h'.lists.off u hu
      exact ⟨hal.trans hal'.symm, hfl.trans hfl'.symm⟩
    | some j =>
      exact (h.lists.owned u j hu).unique (h'.lists.owned u j hu) h.lists.null
  exact ⟨funext fun u => (hboth u).1, funext fun u => (hboth u).2⟩

theorem Sized.kept_iff (h : s.Sized al fl) : s.Kept ↔ s.KeptLists al fl := by
  constructor
  · rintro ⟨al', fl', hk⟩
    obtain ⟨rfl, rfl⟩ := h.unique hk.toSized
    exact hk
  · exact fun hk => ⟨al, fl, hk⟩

variable [DecidableEq τ]

/-- Between two calls: the lists with their totals, and no thread inside of a function. -/
structure Resting (s : IdsState τ) : Prop where
  sized : ∃ al fl, s.Sized al fl
  idle : ∀ t, s.pc t = .idle

/-- What the end of `create_node` leaves: a node came to the allocated ones, from the freed ones if
there were any. -/
structure Finished (s s' : IdsState τ) (al fl : τ → List ℕ) (t : τ) (i : Ids) : Prop where
  resting : ∀ u, u ≠ t → s'.pc u = s.pc u
  idle : s'.pc t = .idle
  inserted : ∃ s₃ n fl' i₃ i', s₃.mem = s.mem ∧ s₃.ids t = some i₃ ∧ s'.ids t = some i' ∧
    i'.deletedByOthers = i.deletedByOthers ∧ (s.KeptLists al fl → s₃.KeptLists al fl) ∧
    Inserted s₃ s' al fl t n fl' ∧ (fl t = [] ∧ fl' = [] ∨ fl t = n :: fl')

/-- An object that differs in the block of identifiers. -/
def Renumbered (i i' : Ids) : Prop :=
  i'.allocatedNodes = i.allocatedNodes ∧ i'.freedNodes = i.freedNodes ∧
    i'.totalAllocated = i.totalAllocated ∧ i'.totalFreed = i.totalFreed ∧
    i'.deletedByOthers = i.deletedByOthers

/-- The identifiers of an object change. -/
theorem Sized.renumber (h : s.Sized al fl) (ht : s.ids t = some i) {i' : Ids}
    (hi' : Renumbered i i') (db : NodeDatabase) :
    Sized { s.put t i' s.mem .fresh with db := db } al fl ∧
      (s.KeptLists al fl → KeptLists { s.put t i' s.mem .fresh with db := db } al fl) := by
  obtain ⟨halloc, hfreed, htotal, htotalFreed, hdeleted⟩ := hi'
  have hsized : Sized { s.put t i' s.mem .fresh with db := db } al fl :=
    ⟨h.lists.update_pc ht rfl rfl rfl rfl halloc hfreed nofun,
      forall_ids (htotal.trans (h.totalAllocated t i ht)) fun u j _ hj => h.totalAllocated u j hj,
      forall_ids (htotalFreed.trans (h.totalFreed t i ht)) fun u j _ hj => h.totalFreed u j hj⟩
  refine ⟨hsized, fun hk => ⟨hsized, ?_, ?_, ?_⟩⟩
  · exact forall_ids (hk.freed t i ht) fun u j _ hj => hk.freed u j hj
  · exact forall_ids (hk.unused t i ht) fun u j _ hj => hk.unused u j hj
  · exact forall_ids (hdeleted.trans (hk.deletedByOthers t i ht)) fun u j _ hj =>
      hk.deletedByOthers u j hj

/-- **The end of `create_node`** returns if the allocator has an address for a new node. -/
theorem Sized.finishCreate (h : s.Sized al fl) (ht : s.ids t = some i)
    (hpc : s.pc t = .creating) :
    (n ≠ 0 → s.mem n = none → (s.finishCreate t n).isSome) ∧
      ∀ s', s.finishCreate t n = some s' → Finished s s' al fl t i := by
  have hnext : s.step (.next t) = s.createRound t i := by simp only [step, ht, hpc]
  by_cases hfree : i.freedNodes = 0
  · -- a new node, perhaps with a new block of identifiers
    have hempty : fl t = [] := by
      have hfreed := (h.lists.owned t i ht).freed
      rw [hfree] at hfreed
      have hnil : s.mem.Freed 0 [] := rfl
      exact hfreed.unique hnil
    obtain ⟨i₃, db, hround, hi₃⟩ : ∃ i₃ db, s.createRound t i =
        some { s.put t i₃ s.mem .fresh with db := db } ∧ Renumbered i i₃ := by
      rw [createRound, if_neg (not_not.2 hfree)]
      split
      · exact ⟨_, _, rfl, rfl, rfl, rfl, rfl, rfl⟩
      · exact ⟨i, s.db, rfl, rfl, rfl, rfl, rfl, rfl⟩
    obtain ⟨hsized₃, hkept₃⟩ := h.renumber ht hi₃ db
    have hlast : s.finishCreate t n =
        IdsState.step { s.put t i₃ s.mem .fresh with db := db } (.fresh t n) := by
      rw [IdsState.finishCreate, hnext, hround, Option.bind_some]
      simp only [put, Function.update_self]
    have hids₃ : (s.put t i₃ s.mem .fresh).ids t = some i₃ := Function.update_self _ _ _
    have hpc₃ : (s.put t i₃ s.mem .fresh).pc t = .fresh := Function.update_self _ _ _
    constructor
    · intro hn0 hn
      rw [hlast, step, hids₃, hpc₃, show (s.put t i₃ s.mem .fresh).mem n = none from hn]
      simp only [if_neg hn0, if_pos (hsized₃.lists.owned t i₃ hids₃).valid_allocatedNodes,
        Option.isSome_some]
    · intro s' hs'
      rw [hlast, step, hids₃, hpc₃] at hs'
      split at hs'
      · next _ _ _ hi _ hmem =>
        obtain rfl := Option.some.inj hi
        split at hs'
        · cases hs'
        · next hn0 =>
          obtain rfl := Option.some.inj (Option.ite_none_right_eq_some.mp hs').2
          have hins := hsized₃.createFresh (n := n) hids₃ hn0 hmem
          refine ⟨fun u hu => ?_, Function.update_self _ _ _,
            { s.put t i₃ s.mem .fresh with db := db }, n, fl t, i₃, _, rfl, hids₃,
            Function.update_self _ _ _, hi₃.2.2.2.2, hkept₃, hins, Or.inl ⟨hempty, hempty⟩⟩
          exact (Function.update_of_ne hu _ _).trans (Function.update_of_ne hu _ _)
      · cases hs'
  · -- a freed node
    have hmem : i.freedNodes ∈ fl t :=
      (h.lists.owned t i ht).freedNodes_mem.resolve_left hfree
    obtain ⟨c, hc⟩ := (h.lists.owned t i ht).freed.isSome_of_mem hmem
    have hlast : s.finishCreate t n = some { s.put t (i.recycle s.mem t i.freedNodes c).1
        (i.recycle s.mem t i.freedNodes c).2 .idle with live := i.freedNodes :: s.live } := by
      rw [IdsState.finishCreate, hnext, createRound, if_pos hfree, hc, Option.bind_some]
      simp only [if_pos (h.lists.owned t i ht).valid_allocatedNodes, Option.bind_some, put,
        Function.update_self]
    refine ⟨fun _ _ => by rw [hlast]; rfl, fun s' hs' => ?_⟩
    obtain rfl := Option.some.inj (hlast.symm.trans hs')
    obtain ⟨fl', hfl, hins⟩ := h.recycle ht hfree hc
    exact ⟨fun u hu => Function.update_of_ne hu _ _, Function.update_self _ _ _, s, _, fl', i, _,
      rfl, ht, Function.update_self _ _ _, rfl, id, hins, Or.inr hfl⟩

theorem Finished.isResting {s s' : IdsState τ} (h : Finished s s' al fl t i)
    (hidle : ∀ u, u ≠ t → s.pc u = .idle) : s'.Resting := by
  obtain ⟨s₃, n, fl', i₃, i', -, -, -, -, -, hins, -⟩ := h.inserted
  refine ⟨⟨_, _, hins.sized⟩, fun u => ?_⟩
  by_cases hu : u = t
  · rw [hu]
    exact h.idle
  · rw [h.resting u hu]
    exact hidle u hu

/-- **With a sweep, the counter is wrong afterwards.** -/
theorem Finished.not_kept {s s' : IdsState τ} (h : Finished s s' al fl t i)
    (hcount : i.deletedByOthers ≠ 0) (horphan : (al t).countP (orphan s.mem) = 0) : ¬ s'.Kept := by
  obtain ⟨s₃, n, fl', i₃, i', hmem, -, ht', hdeleted, -, hins, -⟩ := h.inserted
  rw [hins.sized.kept_iff]
  intro hk
  have hnodup := (hins.sized.lists.owned t i' ht').nodup.of_append_left
  have heq := hk.deletedByOthers t i' ht'
  rw [Function.update_self] at heq hnodup
  rw [List.nodup_cons] at hnodup
  rw [List.countP_cons_of_neg (by rw [hins.creator]; exact nofun),
    countP_orphan fun a ha => hins.core a (ne_of_mem_of_not_mem ha hnodup.1), hmem, horphan,
    hdeleted] at heq
  exact hcount heq

/-- **Without one**, it is right, and the freed nodes are in order if none is left. -/
theorem Finished.kept_iff {s s' : IdsState τ} (h : Finished s s' al fl t i)
    (hk : s.KeptLists al fl) (ht : s.ids t = some i) : s'.Kept ↔ i.totalFreed ≤ 1 := by
  obtain ⟨s₃, n, fl', i₃, i', hmem, ht₃, ht', -, hk₃, hins, hfl⟩ := h.inserted
  rw [hins.sized.kept_iff, (hk₃ hk).inserted ht₃ ht' hins, hk.totalFreed t i ht, hmem]
  rcases hfl with ⟨hnil, rfl⟩ | hcons
  · rw [hnil]
    exact iff_of_true trivial (Nat.zero_le 1)
  · have hback := hk.freed t i ht
    rw [hcons] at hback ⊢
    cases fl' with
    | nil => exact iff_of_true trivial le_rfl
    | cons x fl' =>
      -- the next freed node points back to the one that has left
      refine iff_of_false (fun hseg => ?_) (by simp)
      have hprev := hback.2.1.symm.trans hseg.1
      rw [Option.some_inj, Prod.mk.injEq] at hprev
      have hnode : n ∈ fl t := hcons ▸ List.mem_cons_self
      exact hk.lists.notMem_of_none hk.lists.null t (List.mem_append_right _ (hprev.1 ▸ hnode))

/-- Where `create_node` starts. -/
theorem Resting.create_start (h : s.Resting) (ht : s.ids t = some i) (n : ℕ) :
    s.createNode t n = (sweep t (i.totalAllocated + 2) (s.put t i s.mem
      (if i.manyDeleted then .freeing i.allocatedNodes else .creating))).bind
      fun s₂ => s₂.finishCreate t n := by
  rw [IdsState.createNode, ht, Option.bind_some]
  simp only [step, ht, h.idle t, Option.bind_some]

/-- A thread enters the loop. -/
theorem Sized.enter (h : s.Sized al fl) (ht : s.ids t = some i) :
    Sized { s with pc := Function.update s.pc t (.freeing i.allocatedNodes) } al fl := by
  refine h.setPc fun u p hp => ?_
  by_cases hu : u = t
  · subst hu
    rw [Function.update_self] at hp
    rw [← IdsPc.freeing.inj hp]
    exact Or.inr (h.lists.owned u i ht).allocatedNodes_mem
  · rw [Function.update_of_ne hu] at hp
    exact Or.inl hp

/-- **`create_node`** returns if the allocator has an address for a new node, and keeps everything
exactly if it is harmless. -/
theorem Resting.createNode (h : s.Resting) (ht : s.ids t = some i) (n : ℕ) :
    (n ≠ 0 → s.mem n = none → (s.createNode t n).isSome) ∧
      ∀ s', s.createNode t n = some s' →
        s'.Resting ∧ (s.Kept → (s'.Kept ↔ i.manyDeleted = false ∧ i.totalFreed ≤ 1)) := by
  obtain ⟨al, fl, hsized⟩ := h.sized
  rw [h.create_start ht]
  cases hmany : i.manyDeleted with
  | true =>
    rw [if_pos rfl, put_eq ht]
    have hhead := (hsized.lists.owned t i ht).head
    have hfuel : (al t).length + 2 ≤ i.totalAllocated + 2 := by
      rw [hsized.totalAllocated t i ht]
    obtain ⟨s₂, i₂, al₂, fl₂, hs₂, hsized₂, ht₂, hpc₂, hdeleted, horphan, hmem⟩ :=
      (hsized.enter ht).sweep ht (List.nil_append (al t)).symm
        ((Function.update_self _ _ _).trans (congrArg _ hhead)) rfl hfuel
    rw [hs₂, Option.bind_some]
    have hcreating : s₂.pc t = .creating := by rw [hpc₂, Function.update_self]
    obtain ⟨hreturns, hfinished⟩ := hsized₂.finishCreate (n := n) ht₂ hcreating
    refine ⟨fun hn0 hn => hreturns hn0 (hmem n hn), fun s' hs' => ?_⟩
    have hfin := hfinished s' hs'
    refine ⟨hfin.isResting fun u hu => ?_, fun _ => ?_⟩
    · rw [hpc₂, Function.update_of_ne hu]
      exact (Function.update_of_ne hu _ _).trans (h.idle u)
    · refine iff_of_false (hfin.not_kept ?_ horphan) fun hc => absurd hc.1 nofun
      rw [hdeleted]
      simp only [Ids.manyDeleted, Bool.and_eq_true, decide_eq_true_eq] at hmany
      exact Nat.pos_iff_ne_zero.1 hmany.1.2
  | false =>
    rw [if_neg Bool.false_ne_true, put_eq ht]
    have hcreating : ∀ fuel, sweep t (fuel + 1) { s with pc := Function.update s.pc t .creating } =
        some { s with pc := Function.update s.pc t .creating } := by
      intro fuel
      rw [sweep]
      simp only [Function.update_self]
    rw [hcreating, Option.bind_some]
    have hpc : ∀ u p, Function.update s.pc t .creating u = .freeing p → s.pc u = .freeing p ∨
        p = 0 ∨ p ∈ al u := by
      intro u p hp
      by_cases hu : u = t
      · subst hu
        rw [Function.update_self] at hp
        exact absurd hp nofun
      · rw [Function.update_of_ne hu] at hp
        exact Or.inl hp
    obtain ⟨hreturns, hfinished⟩ := (hsized.setPc hpc).finishCreate (n := n) ht
      (Function.update_self _ _ _)
    refine ⟨hreturns, fun s' hs' => ?_⟩
    have hfin := hfinished s' hs'
    refine ⟨hfin.isResting fun u hu => ?_, fun hkept => ?_⟩
    · exact (Function.update_of_ne hu _ _).trans (h.idle u)
    · have hk := (hsized.kept_iff.1 hkept).setPc hpc
      rw [hfin.kept_iff hk ht, and_iff_right rfl]

/-- **`delete_node`** of a node in use returns, and keeps everything. -/
theorem Resting.delete (h : s.Resting) (ht : s.ids t = some i) (hn : n ∈ s.live) :
    ∃ s', s.deleteAndCount t n = some s' ∧ s'.Resting ∧ (s.Kept → s'.Kept) := by
  obtain ⟨al, fl, hsized⟩ := h.sized
  obtain ⟨u, c, hnu, hc, hcreator⟩ := hsized.lists.live n hn
  have horphan : orphan s.mem n = false := by
    rw [orphan, hc, Option.any_some, hcreator]
    rfl
  have hlive : ∀ a ∈ s.live.erase n, a ∈ s.live ∧ a ≠ n := fun a ha =>
    ((hsized.lists.nodup.mem_erase_iff).mp ha).symm
  have hnodup := hsized.lists.nodup.erase n
  have hstep : s.step (.delete t n) = s.deleteNode t i n := by
    simp only [step, ht, h.idle t, if_pos hn]
  rw [deleteAndCount, hstep, deleteNode, hc, Option.bind_some, hcreator, Option.bind_some]
  by_cases hut : u = t
  · -- the creator deletes the node
    subst hut
    rw [if_pos rfl]
    dsimp only
    rw [if_pos ((hsized.lists.owned u i ht).valid_neighbours hsized.lists.null hnu hc),
      Option.bind_some]
    refine ⟨{ s.put u (i.removeNodeFromAllocated s.mem n c).1
      (i.removeNodeFromAllocated s.mem n c).2.1 .idle with live := s.live.erase n },
      ?_, ⟨⟨_, _, hsized.remove ht hnu hc rfl hlive hnodup fun p hp => absurd hp idle_ne_freeing⟩, fun v => ?_⟩, fun hkept => ?_⟩
    · simp only [put, Function.update_self]
    · by_cases hv : v = u
      · subst hv
        exact Function.update_self _ _ _
      · exact (Function.update_of_ne hv _ _).trans (h.idle v)
    · exact ⟨_, _, (hsized.kept_iff.1 hkept).remove ht hnu hc rfl horphan hlive hnodup fun p hp => absurd hp idle_ne_freeing⟩
  · -- another thread does
    obtain ⟨j, hj⟩ : ∃ j, s.ids u = some j := by
      refine Option.ne_none_iff_exists'.1 fun hnone => ?_
      rw [(hsized.lists.off u hnone).1] at hnu
      exact absurd hnu List.not_mem_nil
    have hnever : ∀ v, Function.update (Function.update s.pc t (.deleting u)) t .idle v = .idle := by
      intro v
      by_cases hv : v = t
      · rw [hv, Function.update_self]
      · rw [Function.update_of_ne hv, Function.update_of_ne hv, h.idle v]
    have hfreeing : ∀ v p, s.pc v ≠ .freeing p := fun v p => by
      rw [h.idle v]
      exact idle_ne_freeing
    have hfreeing' : ∀ v p,
        Function.update (Function.update s.pc t (.deleting u)) t .idle v ≠ .freeing p :=
      fun v p => by
        rw [hnever v]
        exact idle_ne_freeing
    have hids : Function.update s.ids t (some i) = s.ids := by rw [← ht, Function.update_eq_self]
    rw [if_neg hut, Option.bind_some]
    refine ⟨s.cleared n u j (Function.update (Function.update s.pc t (.deleting u)) t .idle)
      (s.live.erase n), ?_, ⟨⟨al, fl, hsized.clear hj hlive hnodup hfreeing hfreeing'⟩, hnever⟩,
      fun hkept => ⟨al, fl, ?_⟩⟩
    · simp only [put, Function.update_self, step, hids, hj, Option.map_some, cleared]
    · exact (hsized.kept_iff.1 hkept).clear hj hnu horphan hc hlive hnodup hfreeing hfreeing'

/-- **`free_destroyed_nodes`** returns, and keeps everything exactly if there is nothing to do. -/
theorem Resting.free (h : s.Resting) (ht : s.ids t = some i) :
    ∃ s', s.freeDestroyedNodes t = some s' ∧ s'.Resting ∧
      (s.Kept → (s'.Kept ↔ i.deletedByOthers = 0)) := by
  obtain ⟨al, fl, hsized⟩ := h.sized
  have hhead := (hsized.lists.owned t i ht).head
  have hfuel : (al t).length + 2 ≤ i.totalAllocated + 2 := by
    rw [hsized.totalAllocated t i ht]
  have hentered := hsized.enter ht
  have hpc : Function.update s.pc t (.freeing i.allocatedNodes) t = .freeing ((al t).headD 0) :=
    (Function.update_self _ _ _).trans (congrArg _ hhead)
  obtain ⟨s₂, i₂, al₂, fl₂, hs₂, hsized₂, ht₂, hpc₂, hdeleted, horphan, -⟩ :=
    hentered.sweep ht (List.nil_append (al t)).symm hpc rfl hfuel
  have hcall : s.freeDestroyedNodes t =
      some { s₂ with pc := Function.update s₂.pc t .idle } := by
    simp only [freeDestroyedNodes, ht, h.idle t, put_eq ht, hs₂, Option.map_some]
  have hidle : ∀ u, Function.update s₂.pc t .idle u = .idle := by
    intro u
    by_cases hu : u = t
    · rw [hu, Function.update_self]
    · rw [Function.update_of_ne hu, hpc₂, Function.update_of_ne hu]
      exact (Function.update_of_ne hu _ _).trans (h.idle u)
  have hout : ∀ {s : IdsState τ} {al : τ → List ℕ} u p,
      Function.update s₂.pc t .idle u = .freeing p → s.pc u = .freeing p ∨ p = 0 ∨ p ∈ al u :=
    fun u p hp => absurd ((hidle u).symm.trans hp) idle_ne_freeing
  have hfinal := hsized₂.setPc hout
  refine ⟨_, hcall, ⟨⟨al₂, fl₂, hfinal⟩, hidle⟩, fun hkept => ?_⟩
  have hk := hsized.kept_iff.1 hkept
  constructor
  · intro hk'
    have heq := (hfinal.kept_iff.1 hk').deletedByOthers t i₂ ht₂
    rw [← hdeleted, heq]
    exact horphan
  · intro hzero
    have hclean := hentered.sweep_clean ht (List.nil_append (al t)).symm hpc
      ((hk.deletedByOthers t i ht).symm.trans hzero) hfuel
    obtain rfl := Option.some.inj (hs₂.symm.trans hclean)
    exact ⟨al, fl, hk.setPc hout⟩

/-- A call that can be made: the constructor comes first and once, a node that is deleted is in use,
and the allocator has an address for a new node. -/
def Enabled (s : IdsState τ) : IdsCall τ → Prop
  | .start t => s.ids t = none
  | .create t n => (s.ids t).isSome ∧ n ≠ 0 ∧ s.mem n = none
  | .delete t n => (s.ids t).isSome ∧ n ∈ s.live
  | .free t => (s.ids t).isSome

/-- **Every call returns.** -/
theorem Resting.call_isSome (h : s.Resting) {c : IdsCall τ} (hc : s.Enabled c) :
    (s.call c).isSome := by
  cases c with
  | start t =>
    have ht : s.ids t = none := hc
    simp only [IdsState.call, step, ht, Option.isSome_some]
  | create t n =>
    obtain ⟨ht, hn0, hn⟩ := hc
    obtain ⟨i, ht⟩ := Option.isSome_iff_exists.1 ht
    exact (h.createNode ht n).1 hn0 hn
  | delete t n =>
    obtain ⟨ht, hn⟩ := hc
    obtain ⟨i, ht⟩ := Option.isSome_iff_exists.1 ht
    obtain ⟨s', hs', -⟩ := h.delete ht hn
    rw [IdsState.call, hs']
    rfl
  | free t =>
    obtain ⟨i, ht⟩ := Option.isSome_iff_exists.1 (show (s.ids t).isSome from hc)
    obtain ⟨s', hs', -⟩ := h.free ht
    rw [IdsState.call, hs']
    rfl

/-- **One call** keeps the lists and the totals, and everything exactly if it is harmless. -/
theorem Resting.call (h : s.Resting) {c : IdsCall τ} (hs : s.call c = some s') :
    s'.Resting ∧ (s.Kept → (s'.Kept ↔ s.Harmless c)) := by
  cases c with
  | start t =>
    rw [IdsState.call, step] at hs
    split at hs
    · next ht =>
      obtain rfl := Option.some.inj hs
      obtain ⟨al, fl, hsized⟩ := h.sized
      have hnew : NewIds (Ids.create s.db).1 := ⟨rfl, rfl, rfl, rfl, rfl⟩
      refine ⟨⟨⟨_, _, hsized.start ht _ hnew⟩, fun u => ?_⟩, fun hkept => iff_of_true ?_ trivial⟩
      · by_cases hu : u = t
        · subst hu
          exact Function.update_self _ _ _
        · exact (Function.update_of_ne hu _ _).trans (h.idle u)
      · exact ⟨_, _, (hsized.kept_iff.1 hkept).start ht _ hnew⟩
    · exact absurd hs nofun
  | create t n =>
    rw [IdsState.call] at hs
    obtain ⟨i, ht, -⟩ := Option.bind_eq_some_iff.1 hs
    obtain ⟨hrest, hiff⟩ := (h.createNode ht n).2 s' hs
    refine ⟨hrest, fun hkept => (hiff hkept).trans ?_⟩
    constructor
    · intro hone j hj
      obtain rfl := Option.some.inj (ht.symm.trans hj)
      exact hone
    · exact fun hall => hall i ht
  | delete t n =>
    rw [IdsState.call] at hs
    have hstart : ∃ i, s.ids t = some i ∧ n ∈ s.live := by
      obtain ⟨s₁, hs₁, -⟩ := Option.bind_eq_some_iff.1 hs
      rw [step] at hs₁
      split at hs₁
      · next i hi _ =>
        split at hs₁
        · next hn => exact ⟨i, hi, hn⟩
        · exact absurd hs₁ nofun
      · exact absurd hs₁ nofun
    obtain ⟨i, ht, hn⟩ := hstart
    obtain ⟨s₂, hs₂, hrest, hkept⟩ := h.delete ht hn
    obtain rfl := Option.some.inj (hs₂.symm.trans hs)
    exact ⟨hrest, fun hk => iff_of_true (hkept hk) trivial⟩
  | free t =>
    rw [IdsState.call] at hs
    have hstart : ∃ i, s.ids t = some i := by
      rw [freeDestroyedNodes] at hs
      split at hs
      · next i hi _ => exact ⟨i, hi⟩
      · exact absurd hs nofun
    obtain ⟨i, ht⟩ := hstart
    obtain ⟨s₂, hs₂, hrest, hiff⟩ := h.free ht
    obtain rfl := Option.some.inj (hs₂.symm.trans hs)
    refine ⟨hrest, fun hkept => (hiff hkept).trans ?_⟩
    constructor
    · intro hzero j hj
      obtain rfl := Option.some.inj (ht.symm.trans hj)
      exact hzero
    · exact fun hall => hall i ht

omit [DecidableEq τ] in
/-- No thread has started. -/
theorem keptLists_init (pairs : List (BitVec 64 × BitVec 64)) :
    KeptLists (init pairs : IdsState τ) (fun _ => []) fun _ => [] := by
  refine ⟨⟨⟨rfl, nofun, fun _ _ => ⟨rfl, rfl⟩, fun _ _ _ ha => absurd ha List.not_mem_nil,
    fun _ ha => absurd ha List.not_mem_nil, List.nodup_nil, nofun⟩, nofun, nofun⟩, nofun, nofun,
    nofun⟩

omit [DecidableEq τ] in
theorem resting_init (pairs : List (BitVec 64 × BitVec 64)) :
    Resting (init pairs : IdsState τ) :=
  ⟨⟨_, _, (keptLists_init pairs).toSized⟩, fun _ => rfl⟩

end Calls

end IdsState

section Runs

variable {τ : Type*} [DecidableEq τ]

theorem call_of_machine {s : IdsState τ} {c : IdsCall τ} {r : Unit × IdsState τ}
    (h : (idsMachine τ).step s c = some r) : s.call c = some r.2 := by
  obtain ⟨s', hs', rfl⟩ := Option.map_eq_some_iff.1 h
  exact hs'

/-- **The lists and the totals** are right after every sequence of calls. -/
theorem always_resting (pairs : List (BitVec 64 × BitVec 64)) (calls : List (IdsCall τ)) :
    (idsMachine τ).Always IdsState.Resting (.init pairs) calls :=
  Machine.always_of_step
    (fun _ _ _ hs hr => (IdsState.Resting.call hs (call_of_machine hr)).1)
    (IdsState.resting_init pairs)

/-- **Nobody gets stuck**: after every sequence of calls, each call that can be made returns. -/
theorem ids_calls_return (pairs : List (BitVec 64 × BitVec 64)) (calls : List (IdsCall τ)) :
    (idsMachine τ).Always (fun s => ∀ c, s.Enabled c → (s.call c).isSome) (.init pairs) calls :=
  fun k r hr _ hc => IdsState.Resting.call_isSome (always_resting pairs calls k r hr) hc

/-- **The objects keep everything** all the time exactly if every call that is made is harmless. -/
theorem ids_kept_iff (pairs : List (BitVec 64 × BitVec 64)) (calls : List (IdsCall τ)) :
    (idsMachine τ).Always IdsState.Kept (.init pairs) calls ↔
      (idsMachine τ).Along (fun s c => (idsMachine τ).step s c ≠ none → s.Harmless c)
        (.init pairs) calls :=
  Machine.always_iff (fun _ _ _ hs hr => (IdsState.Resting.call hs (call_of_machine hr)).1)
    (fun _ _ _ hs hkept hr => (IdsState.Resting.call hs (call_of_machine hr)).2 hkept)
    (IdsState.resting_init pairs) ⟨_, _, IdsState.keptLists_init pairs⟩

/-- A node is created, deleted by the other thread, and another node is needed. -/
def sweepingCalls : List (IdsCall Bool) :=
  [.start false, .start true, .create false 1, .delete true 1, .create false 2]

/-- **The sweep does not give the counter back**: the first thread has no node without a creator
then, and still counts one. -/
theorem not_forall_kept : ¬ ∀ (pairs : List (BitVec 64 × BitVec 64)) (calls : List (IdsCall Bool)),
    (idsMachine Bool).Always IdsState.Kept (.init pairs) calls := by
  intro hall
  have hend : ((idsMachine Bool).run (.init []) sweepingCalls).map (fun r =>
      ((r.2.ids false).map fun i => (i.allocatedNodes, i.deletedByOthers),
        (r.2.mem 1).map fun c => (c.dynNext, c.creator))) =
      some (some (1, 1), some (0, some false)) := by decide +kernel
  obtain ⟨r, hr, heq⟩ := Option.map_eq_some_iff.1 hend
  obtain ⟨i, hi, hfields⟩ := Option.map_eq_some_iff.1 (congrArg Prod.fst heq)
  obtain ⟨c, hc, hnode⟩ := Option.map_eq_some_iff.1 (congrArg Prod.snd heq)
  obtain ⟨hhead, hcount⟩ := Prod.mk.inj hfields
  obtain ⟨hnext, hcreator⟩ := Prod.mk.inj hnode
  obtain ⟨al, fl, hk⟩ := hall [] sweepingCalls 5 r hr
  -- the only allocated node is the one that was created again
  have hlist : al false = [1] := by
    have howned := hk.lists.owned false i hi
    have hfollow := freed_of_seg (howned.zero_notMem hk.lists.null) howned.seg
    rw [← howned.head, hhead] at hfollow
    exact hfollow.unique ⟨rfl, by decide, c, hc, hnext⟩
  have horphan := hk.deletedByOthers false i hi
  rw [hlist, hcount, List.countP_singleton, IdsState.orphan, hc, Option.any_some, hcreator]
    at horphan
  exact absurd horphan (by decide)

end Runs

end Meld
