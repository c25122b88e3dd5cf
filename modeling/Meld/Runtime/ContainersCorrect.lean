import Meld.Runtime.Containers
import Mathlib.Data.List.Perm.Basic

/-!
# The references that containers hold

An array or a set should hold one reference on every object among its elements: an object then has
as many references as there are outside, in live objects and in the containers.  Where the three
tests for what is counted differ, this is not so.  A step is sound if the tests agree on what it
stores or gives back, and if it stays inside the memory that it has.

* `stored`: the references a container should hold.
* `Sound`: the condition on a call.
* `incrementElems_spec`, `decrementElems_spec`: the loops over the elements.
* `step_spec`, `run_spec`: sound calls keep the counts right.
-/

namespace Meld

namespace Containers

open RefCount

variable {M : RuntimeObjs} {t : FieldType} {f : ℕ} {s : Counts ℕ} {ext : ℕ → ℕ}

namespace RuntimeObjs

/-- The objects among the elements of a container. -/
def stored (M : RuntimeObjs) (t : FieldType) (elems : List ℕ) : List ℕ := elems.filter (M.counted t)

/-- The two tests for what is counted agree, or there is nothing to count. -/
def CountsAlike (M : RuntimeObjs) (t : FieldType) (elems : List ℕ) : Prop :=
  (t.isReference ∧ t.runtimeData) ∨ M.stored t elems = []

/-- The objects among the elements are live. -/
def Valid (M : RuntimeObjs) (t : FieldType) (elems : List ℕ) (s : Counts ℕ) : Prop :=
  ∀ f ∈ M.stored t elems, f ∈ s.live

theorem stored_cons (elems : List ℕ) :
    M.stored t (f :: elems) = M.stored t [f] ++ M.stored t elems := by
  rw [stored, stored, stored, ← List.filter_append]
  rfl

theorem stored_append (l l' : List ℕ) : M.stored t (l ++ l') = M.stored t l ++ M.stored t l' :=
  List.filter_append ..

theorem dataRefs_of_runtimeData (h : t.runtimeData) : M.dataRefs t f = M.stored t [f] := by
  rw [dataRefs, stored, h, Bool.true_and, List.filter_singleton]
  cases M.counted t f <;> rfl

theorem dataRefs_of_stored (h : M.stored t [f] = []) : M.dataRefs t f = [] := by
  rw [stored, List.filter_singleton] at h
  rw [dataRefs]
  cases hf : M.counted t f with
  | false => simp
  | true => simp [hf] at h

/-- The element is counted in the same way by all, or there is nothing to count. -/
theorem dataRefs_eq_stored (h : t.runtimeData ∨ M.stored t [f] = []) :
    M.dataRefs t f = M.stored t [f] := by
  rcases h with h | h
  · exact dataRefs_of_runtimeData h
  · rw [dataRefs_of_stored h, h]

theorem incrementRuntimeData_eq :
    M.incrementRuntimeData f t s =
      if t.runtimeData && M.counted t f then take f s else some s := by
  cases ht : t.runtimeData with
  | false => simp [incrementRuntimeData, ht]
  | true =>
    by_cases hf : f = 0
    · simp [incrementRuntimeData, doIncrementRuntime, counted, ht, hf]
    · cases t <;> simp_all [FieldType.runtimeData, FieldType.referenceType, incrementRuntimeData,
        doIncrementRuntime, counted]
      split <;> simp_all

theorem decrementRuntimeData_eq :
    M.decrementRuntimeData f t s =
      if t.runtimeData && M.counted t f then giveBack M.refersTo M.kept f s else some s := by
  cases ht : t.runtimeData with
  | false => simp [decrementRuntimeData, ht]
  | true =>
    by_cases hf : f = 0
    · simp [decrementRuntimeData, doDecrementRuntime, counted, ht, hf]
    · cases t <;> simp_all [FieldType.runtimeData, FieldType.referenceType, decrementRuntimeData,
        doDecrementRuntime, counted]
      split <;> simp_all

/-- A reference on an element is taken. -/
theorem incrementRuntimeData_spec (h : Accounted M.refersTo ext s)
    (hcount : t.runtimeData ∨ M.stored t [f] = []) (hvalid : M.Valid t [f] s) :
    ∃ s', M.incrementRuntimeData f t s = some s' ∧
      Accounted M.refersTo (withRefs ext (M.stored t [f])) s' ∧ s'.live = s.live := by
  have hrefs := dataRefs_eq_stored hcount
  rw [Valid, ← hrefs] at hvalid
  rw [incrementRuntimeData_eq, ← hrefs]
  unfold dataRefs at hvalid ⊢
  split
  · rename_i hcounted
    rw [if_pos hcounted] at hvalid
    exact h.take (hvalid f List.mem_cons_self)
  · rw [withRefs_nil]
    exact ⟨s, rfl, h, rfl⟩

/-- What `decrement_runtime_data` gives back. -/
theorem decrementRuntimeData_dataRefs
    (h : Accounted M.refersTo (withRefs ext (M.dataRefs t f)) s) :
    ∃ s', M.decrementRuntimeData f t s = some s' ∧ Accounted M.refersTo ext s' ∧ Fewer s s' := by
  rw [decrementRuntimeData_eq]
  unfold dataRefs at h
  split
  · rename_i hcounted
    rw [if_pos hcounted] at h
    exact h.giveBack M.kept
  · rename_i hcounted
    rw [if_neg hcounted, withRefs_nil] at h
    exact ⟨s, rfl, h, .refl s⟩

/-- A reference on an element is given back. -/
theorem decrementRuntimeData_spec (hcount : t.runtimeData ∨ M.stored t [f] = [])
    (h : Accounted M.refersTo (withRefs ext (M.stored t [f])) s) :
    ∃ s', M.decrementRuntimeData f t s = some s' ∧ Accounted M.refersTo ext s' ∧ Fewer s s' := by
  rw [← dataRefs_eq_stored hcount] at h
  exact decrementRuntimeData_dataRefs h

theorem stored_singleton_or {elems : List ℕ} (h : t.runtimeData ∨ M.stored t (f :: elems) = []) :
    (t.runtimeData ∨ M.stored t [f] = []) ∧ (t.runtimeData ∨ M.stored t elems = []) := by
  rcases h with h | h
  · exact ⟨Or.inl h, Or.inl h⟩
  · rw [stored_cons] at h
    obtain ⟨hf, helems⟩ := List.append_eq_nil_iff.1 h
    exact ⟨Or.inr hf, Or.inr helems⟩

/-- The references on a list of elements are taken one after the other. -/
theorem foldlM_increment_spec {elems : List ℕ} (h : Accounted M.refersTo ext s)
    (hcount : t.runtimeData ∨ M.stored t elems = []) (hvalid : M.Valid t elems s) :
    ∃ s', elems.foldlM (fun s f => M.incrementRuntimeData f t s) s = some s' ∧
      Accounted M.refersTo (withRefs ext (M.stored t elems)) s' ∧ s'.live = s.live := by
  induction elems generalizing s ext with
  | nil => exact ⟨s, rfl, by rwa [stored, List.filter_nil, withRefs_nil], rfl⟩
  | cons f elems ih =>
    obtain ⟨hf, helems⟩ := stored_singleton_or hcount
    rw [Valid, stored_cons] at hvalid
    obtain ⟨s₁, hrun, h₁, hlive⟩ := incrementRuntimeData_spec h hf fun a ha =>
      hvalid a (List.mem_append_left _ ha)
    obtain ⟨s', hrun', h', hlive'⟩ := ih h₁ helems fun a ha => by
      rw [hlive]
      exact hvalid a (List.mem_append_right _ ha)
    refine ⟨s', ?_, ?_, hlive'.trans hlive⟩
    · rw [List.foldlM_cons, hrun]
      exact hrun'
    · rw [stored_cons, withRefs_perm List.perm_append_comm, withRefs_append]
      exact h'

theorem foldlM_decrement_spec {elems : List ℕ} (hcount : t.runtimeData ∨ M.stored t elems = [])
    (h : Accounted M.refersTo (withRefs ext (M.stored t elems)) s) :
    ∃ s', elems.foldlM (fun s f => M.decrementRuntimeData f t s) s = some s' ∧
      Accounted M.refersTo ext s' ∧ s'.live ⊆ s.live := by
  induction elems generalizing s with
  | nil =>
    rw [stored, List.filter_nil, withRefs_nil] at h
    exact ⟨s, rfl, h, Finset.Subset.refl _⟩
  | cons f elems ih =>
    obtain ⟨hf, helems⟩ := stored_singleton_or hcount
    rw [stored_cons, withRefs_append] at h
    obtain ⟨s₁, hrun, h₁, hfewer⟩ := decrementRuntimeData_spec hf h
    obtain ⟨s', hrun', h', hsub⟩ := ih helems h₁
    refine ⟨s', ?_, h', hsub.trans hfewer.live⟩
    rw [List.foldlM_cons, hrun]
    exact hrun'

/-- **The loop of a constructor** counts what the container stores. -/
theorem incrementElems_spec {elems : List ℕ} (h : Accounted M.refersTo ext s)
    (hcount : M.CountsAlike t elems) (hvalid : M.Valid t elems s) :
    ∃ s', M.incrementElems t elems s = some s' ∧
      Accounted M.refersTo (withRefs ext (M.stored t elems)) s' ∧ s'.live = s.live := by
  unfold incrementElems
  split
  · exact foldlM_increment_spec h (hcount.imp_left And.right) hvalid
  · rename_i href
    rw [hcount.resolve_left fun hboth => href hboth.1, withRefs_nil]
    exact ⟨s, rfl, h, rfl⟩

/-- **The loop of `destroy`** gives back what the container stores. -/
theorem decrementElems_spec {elems : List ℕ} (hcount : M.CountsAlike t elems)
    (h : Accounted M.refersTo (withRefs ext (M.stored t elems)) s) :
    ∃ s', M.decrementElems t elems s = some s' ∧ Accounted M.refersTo ext s' ∧
      s'.live ⊆ s.live := by
  unfold decrementElems
  split
  · exact foldlM_decrement_spec (hcount.imp_left And.right) h
  · rename_i href
    rw [hcount.resolve_left fun hboth => href hboth.1, withRefs_nil] at h
    exact ⟨s, rfl, h, Finset.Subset.refl _⟩

end RuntimeObjs

/-! ## The containers -/

/-- The references that an array should hold. -/
def RuntimeArray.stored (M : RuntimeObjs) (a : RuntimeArray) : List ℕ := M.stored a.type a.elems

/-- The references that a set should hold. -/
def RuntimeSet.stored (M : RuntimeObjs) (S : RuntimeSet) : List ℕ := M.stored S.type S.elems

namespace RuntimeState

/-- The references that the containers should hold. -/
def slots (M : RuntimeObjs) (st : RuntimeState) : List ℕ :=
  st.arrays.flatMap (RuntimeArray.stored M) ++ st.sets.flatMap (RuntimeSet.stored M)

/-- Every object has the references from outside, those from live objects, and one for each time it
is an element of a container. -/
def Holds (M : RuntimeObjs) (held : ℕ → ℕ) (st : RuntimeState) : Prop :=
  Accounted M.refersTo (withRefs held (st.slots M)) st.counts

/-- The condition on a call: what is stored or given back is counted alike on both occasions, what
is stored is live, and the memory of an array is not left. -/
def Sound (M : RuntimeObjs) (held : ℕ → ℕ) (st : RuntimeState) : ContainerOp → Prop
  | .arrayCreateEmpty _ _ => True
  | .arrayCreateFill t size f =>
    M.CountsAlike t (List.replicate size f) ∧ M.Valid t (List.replicate size f) st.counts
  | .arrayCreateFromVector t v => M.CountsAlike t v ∧ M.Valid t v st.counts
  | .arrayMutate k idx f => ∃ a, st.arrays[k]? = some a ∧ idx < a.cap ∧
      M.CountsAlike a.type (a.elems.set idx f) ∧ M.Valid a.type [f] st.counts
  | .arrayMutateAdd k f => ∃ a, st.arrays[k]? = some a ∧
      (a.elems.length < if a.elems.length = a.cap then 2 * a.cap else a.cap) ∧
      M.CountsAlike a.type (a.elems ++ [f]) ∧ M.Valid a.type [f] st.counts
  | .arrayAdd k f => ∃ a, st.arrays[k]? = some a ∧ a.elems.length ≠ a.cap ∧
      (a.type.runtimeData ∨ M.stored a.type [f] = []) ∧ M.Valid a.type [f] st.counts
  | .arraySetIndex k i f => ∃ a old, st.arrays[k]? = some a ∧ a.elems[i]? = some old ∧
      (a.type.runtimeData ∨ M.stored a.type [old, f] = []) ∧
      -- the new element is not freed with the old one, which is given back first
      ∀ g ∈ M.stored a.type [f], Anchored M.refersTo (withRefs held
        (slots M (st.setArray k ({ a with elems := a.elems.eraseIdx i }, st.counts)))) st.counts g
  | .arrayDestroy k => ∃ a, st.arrays[k]? = some a ∧ M.CountsAlike a.type a.elems
  | .setCreateEmpty _ => True
  | .setCreateFromVector t v => t.isReference →
      (t.runtimeData ∨ M.stored t v = []) ∧ (M.stored t v).Nodup ∧ M.Valid t v st.counts
  | .setMutateAdd k f => ∃ S, st.sets[k]? = some S ∧ M.stored S.type S.elems = [] ∧
      (S.type.runtimeData ∨ M.stored S.type [f] = []) ∧ M.Valid S.type [f] st.counts
  | .setAdd k f => ∃ S, st.sets[k]? = some S ∧
      (M.stored S.type [f] = [] ∨ S.type.runtimeData ∧ f ∉ S.data) ∧ M.Valid S.type [f] st.counts
  | .setDestroy k => ∃ S, st.sets[k]? = some S ∧ M.CountsAlike S.type S.elems

variable {held : ℕ → ℕ} {st : RuntimeState}

/-- One member of a list of containers, and the references of the others. -/
theorem exists_rest {α : Type*} {L : List α} {k : ℕ} {a : α} (g : α → List ℕ)
    (hk : L[k]? = some a) :
    ∃ R, (L.flatMap g).Perm (g a ++ R) ∧ (∀ a', ((L.set k a').flatMap g).Perm (g a' ++ R)) ∧
      (L.eraseIdx k).flatMap g = R := by
  obtain ⟨hlt, rfl⟩ := List.getElem?_eq_some_iff.1 hk
  refine ⟨(L.eraseIdx k).flatMap g, ?_, fun a' => ?_, rfl⟩
  · rw [← List.flatMap_cons]
    exact (List.getElem_cons_eraseIdx_perm hlt).symm.flatMap_right g
  · rw [← List.flatMap_cons]
    exact (List.set_perm_cons_eraseIdx hlt a').flatMap_right g

theorem exists_rest_array {k : ℕ} {a : RuntimeArray} (hk : st.arrays[k]? = some a) :
    ∃ R, (st.slots M).Perm (a.stored M ++ R) ∧
      (∀ r, ((st.setArray k r).slots M).Perm (r.1.stored M ++ R)) ∧
      ∀ s, (slots M { st with counts := s, arrays := st.arrays.eraseIdx k }).Perm R := by
  obtain ⟨R, hold, hset, herase⟩ := exists_rest (RuntimeArray.stored M) hk
  refine ⟨R ++ st.sets.flatMap (RuntimeSet.stored M), ?_, fun r => ?_, fun s => ?_⟩
  · rw [← List.append_assoc]
    exact hold.append_right _
  · rw [← List.append_assoc]
    exact (hset r.1).append_right _
  · rw [← herase]
    exact List.Perm.refl _

theorem exists_rest_set {k : ℕ} {S : RuntimeSet} (hk : st.sets[k]? = some S) :
    ∃ R, (st.slots M).Perm (S.stored M ++ R) ∧
      (∀ r, ((st.setSet k r).slots M).Perm (r.1.stored M ++ R)) ∧
      ∀ s, (slots M { st with counts := s, sets := st.sets.eraseIdx k }).Perm R := by
  obtain ⟨R, hold, hset, herase⟩ := exists_rest (RuntimeSet.stored M) hk
  refine ⟨R ++ st.arrays.flatMap (RuntimeArray.stored M), ?_, fun r => ?_, fun s => ?_⟩
  · rw [← List.append_assoc]
    exact List.perm_append_comm.trans (hold.append_right _)
  · rw [← List.append_assoc]
    exact List.perm_append_comm.trans ((hset r.1).append_right _)
  · rw [← herase]
    exact List.perm_append_comm

theorem holds_newArray {r : RuntimeArray × Counts ℕ}
    (h : Accounted M.refersTo (withRefs (withRefs held (st.slots M)) (r.1.stored M)) r.2) :
    (st.newArray r).Holds M held := by
  rw [← withRefs_append] at h
  have hperm : ((st.newArray r).slots M).Perm (r.1.stored M ++ st.slots M) := by
    unfold slots newArray
    rw [List.flatMap_append, List.flatMap_singleton, ← List.append_assoc]
    exact List.perm_append_comm.append_right _
  rw [Holds, withRefs_perm hperm]
  exact h

theorem holds_newSet {r : RuntimeSet × Counts ℕ}
    (h : Accounted M.refersTo (withRefs (withRefs held (st.slots M)) (r.1.stored M)) r.2) :
    (st.newSet r).Holds M held := by
  rw [← withRefs_append] at h
  have hperm : ((st.newSet r).slots M).Perm (r.1.stored M ++ st.slots M) := by
    unfold slots newSet
    rw [List.flatMap_append, List.flatMap_singleton, ← List.append_assoc]
    exact List.perm_append_comm
  rw [Holds, withRefs_perm hperm]
  exact h

/-- The elements of an array are live. -/
theorem Holds.valid_array (h : st.Holds M held) {k : ℕ} {a : RuntimeArray}
    (hk : st.arrays[k]? = some a) : M.Valid a.type a.elems st.counts := by
  intro f hf
  obtain ⟨R, hslots, -⟩ := exists_rest_array (M := M) hk
  exact h.mem_live_of_mem (hslots.mem_iff.2 (List.mem_append_left _ hf))

/-! ## Arrays -/

/-- A new array with counted elements. -/
theorem holds_create {elems : List ℕ} (h : st.Holds M held) (cap : ℕ)
    (hcount : M.CountsAlike t elems) (hvalid : M.Valid t elems st.counts) :
    ∃ st', ((M.incrementElems t elems st.counts).map fun s =>
        ((⟨t, cap, elems⟩ : RuntimeArray), s)).map st.newArray = some st' ∧
      st'.Holds M held ∧ st'.counts.live ⊆ st.counts.live := by
  obtain ⟨s', hrun, h', hlive⟩ := RuntimeObjs.incrementElems_spec h hcount hvalid
  rw [hrun]
  exact ⟨_, rfl, holds_newArray h', Finset.subset_of_eq hlive⟩

theorem valid_set {elems : List ℕ} (idx : ℕ) (helems : M.Valid t elems s)
    (hf : M.Valid t [f] s) : M.Valid t (elems.set idx f) s := by
  intro a ha
  obtain ⟨hmem, hcounted⟩ := List.mem_filter.1 ha
  rcases List.mem_or_eq_of_mem_set hmem with hmem | rfl
  · exact helems a (List.mem_filter.2 ⟨hmem, hcounted⟩)
  · exact hf a (List.mem_filter.2 ⟨List.mem_cons_self, hcounted⟩)

theorem valid_append {elems : List ℕ} (helems : M.Valid t elems s) (hf : M.Valid t [f] s) :
    M.Valid t (elems ++ [f]) s := by
  intro a ha
  rw [RuntimeObjs.stored_append] at ha
  rcases List.mem_append.1 ha with ha | ha
  · exact helems a ha
  · exact hf a ha

theorem mutate_spec (h : st.Holds M held) {k idx : ℕ} {a : RuntimeArray}
    (hk : st.arrays[k]? = some a) (hidx : idx < a.cap)
    (hcount : M.CountsAlike a.type (a.elems.set idx f)) (hvalid : M.Valid a.type [f] st.counts) :
    ∃ st', st.step M (.arrayMutate k idx f) = some st' ∧ st'.Holds M held ∧
      st'.counts.live ⊆ st.counts.live := by
  obtain ⟨st', hrun, h'⟩ :=
    holds_create h a.cap hcount (valid_set idx (h.valid_array hk) hvalid)
  refine ⟨st', ?_, h'⟩
  unfold step
  simp only [hk, Option.bind_eq_bind, Option.bind_some, RuntimeArray.mutate, if_pos hidx]
  exact hrun

theorem mutateAdd_spec (h : st.Holds M held) {k : ℕ} {a : RuntimeArray}
    (hk : st.arrays[k]? = some a)
    (hcap : a.elems.length < if a.elems.length = a.cap then 2 * a.cap else a.cap)
    (hcount : M.CountsAlike a.type (a.elems ++ [f])) (hvalid : M.Valid a.type [f] st.counts) :
    ∃ st', st.step M (.arrayMutateAdd k f) = some st' ∧ st'.Holds M held ∧
      st'.counts.live ⊆ st.counts.live := by
  obtain ⟨st', hrun, h'⟩ := holds_create h
    (if a.elems.length = a.cap then 2 * a.cap else a.cap) hcount
    (valid_append (h.valid_array hk) hvalid)
  refine ⟨st', ?_, h'⟩
  unfold step
  simp only [hk, Option.bind_eq_bind, Option.bind_some, RuntimeArray.mutateAdd, if_pos hcap]
  exact hrun

theorem arrayAdd_spec (h : st.Holds M held) {k : ℕ} {a : RuntimeArray}
    (hk : st.arrays[k]? = some a) (hcap : a.elems.length ≠ a.cap)
    (hcount : a.type.runtimeData ∨ M.stored a.type [f] = [])
    (hvalid : M.Valid a.type [f] st.counts) :
    ∃ st', st.step M (.arrayAdd k f) = some st' ∧ st'.Holds M held ∧
      st'.counts.live ⊆ st.counts.live := by
  obtain ⟨s', hrun, h', hlive⟩ := RuntimeObjs.incrementRuntimeData_spec h hcount hvalid
  obtain ⟨R, hslots, hset, -⟩ := exists_rest_array (M := M) hk
  refine ⟨st.setArray k ({ a with elems := a.elems ++ [f] }, s'), ?_, ?_,
    Finset.subset_of_eq hlive⟩
  · unfold step
    simp only [hk, Option.bind_eq_bind, Option.bind_some, RuntimeArray.add, if_neg hcap, hrun,
      Option.map_some]
  · rw [← withRefs_append] at h'
    have hperm : ((st.setArray k ({ a with elems := a.elems ++ [f] }, s')).slots M).Perm
        (M.stored a.type [f] ++ st.slots M) := by
      refine (hset _).trans ?_
      show (M.stored a.type (a.elems ++ [f]) ++ R).Perm _
      rw [RuntimeObjs.stored_append]
      refine (List.perm_append_comm.append_right R).trans ?_
      rw [List.append_assoc]
      exact hslots.symm.append_left _
    rw [Holds, withRefs_perm hperm]
    exact h'

theorem setIndex_spec (h : st.Holds M held) {k i old : ℕ} {a : RuntimeArray}
    (hk : st.arrays[k]? = some a) (hi : a.elems[i]? = some old)
    (hcount : a.type.runtimeData ∨ M.stored a.type [old, f] = [])
    (hanchored : ∀ g ∈ M.stored a.type [f], Anchored M.refersTo (withRefs held
      (slots M (st.setArray k ({ a with elems := a.elems.eraseIdx i }, st.counts))))
        st.counts g) :
    ∃ st', st.step M (.arraySetIndex k i f) = some st' ∧ st'.Holds M held ∧
      st'.counts.live ⊆ st.counts.live := by
  obtain ⟨hold, hf⟩ := RuntimeObjs.stored_singleton_or hcount
  obtain ⟨R, hslots, hset, -⟩ := exists_rest_array (M := M) hk
  obtain ⟨hlt, rfl⟩ := List.getElem?_eq_some_iff.1 hi
  -- the elements, with the one at the index apart
  have hpermOld : (st.slots M).Perm
      (M.stored a.type [a.elems[i]] ++ (M.stored a.type (a.elems.eraseIdx i) ++ R)) := by
    refine hslots.trans ?_
    rw [← List.append_assoc, ← RuntimeObjs.stored_cons]
    exact ((List.getElem_cons_eraseIdx_perm hlt).symm.filter _).append_right R
  have hpermNew : ∀ s', ((st.setArray k ({ a with elems := a.elems.set i f }, s')).slots M).Perm
      (M.stored a.type [f] ++ (M.stored a.type (a.elems.eraseIdx i) ++ R)) := by
    intro s'
    refine (hset _).trans ?_
    rw [← List.append_assoc, ← RuntimeObjs.stored_cons]
    exact ((List.set_perm_cons_eraseIdx hlt f).filter _).append_right R
  rw [Holds, withRefs_perm hpermOld, withRefs_append] at h
  obtain ⟨s₁, hrun₁, h₁, hfewer⟩ := RuntimeObjs.decrementRuntimeData_spec hold h
  rw [withRefs_perm (hset _)] at hanchored
  have hvalid : M.Valid a.type [f] s₁ := fun g hg =>
    h₁.mem_live_of_anchored (fun x hx h0 => (hfewer.fresh x hx h0).1) (hanchored g hg)
  obtain ⟨s₂, hrun₂, h₂, hlive⟩ := RuntimeObjs.incrementRuntimeData_spec h₁ hf hvalid
  refine ⟨st.setArray k ({ a with elems := a.elems.set i f }, s₂), ?_, ?_, ?_⟩
  · unfold step
    simp only [hk, Option.bind_eq_bind, Option.bind_some, RuntimeArray.setIndex, hi, hrun₁, hrun₂]
    rfl
  · rw [← withRefs_append] at h₂
    rw [Holds, withRefs_perm (hpermNew s₂)]
    exact h₂
  · show s₂.live ⊆ st.counts.live
    rw [hlive]
    exact hfewer.live

theorem arrayDestroy_spec (h : st.Holds M held) {k : ℕ} {a : RuntimeArray}
    (hk : st.arrays[k]? = some a) (hcount : M.CountsAlike a.type a.elems) :
    ∃ st', st.step M (.arrayDestroy k) = some st' ∧ st'.Holds M held ∧
      st'.counts.live ⊆ st.counts.live := by
  obtain ⟨R, hslots, -, herase⟩ := exists_rest_array (M := M) hk
  rw [Holds, withRefs_perm hslots, withRefs_append] at h
  obtain ⟨s', hrun, h', hsub⟩ := RuntimeObjs.decrementElems_spec hcount h
  refine ⟨{ st with counts := s', arrays := st.arrays.eraseIdx k }, ?_, ?_, hsub⟩
  · unfold step
    simp only [hk, Option.bind_eq_bind, Option.bind_some, RuntimeArray.destroy, hrun]
    rfl
  · rw [Holds, withRefs_perm (herase s')]
    exact h'

/-! ## Sets -/

/-- The elements of a set with one more. -/
theorem stored_insert (S : RuntimeSet) (hf : M.stored S.type [f] = [] ∨ f ∉ S.data) :
    (M.stored S.type (RuntimeSet.elems { S with data := insert f S.data })).Perm
      (M.stored S.type [f] ++ S.stored M) := by
  by_cases hmem : f ∈ S.data
  · rw [hf.resolve_right fun hnot => hnot hmem, Finset.insert_eq_of_mem hmem]
    exact List.Perm.refl _
  · have hperm : ((insert f S.data).sort (· ≤ ·)).Perm (f :: S.data.sort (· ≤ ·)) :=
      (Finset.sort_perm_toList _ _).trans ((Finset.toList_insert hmem).trans
        ((Finset.sort_perm_toList _ _).symm.cons f))
    show (M.stored S.type ((insert f S.data).sort (· ≤ ·))).Perm _
    unfold RuntimeSet.stored RuntimeSet.elems
    rw [← RuntimeObjs.stored_cons]
    exact hperm.filter _

/-- An element is added to a set. -/
theorem add_spec (S : RuntimeSet) (h : Accounted M.refersTo ext s)
    (hcount : S.type.runtimeData ∨ M.stored S.type [f] = [])
    (hvalid : M.Valid S.type [f] s) :
    ∃ s', S.add M f s = some ({ S with data := insert f S.data }, s') ∧
      Accounted M.refersTo (withRefs ext (M.stored S.type [f])) s' ∧ s'.live = s.live := by
  obtain ⟨s', hrun, h', hlive⟩ := RuntimeObjs.incrementRuntimeData_spec h hcount hvalid
  refine ⟨s', ?_, h', hlive⟩
  rw [RuntimeSet.add, hrun]
  rfl

theorem mem_stored_singleton {a : ℕ} : a ∈ M.stored t [f] ↔ a = f ∧ M.counted t f := by
  rw [RuntimeObjs.stored, List.mem_filter, List.mem_singleton]
  exact and_congr_right fun heq => by rw [heq]

theorem stored_singleton_eq_nil (h : M.counted t f = false) : M.stored t [f] = [] := by
  rw [RuntimeObjs.stored, List.filter_singleton, h]
  rfl

/-- Elements that are not in the set yet are added to it. -/
theorem addAll_spec (S : RuntimeSet) {v : List ℕ} (h : Accounted M.refersTo ext s)
    (hcount : S.type.runtimeData ∨ M.stored S.type v = []) (hnodup : (M.stored S.type v).Nodup)
    (hnew : ∀ f ∈ M.stored S.type v, f ∉ S.data) (hvalid : M.Valid S.type v s) :
    ∃ S' s', S.addAll M v s = some (S', s') ∧
      Accounted M.refersTo (withRefs ext (M.stored S.type v)) s' ∧
        (S'.stored M).Perm (M.stored S.type v ++ S.stored M) ∧ s'.live = s.live := by
  induction v generalizing S s ext with
  | nil =>
    refine ⟨S, s, rfl, ?_, List.Perm.refl _, rfl⟩
    rwa [RuntimeObjs.stored, List.filter_nil, withRefs_nil]
  | cons f v ih =>
    obtain ⟨hf, hv⟩ := RuntimeObjs.stored_singleton_or hcount
    rw [RuntimeObjs.Valid, RuntimeObjs.stored_cons] at hvalid
    rw [RuntimeObjs.stored_cons] at hnodup hnew ⊢
    obtain ⟨-, hnodup', hdisj⟩ := List.nodup_append'.1 hnodup
    obtain ⟨s₁, hrun, h₁, hlive⟩ := add_spec S h hf fun a ha => hvalid a (List.mem_append_left _ ha)
    have hfresh : M.stored S.type [f] = [] ∨ f ∉ S.data := by
      cases hcounted : M.counted S.type f with
      | false => exact Or.inl (stored_singleton_eq_nil hcounted)
      | true =>
        exact Or.inr (hnew f (List.mem_append_left _ (mem_stored_singleton.2 ⟨rfl, hcounted⟩)))
    have hnew' : ∀ g ∈ M.stored S.type v, g ∉ insert f S.data := by
      intro g hg hmem
      rcases Finset.mem_insert.1 hmem with rfl | hmem
      · have hcounted := (List.mem_filter.1 hg).2
        exact hdisj (mem_stored_singleton.2 ⟨rfl, hcounted⟩) hg
      · exact hnew g (List.mem_append_right _ hg) hmem
    obtain ⟨S', s', hrun', h', hperm, hlive'⟩ := ih { S with data := insert f S.data } h₁ hv
      hnodup' hnew' fun a ha => by
        rw [hlive]
        exact hvalid a (List.mem_append_right _ ha)
    refine ⟨S', s', ?_, ?_, ?_, hlive'.trans hlive⟩
    · rw [RuntimeSet.addAll, hrun]
      exact hrun'
    · rw [withRefs_perm List.perm_append_comm, withRefs_append]
      exact h'
    · refine hperm.trans (((stored_insert S hfresh).append_left _).trans ?_)
      rw [← List.append_assoc]
      exact List.perm_append_comm.append_right _

theorem stored_createEmpty (t : FieldType) : RuntimeSet.stored M (.createEmpty t) = [] := by
  simp [RuntimeSet.stored, RuntimeSet.elems, RuntimeSet.createEmpty, RuntimeObjs.stored]

theorem setCreateFromVector_spec (h : st.Holds M held) {v : List ℕ}
    (hv : t.isReference → (t.runtimeData ∨ M.stored t v = []) ∧ (M.stored t v).Nodup ∧
      M.Valid t v st.counts) :
    ∃ st', st.step M (.setCreateFromVector t v) = some st' ∧ st'.Holds M held ∧
      st'.counts.live ⊆ st.counts.live := by
  show ∃ st', (RuntimeSet.createFromVector M t v st.counts).map st.newSet = some st' ∧ _
  rw [RuntimeSet.createFromVector]
  by_cases href : t.isReference
  · rw [if_pos href]
    obtain ⟨hcount, hnodup, hvalid⟩ := hv href
    obtain ⟨S', s', hrun, h', hperm, hlive⟩ := addAll_spec (RuntimeSet.createEmpty t) h hcount
      hnodup (fun f _ => Finset.notMem_empty f) hvalid
    rw [stored_createEmpty, List.append_nil] at hperm
    refine ⟨st.newSet (S', s'), by rw [hrun]; rfl, holds_newSet ?_, Finset.subset_of_eq hlive⟩
    rw [withRefs_perm hperm]
    exact h'
  · rw [if_neg href]
    refine ⟨_, rfl, holds_newSet ?_, Finset.Subset.refl _⟩
    rw [stored_createEmpty, withRefs_nil]
    exact h

theorem setMutateAdd_spec (h : st.Holds M held) {k : ℕ} {S : RuntimeSet}
    (hk : st.sets[k]? = some S) (hold : M.stored S.type S.elems = [])
    (hcount : S.type.runtimeData ∨ M.stored S.type [f] = [])
    (hvalid : M.Valid S.type [f] st.counts) :
    ∃ st', st.step M (.setMutateAdd k f) = some st' ∧ st'.Holds M held ∧
      st'.counts.live ⊆ st.counts.live := by
  obtain ⟨s', hrun, h', hlive⟩ := add_spec S h hcount hvalid
  have hfresh : M.stored S.type [f] = [] ∨ f ∉ S.data := by
    cases hcounted : M.counted S.type f with
    | false => exact Or.inl (stored_singleton_eq_nil hcounted)
    | true =>
      refine Or.inr fun hmem => ?_
      have hf : f ∈ M.stored S.type S.elems :=
        List.mem_filter.2 ⟨(Finset.mem_sort _).2 hmem, hcounted⟩
      rw [hold] at hf
      cases hf
  have hperm := stored_insert S hfresh
  rw [RuntimeSet.stored, hold, List.append_nil] at hperm
  refine ⟨st.newSet ({ S with data := insert f S.data }, s'), ?_, holds_newSet ?_,
    Finset.subset_of_eq hlive⟩
  · unfold step
    simp only [hk, Option.bind_eq_bind, Option.bind_some, RuntimeSet.mutateAdd]
    rw [hrun]
    rfl
  · rw [RuntimeSet.stored, withRefs_perm hperm]
    exact h'

theorem setAdd_spec (h : st.Holds M held) {k : ℕ} {S : RuntimeSet} (hk : st.sets[k]? = some S)
    (hcount : M.stored S.type [f] = [] ∨ S.type.runtimeData ∧ f ∉ S.data)
    (hvalid : M.Valid S.type [f] st.counts) :
    ∃ st', st.step M (.setAdd k f) = some st' ∧ st'.Holds M held ∧
      st'.counts.live ⊆ st.counts.live := by
  obtain ⟨s', hrun, h', hlive⟩ := add_spec S h (hcount.symm.imp_left And.left) hvalid
  obtain ⟨R, hslots, hset, -⟩ := exists_rest_set (M := M) hk
  refine ⟨st.setSet k ({ S with data := insert f S.data }, s'), ?_, ?_,
    Finset.subset_of_eq hlive⟩
  · unfold step
    simp only [hk, Option.bind_eq_bind, Option.bind_some]
    rw [hrun]
    rfl
  · rw [← withRefs_append] at h'
    have hperm : ((st.setSet k ({ S with data := insert f S.data }, s')).slots M).Perm
        (M.stored S.type [f] ++ st.slots M) := by
      refine (hset _).trans ?_
      refine ((stored_insert S (hcount.imp_right And.right)).append_right R).trans ?_
      rw [List.append_assoc]
      exact hslots.symm.append_left _
    rw [Holds, withRefs_perm hperm]
    exact h'

theorem setDestroy_spec (h : st.Holds M held) {k : ℕ} {S : RuntimeSet}
    (hk : st.sets[k]? = some S) (hcount : M.CountsAlike S.type S.elems) :
    ∃ st', st.step M (.setDestroy k) = some st' ∧ st'.Holds M held ∧
      st'.counts.live ⊆ st.counts.live := by
  obtain ⟨R, hslots, -, herase⟩ := exists_rest_set (M := M) hk
  rw [Holds, withRefs_perm hslots, withRefs_append] at h
  obtain ⟨s', hrun, h', hsub⟩ := RuntimeObjs.decrementElems_spec hcount h
  refine ⟨{ st with counts := s', sets := st.sets.eraseIdx k }, ?_, ?_, hsub⟩
  · unfold step
    simp only [hk, Option.bind_eq_bind, Option.bind_some, RuntimeSet.destroy, hrun]
    rfl
  · rw [Holds, withRefs_perm (herase s')]
    exact h'

/-! ## Runs -/

/-- **A sound call** is defined, and keeps the counts right. -/
theorem step_spec (h : st.Holds M held) {op : ContainerOp} (hop : st.Sound M held op) :
    ∃ st', st.step M op = some st' ∧ st'.Holds M held ∧ st'.counts.live ⊆ st.counts.live := by
  cases op with
  | arrayCreateEmpty t initCap =>
    refine ⟨_, rfl, holds_newArray ?_, Finset.Subset.refl _⟩
    rw [show RuntimeArray.stored M (.createEmpty t initCap) = [] from rfl, withRefs_nil]
    exact h
  | arrayCreateFill t size f => exact holds_create h (size * 2) hop.1 hop.2
  | arrayCreateFromVector t v => exact holds_create h (v.length * 2) hop.1 hop.2
  | arrayMutate k idx f =>
    obtain ⟨a, hk, hidx, hcount, hvalid⟩ := hop
    exact mutate_spec h hk hidx hcount hvalid
  | arrayMutateAdd k f =>
    obtain ⟨a, hk, hcap, hcount, hvalid⟩ := hop
    exact mutateAdd_spec h hk hcap hcount hvalid
  | arrayAdd k f =>
    obtain ⟨a, hk, hcap, hcount, hvalid⟩ := hop
    exact arrayAdd_spec h hk hcap hcount hvalid
  | arraySetIndex k i f =>
    obtain ⟨a, old, hk, hi, hcount, hanchored⟩ := hop
    exact setIndex_spec h hk hi hcount hanchored
  | arrayDestroy k =>
    obtain ⟨a, hk, hcount⟩ := hop
    exact arrayDestroy_spec h hk hcount
  | setCreateEmpty t =>
    refine ⟨_, rfl, holds_newSet ?_, Finset.Subset.refl _⟩
    rw [stored_createEmpty, withRefs_nil]
    exact h
  | setCreateFromVector t v => exact setCreateFromVector_spec h hop
  | setMutateAdd k f =>
    obtain ⟨S, hk, hold, hcount, hvalid⟩ := hop
    exact setMutateAdd_spec h hk hold hcount hvalid
  | setAdd k f =>
    obtain ⟨S, hk, hcount, hvalid⟩ := hop
    exact setAdd_spec h hk hcount hvalid
  | setDestroy k =>
    obtain ⟨S, hk, hcount⟩ := hop
    exact setDestroy_spec h hk hcount

/-- Every call of a sequence is sound when it is made. -/
def SoundRun (M : RuntimeObjs) (held : ℕ → ℕ) : List ContainerOp → RuntimeState → Prop
  | [], _ => True
  | op :: ops, st =>
    st.Sound M held op ∧ ∀ st', st.step M op = some st' → SoundRun M held ops st'

theorem run_spec {ops : List ContainerOp} (h : st.Holds M held) (hops : SoundRun M held ops st) :
    ∃ st', run M ops st = some st' ∧ st'.Holds M held ∧ st'.counts.live ⊆ st.counts.live := by
  induction ops generalizing st with
  | nil => exact ⟨st, rfl, h, Finset.Subset.refl _⟩
  | cons op ops ih =>
    obtain ⟨hop, hrest⟩ := hops
    obtain ⟨st₁, hstep, h₁, hsub⟩ := step_spec h hop
    obtain ⟨st', hrun, h', hsub'⟩ := ih h₁ (hrest st₁ hstep)
    refine ⟨st', ?_, h', hsub'.trans hsub⟩
    rw [run, List.foldlM_cons, hstep]
    exact hrun

/-- **The references of the containers**: from a state without containers, sound calls keep one
reference for every object that is stored; and if every object had a reference at the beginning,
then with all containers destroyed nothing has changed. -/
theorem containers_balanced {s₀ : Counts ℕ} (h₀ : Accounted M.refersTo held s₀)
    {ops : List ContainerOp} (hops : SoundRun M held ops ⟨s₀, [], []⟩) :
    ∃ st, run M ops ⟨s₀, [], []⟩ = some st ∧ st.Holds M held ∧
      (st.arrays = [] → st.sets = [] → (∀ a ∈ s₀.live, 0 < s₀.refs a) →
        (∃ rank : ℕ → ℕ, ∀ a, ∀ b ∈ M.refersTo a, rank b < rank a) →
          st.counts.live = s₀.live ∧ ∀ a ∈ s₀.live, st.counts.refs a = s₀.refs a) := by
  have hholds : RuntimeState.Holds M held ⟨s₀, [], []⟩ := by
    rw [Holds, show slots M ⟨s₀, [], []⟩ = [] from rfl, withRefs_nil]
    exact h₀
  obtain ⟨st, hrun, h, hsub⟩ := run_spec hholds hops
  refine ⟨st, hrun, h, ?_⟩
  rintro harrays hsets hpos ⟨rank, hrank⟩
  have hslots : st.slots M = [] := by
    rw [slots, harrays, hsets]
    rfl
  rw [Holds, hslots, withRefs_nil] at h
  exact h₀.eq_of_pos h hsub hpos rank hrank

/-- An array of a list that is also held outside, filled and destroyed. -/
theorem containers_balanced_list :
    ∃ st, run ⟨fun _ => .cons .int 7 0, fun _ => false⟩
        [.arrayCreateFill (.list .int) 1 1, .arrayDestroy 0] ⟨⟨{1}, fun _ => 1⟩, [], []⟩ = some st ∧
      1 ∈ st.counts.live ∧ st.counts.refs 1 = 1 := by
  set M : RuntimeObjs := ⟨fun _ => .cons .int 7 0, fun _ => false⟩ with hM
  have hrefersTo : ∀ a, M.refersTo a = [] := fun a => rfl
  have h₀ : Accounted M.refersTo (fun a => if a = 1 then 1 else 0) ⟨{1}, fun _ => 1⟩ := by
    refine ⟨fun a ha => ?_, fun a ha => ?_⟩
    · rw [Finset.mem_singleton.1 ha]
      simp [RefCount.inner, hrefersTo]
    · rw [Finset.mem_singleton]
      by_contra hne
      simp [RefCount.inner, hrefersTo, hne] at ha
  have hops : SoundRun M (fun a => if a = 1 then 1 else 0)
      [.arrayCreateFill (.list .int) 1 1, .arrayDestroy 0] ⟨⟨{1}, fun _ => 1⟩, [], []⟩ := by
    refine ⟨⟨Or.inl ⟨rfl, rfl⟩, fun a ha => ?_⟩, fun st hst => ⟨?_, fun _ _ => trivial⟩⟩
    · exact Finset.mem_singleton.2 (mem_stored_singleton.1 ha).1
    · obtain rfl := Option.some.inj hst
      exact ⟨_, rfl, Or.inl ⟨rfl, rfl⟩⟩
  obtain ⟨st, hrun, -, hsame⟩ := containers_balanced h₀ hops
  have hdone : st.arrays = [] ∧ st.sets = [] := by
    obtain rfl := Option.some.inj hrun
    exact ⟨rfl, rfl⟩
  obtain ⟨hlive, hrefs⟩ := hsame hdone.1 hdone.2 (fun _ _ => Nat.one_pos)
    ⟨fun _ => 0, fun a b hb => by rw [hrefersTo] at hb; cases hb⟩
  exact ⟨st, hrun, hlive ▸ Finset.mem_singleton_self 1, hrefs 1 (Finset.mem_singleton_self 1)⟩

/-- **Strings are not counted alike**: `create_fill` takes no reference on a string and `set_index`
gives one back, which frees a string that is held outside; `add` takes a reference and `destroy`
does not give it back. -/
theorem strings_not_balanced :
    ∃ M : RuntimeObjs, ∃ held s₀, Accounted M.refersTo held s₀ ∧ 0 < held 1 ∧ s₀.refs 1 = 1 ∧
      (∃ st, run M [.arrayCreateFill .string 1 1, .arraySetIndex 0 0 0, .arrayDestroy 0]
        ⟨s₀, [], []⟩ = some st ∧ 1 ∉ st.counts.live) ∧
      ∃ st, run M [.arrayCreateEmpty .string 8, .arrayAdd 0 1, .arrayDestroy 0]
        ⟨s₀, [], []⟩ = some st ∧ st.counts.refs 1 = 2 := by
  refine ⟨⟨fun _ => .string, fun _ => false⟩, fun a => if a = 1 then 1 else 0,
    ⟨{1}, fun _ => 1⟩, ⟨fun a ha => ?_, fun a ha => ?_⟩, Nat.one_pos, rfl, ⟨_, rfl, ?_⟩, _, rfl, rfl⟩
  · rw [Finset.mem_singleton.1 ha]
    rfl
  · rw [Finset.mem_singleton]
    by_contra hne
    simp [RefCount.inner, RuntimeObjs.refersTo, hne] at ha
  · show 1 ∉ ({1} : Finset ℕ).erase 1
    exact Finset.notMem_erase 1 {1}

end RuntimeState

end Containers

end Meld
