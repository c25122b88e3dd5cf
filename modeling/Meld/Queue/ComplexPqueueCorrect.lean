import Meld.Lib.HeapOrder
import Meld.Queue.ComplexPqueue
import Mathlib.Data.List.Perm.Basic
import Mathlib.Data.Multiset.AddSub

/-!
# The priority heaps are heaps

Every operation on a priority heap keeps it in heap order, keeps the position and the queue number
of its members, and adds and removes exactly the members it says.

* `heapifyup_spec`, `heapifydown_spec`: the sifts close a gap in the heap order.
* `Valid`: heap order, and the position and the queue number of a member are right.
* `doInsert_valid`, `doPop_valid`, `doRemove_valid`, `moveNode_valid`, `popHalf_valid`: the
  operations of one heap.
-/

namespace Meld
namespace Pqueue

open HeapOrder

variable {ι π : Type}

/-! ## Keys -/

/-- The priority at a position. -/
def keys (s : Pqueue ι π) (i : ℕ) : Option π := (s.heap[i]?).map fun x => (s.obj x).priority

/-- The comparison of the heap, with positions outside the array behind all others. -/
def Before [LE π] (typ : HeapType) : Option π → Option π → Prop
  | _, none => True
  | none, some _ => False
  | some a, some b => match typ with | .asc => a ≤ b | .desc => b ≤ a

theorem compares_before [Preorder π] [Std.Total (α := π) (· ≤ ·)] (typ : HeapType) :
    Compares (Before (π := π) typ) := by
  constructor
  · intro a b c hab hbc
    cases c with
    | none => trivial
    | some c =>
      cases b with
      | none => exact hbc.elim
      | some b =>
        cases a with
        | none => exact hab.elim
        | some a =>
          cases typ with
          | asc => exact le_trans hab hbc
          | desc => exact le_trans hbc hab
  · intro a b
    cases a with
    | none => exact Or.inr (by cases b <;> trivial)
    | some a =>
      cases b with
      | none => exact Or.inl trivial
      | some b =>
        cases typ with
        | asc => exact Std.Total.total (r := fun a b : π => a ≤ b) a b
        | desc => exact Std.Total.total (r := fun a b : π => a ≤ b) b a

section Keys

variable {s : Pqueue ι π} {x y : ι} {i j : ℕ}

theorem keys_of_getElem (hx : s.heap[i]? = some x) : s.keys i = some (s.obj x).priority := by
  rw [keys, hx, Option.map_some]

theorem compareObj_iff [LE π] [DecidableLE π] (hx : s.heap[i]? = some x)
    (hy : s.heap[j]? = some y) :
    s.compareObj x y = true ↔ Before s.typ (s.keys i) (s.keys j) := by
  rw [keys_of_getElem hx, keys_of_getElem hy, compareObj]
  cases s.typ with
  | asc => exact decide_eq_true_iff
  | desc => exact decide_eq_true_iff

end Keys

/-! ## Positions -/

/-- Members are where their position says. -/
def Placed (s : Pqueue ι π) : Prop := ∀ i x, s.heap[i]? = some x → (s.obj x).pos = i

theorem Placed.nodup {s : Pqueue ι π} (hp : s.Placed) : s.heap.Nodup := by
  refine List.nodup_iff_getElem?_ne_getElem?.mpr ?_
  intro i j hij hj heq
  have hx : s.heap[j]? = some s.heap[j] := List.getElem?_eq_getElem hj
  exact absurd ((hp i _ (heq.trans hx)).symm.trans (hp j _ hx)) (by omega)

/-- What a sift may change: the order of the array and the positions of the members. -/
structure Sifted (s s' : Pqueue ι π) : Prop where
  queueNumber : s'.queueNumber = s.queueNumber
  typ : s'.typ = s.typ
  perm : s'.heap.Perm s.heap
  priority : ∀ x, (s'.obj x).priority = (s.obj x).priority
  queue : ∀ x, (s'.obj x).queue = (s.obj x).queue
  elsewhere : ∀ x, x ∉ s.heap → s'.obj x = s.obj x

theorem Sifted.refl (s : Pqueue ι π) : Sifted s s :=
  ⟨rfl, rfl, List.Perm.refl _, fun _ => rfl, fun _ => rfl, fun _ _ => rfl⟩

theorem Sifted.trans {s t u : Pqueue ι π} (h : Sifted s t) (h' : Sifted t u) : Sifted s u where
  queueNumber := h'.queueNumber.trans h.queueNumber
  typ := h'.typ.trans h.typ
  perm := h'.perm.trans h.perm
  priority := fun x => (h'.priority x).trans (h.priority x)
  queue := fun x => (h'.queue x).trans (h.queue x)
  elsewhere := fun x hx =>
    (h'.elsewhere x fun hm => hx (h.perm.mem_iff.mp hm)).trans (h.elsewhere x hx)

theorem Sifted.length_eq {s s' : Pqueue ι π} (h : Sifted s s') :
    s'.heap.length = s.heap.length := h.perm.length_eq

/-! ## Positions as `int`s -/

/-- Positions below `2^31` are `int`s. -/
theorem toInt_eq {n : ℕ} (hn : n < 2147483648) : toInt n = n := by
  rw [toInt, BitVec.toInt_eq_toNat_of_lt]
  · rw [BitVec.toNat_ofNat, Nat.mod_eq_of_lt (by omega)]
  · rw [BitVec.toNat_ofNat, Nat.mod_eq_of_lt (by omega)]
    omega

theorem toNat_toInt {n : ℕ} (hn : n < 2147483648) : (toInt n).toNat = n := by
  rw [toInt_eq hn, Int.toNat_natCast]

section Children

variable {s : Pqueue ι π} {k : ℕ}

theorem left_eq (hs : s.heap.length < 1073741824) (hk : k < s.heap.length) :
    s.left k = if 2 * k + 1 < s.heap.length then ((2 * k + 1 : ℕ) : ℤ) else -1 := by
  simp only [left, toInt_eq (n := 2 * k + 1) (by omega), toInt_eq (n := s.heap.length) (by omega),
    Int.ofNat_lt]

theorem right_eq (hs : s.heap.length < 1073741824) (hk : k < s.heap.length) :
    s.right k = if 2 * k + 2 < s.heap.length then ((2 * k + 2 : ℕ) : ℤ) else -1 := by
  simp only [right, toInt_eq (n := 2 * k + 2) (by omega), toInt_eq (n := s.heap.length) (by omega),
    Int.ofNat_lt]

@[simp] theorem at?_natCast (i : ℕ) : s.at? (i : ℤ) = s.heap[i]? := by
  rw [at?, if_pos (Int.natCast_nonneg i), Int.toNat_natCast]

theorem at?_left (hs : s.heap.length < 1073741824) (hk : k < s.heap.length) :
    s.at? (s.left k) = s.heap[2 * k + 1]? := by
  rw [left_eq hs hk]
  split
  · rw [at?_natCast]
  · rename_i hle
    rw [List.getElem?_eq_none (Nat.not_lt.mp hle)]
    rfl

theorem at?_right (hs : s.heap.length < 1073741824) (hk : k < s.heap.length) :
    s.at? (s.right k) = s.heap[2 * k + 2]? := by
  rw [right_eq hs hk]
  split
  · rw [at?_natCast]
  · rename_i hle
    rw [List.getElem?_eq_none (Nat.not_lt.mp hle)]
    rfl

theorem parent_eq (hk : 0 < k) : Pqueue.parent k = (HeapOrder.parent k : ℕ) := by
  rw [Pqueue.parent, if_pos (by omega), HeapOrder.parent]

end Children

/-! ## Swapping -/

variable [DecidableEq ι]

/-- What `HEAP_SET_INDEX` does. -/
structure IndexSet (s s' : Pqueue ι π) (i : ℕ) (x : ι) : Prop where
  heap : s'.heap = s.heap.set i x
  queueNumber : s'.queueNumber = s.queueNumber
  typ : s'.typ = s.typ
  priority : ∀ z, (s'.obj z).priority = (s.obj z).priority
  queue : ∀ z, (s'.obj z).queue = (s.obj z).queue
  pos : (s'.obj x).pos = i
  elsewhere : ∀ z, z ≠ x → s'.obj z = s.obj z

theorem setIndex_spec (s : Pqueue ι π) {i : ℕ} (x : ι) (hi : i < s.heap.length) :
    ∃ s', s.setIndex i x = some s' ∧ IndexSet s s' i x := by
  refine ⟨_, if_pos hi, rfl, rfl, rfl, ?_, ?_, ?_, ?_⟩
  · intro z
    by_cases hz : z = x
    · subst hz
      simp
    · simp [hz]
  · intro z
    by_cases hz : z = x
    · subst hz
      simp
    · simp [hz]
  · simp
  · intro z hz
    simp [hz]

/-- Two elements change places. -/
theorem setIndex_swap {s : Pqueue ι π} (hp : s.Placed) {i j : ℕ} {x y : ι} (hij : i ≠ j)
    (hx : s.heap[i]? = some x) (hy : s.heap[j]? = some y) :
    ∃ s₁ s₂, s.setIndex j x = some s₁ ∧ s₁.setIndex i y = some s₂ ∧ Sifted s s₂ ∧ s₂.Placed ∧
      s₂.keys = swapped s.keys i j ∧ ∀ k, k ≠ i → k ≠ j → s₂.heap[k]? = s.heap[k]? := by
  obtain ⟨hi, hxi⟩ := List.getElem?_eq_some_iff.mp hx
  obtain ⟨hj, hyj⟩ := List.getElem?_eq_some_iff.mp hy
  have hxy : x ≠ y := by
    rintro rfl
    exact hij ((hp i x hx).symm.trans (hp j x hy))
  obtain ⟨s₁, h₁, ok₁⟩ := setIndex_spec s x hj
  obtain ⟨s₂, h₂, ok₂⟩ := setIndex_spec s₁ (i := i) y (by rwa [ok₁.heap, List.length_set])
  have hheap : s₂.heap = (s.heap.set j x).set i y := by rw [ok₂.heap, ok₁.heap]
  have hget : ∀ k, s₂.heap[k]? =
      if i = k then some y else if j = k then some x else s.heap[k]? := by
    intro k
    rw [hheap, List.getElem?_set, List.getElem?_set, List.length_set]
    by_cases hki : i = k
    · subst hki
      simp [hi]
    · by_cases hkj : j = k
      · subst hkj
        simp [hki, hj]
      · simp [hki, hkj]
  have hprio : ∀ z, (s₂.obj z).priority = (s.obj z).priority :=
    fun z => (ok₂.priority z).trans (ok₁.priority z)
  refine ⟨s₁, s₂, h₁, h₂, ⟨ok₂.queueNumber.trans ok₁.queueNumber, ok₂.typ.trans ok₁.typ, ?_, hprio,
    fun z => (ok₂.queue z).trans (ok₁.queue z), ?_⟩, ?_, ?_, ?_⟩
  · have hperm := List.set_set_perm hj hi
    rwa [hxi, hyj, ← hheap] at hperm
  · intro z hz
    have hzx : z ≠ x := fun heq => hz (heq ▸ List.mem_of_getElem? hx)
    have hzy : z ≠ y := fun heq => hz (heq ▸ List.mem_of_getElem? hy)
    exact (ok₂.elsewhere z hzy).trans (ok₁.elsewhere z hzx)
  · intro k z hz
    rw [hget] at hz
    by_cases hki : i = k
    · rw [if_pos hki, Option.some.injEq] at hz
      rw [← hz, ok₂.pos, hki]
    · by_cases hkj : j = k
      · rw [if_neg hki, if_pos hkj, Option.some.injEq] at hz
        rw [← hz, ok₂.elsewhere x hxy, ok₁.pos, hkj]
      · rw [if_neg hki, if_neg hkj] at hz
        have hzx : z ≠ x := by
          rintro rfl
          exact hki ((hp i z hx).symm.trans (hp k z hz))
        have hzy : z ≠ y := by
          rintro rfl
          exact hkj ((hp j z hy).symm.trans (hp k z hz))
        rw [ok₂.elsewhere z hzy, ok₁.elsewhere z hzx]
        exact hp k z hz
  · funext k
    simp only [keys, hprio, hget]
    by_cases hki : i = k
    · subst hki
      rw [if_pos rfl, swapped_left, keys, hy]
    · by_cases hkj : j = k
      · subst hkj
        rw [if_neg hki, if_pos rfl, swapped_right, keys, hx]
      · rw [if_neg hki, if_neg hkj, swapped_of_ne (Ne.symm hki) (Ne.symm hkj), keys]
  · intro k hki hkj
    rw [hget, if_neg (Ne.symm hki), if_neg (Ne.symm hkj)]

/-! ## The sifts -/

/-! ## The sifts -/

section Sifts

variable [Preorder π] [DecidableLE π] [Std.Total (α := π) (· ≤ ·)]

/-- **Sifting up** closes a gap towards the parent.  An element that is not before the root does not
take its place. -/
theorem heapifyup_spec {s : Pqueue ι π} (hp : s.Placed) {k : ℕ} (hk : k < s.heap.length)
    (up : Up (Before s.typ) s.keys s.heap.length k) (fuel : ℕ) (hfuel : k < fuel) (moved : Bool) :
    ∃ s' b, heapifyup fuel s k moved = some (s', b) ∧ Sifted s s' ∧ s'.Placed ∧
      Ordered (Before s'.typ) s'.keys s'.heap.length ∧
      (Before s.typ (s.keys 0) (s.keys k) → s'.heap[0]? = s.heap[0]?) := by
  induction fuel generalizing s k moved with
  | zero => exact absurd hfuel (Nat.not_lt_zero k)
  | succ fuel ih =>
    rcases Nat.eq_zero_or_pos k with rfl | hpos
    · refine ⟨s, moved, ?_, Sifted.refl s, hp, up.close fun h => absurd h (lt_irrefl 0),
        fun _ => rfl⟩
      rw [heapifyup, if_neg (by omega)]
    · have hpk := parent_lt hpos
      obtain ⟨x, hx⟩ : ∃ x, s.heap[k]? = some x := ⟨_, List.getElem?_eq_getElem hk⟩
      obtain ⟨y, hy⟩ : ∃ y, s.heap[HeapOrder.parent k]? = some y :=
        ⟨_, List.getElem?_eq_getElem (hpk.trans hk)⟩
      have hcond : k > 0 ∧ Pqueue.parent k ≥ 0 := by
        refine ⟨hpos, ?_⟩
        rw [parent_eq hpos]
        exact Int.natCast_nonneg _
      have hunfold : heapifyup (fuel + 1) s k moved =
          if ¬ s.compareObj y x then
            (s.setIndex (HeapOrder.parent k) x).bind fun s => (s.setIndex k y).bind fun s =>
              heapifyup fuel s (HeapOrder.parent k) true
          else some (s, moved) := by
        rw [heapifyup, if_pos hcond, parent_eq hpos, at?_natCast, at?_natCast, hx, hy,
          Int.toNat_natCast]
        rfl
      rw [hunfold]
      by_cases hle : s.compareObj y x = true
      · rw [if_neg (not_not.mpr hle)]
        exact ⟨s, moved, rfl, Sifted.refl s, hp, up.close fun _ => (compareObj_iff hy hx).mp hle,
          fun _ => rfl⟩
      · rw [if_pos hle]
        obtain ⟨s₁, s₂, h₁, h₂, hsift, hp₂, hkeys, hrest⟩ := setIndex_swap hp hpk.ne' hx hy
        rw [h₁, Option.bind_some, h₂, Option.bind_some]
        have up₂ := up.swap (compares_before s.typ) hpos hk
          fun h => hle ((compareObj_iff hy hx).mpr h)
        rw [← hkeys, ← hsift.typ, ← hsift.length_eq] at up₂
        obtain ⟨s', b, hs', hsift', hp', hord, hroot⟩ :=
          ih hp₂ (by rw [hsift.length_eq]; exact hpk.trans hk) up₂ (by omega) true
        refine ⟨s', b, hs', hsift.trans hsift', hp', hord, ?_⟩
        intro hbefore
        have hpar : HeapOrder.parent k ≠ 0 := by
          intro hzero
          exact hle ((compareObj_iff hy hx).mpr (by rwa [hzero]))
        rw [hroot, hrest 0 (by omega) (Ne.symm hpar)]
        rw [hsift.typ, hkeys, swapped_right, swapped_of_ne (by omega) (Ne.symm hpar)]
        exact hbefore

/-- The child that `heapifydown` changes places with. -/
def smaller (s : Pqueue ι π) (k : ℕ) (y : ι) : ℕ :=
  if (s.heap[2 * k + 2]?).any (fun z => s.compareObj z y) then 2 * k + 2 else 2 * k + 1

omit [Std.Total (α := π) (· ≤ ·)] in
theorem heapifydown_eq {s : Pqueue ι π} (hs : s.heap.length < 1073741824) {k : ℕ} {x y w : ι}
    (hk : 2 * k + 1 < s.heap.length) (hx : s.heap[k]? = some x) (hy : s.heap[2 * k + 1]? = some y)
    (hw : s.heap[s.smaller k y]? = some w) (fuel : ℕ) :
    heapifydown (fuel + 1) s k =
      if s.compareObj x y && (s.heap[2 * k + 2]?).all (s.compareObj x) then some s
      else (s.setIndex k w).bind fun s₁ => (s₁.setIndex (s.smaller k y) x).bind fun s₂ =>
        heapifydown fuel s₂ (s.smaller k y) := by
  have hk' : k < s.heap.length := by omega
  have hleft : s.left k = ((2 * k + 1 : ℕ) : ℤ) := by rw [left_eq hs hk', if_pos hk]
  have hsmall : (if (s.heap[2 * k + 2]?).any (fun z => s.compareObj z y) then s.right k
      else s.left k) = (s.smaller k y : ℤ) := by
    rw [smaller]
    split
    · rename_i hany
      have hlt : 2 * k + 2 < s.heap.length := by
        by_contra hge
        rw [List.getElem?_eq_none (Nat.not_lt.mp hge)] at hany
        cases hany
      rw [right_eq hs hk', if_pos hlt]
    · exact hleft
  rw [heapifydown]
  simp only [at?_right hs hk', at?_left hs hk', at?_natCast]
  rw [if_neg (by rw [hleft]; omega), hx, hy]
  simp only [Option.bind_eq_bind, Option.bind_some, hsmall, at?_natCast, Int.toNat_natCast, hw]

omit [DecidableEq ι] in
/-- The child that is chosen is there, and no other is before it. -/
theorem smaller_spec {s : Pqueue ι π} {k : ℕ} {y : ι} (hy : s.heap[2 * k + 1]? = some y) :
    s.smaller k y < s.heap.length ∧ HeapOrder.parent (s.smaller k y) = k ∧ k < s.smaller k y ∧
      ∀ i, 0 < i → i < s.heap.length → HeapOrder.parent i = k →
        Before s.typ (s.keys (s.smaller k y)) (s.keys i) := by
  have C := compares_before (π := π) s.typ
  obtain ⟨hyn, -⟩ := List.getElem?_eq_some_iff.mp hy
  rw [smaller]
  split
  · rename_i hany
    obtain ⟨z, hz, hzy⟩ := (Option.any_eq_true _ _).mp hany
    obtain ⟨hzn, -⟩ := List.getElem?_eq_some_iff.mp hz
    refine ⟨hzn, (parent_eq_iff (by omega)).mpr (Or.inr rfl), by omega, ?_⟩
    intro i hi hin hpi
    rcases (parent_eq_iff hi).mp hpi with rfl | rfl
    · exact (compareObj_iff hz hy).mp hzy
    · exact C.refl _
  · rename_i hany
    refine ⟨hyn, (parent_eq_iff (by omega)).mpr (Or.inl rfl), by omega, ?_⟩
    intro i hi hin hpi
    rcases (parent_eq_iff hi).mp hpi with rfl | rfl
    · exact C.refl _
    · obtain ⟨z, hz⟩ : ∃ z, s.heap[2 * k + 2]? = some z := ⟨_, List.getElem?_eq_getElem hin⟩
      refine (C.total _ _).resolve_right ?_
      intro hzy
      exact hany ((Option.any_eq_true _ _).mpr ⟨z, hz, (compareObj_iff hz hy).mpr hzy⟩)

/-- **Sifting down** closes a gap towards the children. -/
theorem heapifydown_spec {s : Pqueue ι π} (hs : s.heap.length < 1073741824) (hp : s.Placed)
    {k : ℕ} (hk : k < s.heap.length) (down : Down (Before s.typ) s.keys s.heap.length k) (fuel : ℕ)
    (hfuel : s.heap.length ≤ k + fuel) :
    ∃ s', heapifydown fuel s k = some s' ∧ Sifted s s' ∧ s'.Placed ∧
      Ordered (Before s'.typ) s'.keys s'.heap.length ∧
      (0 < k → s'.heap[0]? = s.heap[0]?) := by
  induction fuel generalizing s k with
  | zero => exact absurd hk (by omega)
  | succ fuel ih =>
    obtain ⟨x, hx⟩ : ∃ x, s.heap[k]? = some x := ⟨_, List.getElem?_eq_getElem hk⟩
    by_cases hleaf : 2 * k + 1 < s.heap.length
    · obtain ⟨y, hy⟩ : ∃ y, s.heap[2 * k + 1]? = some y := ⟨_, List.getElem?_eq_getElem hleaf⟩
      obtain ⟨hcn, hpc, hkc, hfirst⟩ := smaller_spec hy
      obtain ⟨w, hw⟩ : ∃ w, s.heap[s.smaller k y]? = some w := ⟨_, List.getElem?_eq_getElem hcn⟩
      rw [heapifydown_eq hs hleaf hx hy hw]
      by_cases hstop : (s.compareObj x y && (s.heap[2 * k + 2]?).all (s.compareObj x)) = true
      · rw [if_pos hstop]
        rw [Bool.and_eq_true] at hstop
        refine ⟨s, rfl, Sifted.refl s, hp, down.close ?_, fun _ => rfl⟩
        intro i hi hin hpi
        rcases (parent_eq_iff hi).mp hpi with rfl | rfl
        · exact (compareObj_iff hx hy).mp hstop.1
        · obtain ⟨z, hz⟩ : ∃ z, s.heap[2 * k + 2]? = some z := ⟨_, List.getElem?_eq_getElem hin⟩
          exact (compareObj_iff hx hz).mp ((Option.all_eq_true _ _).mp hstop.2 z hz)
      · rw [if_neg hstop]
        -- some child is strictly before `x`, so the first one is
        have C := compares_before (π := π) s.typ
        have hle : Before s.typ (s.keys (s.smaller k y)) (s.keys k) := by
          refine (C.total _ _).resolve_right ?_
          intro hxc
          refine hstop ?_
          rw [Bool.and_eq_true]
          refine ⟨(compareObj_iff hx hy).mpr (C.trans hxc (hfirst _ (by omega) hleaf
            ((parent_eq_iff (by omega)).mpr (Or.inl rfl)))), ?_⟩
          refine (Option.all_eq_true _ _).mpr ?_
          intro z hz
          obtain ⟨hzn, -⟩ := List.getElem?_eq_some_iff.mp hz
          exact (compareObj_iff hx hz).mpr (C.trans hxc (hfirst _ (by omega) hzn
            ((parent_eq_iff (by omega)).mpr (Or.inr rfl))))
        obtain ⟨s₁, s₂, h₁, h₂, hsift, hp₂, hkeys, hrest⟩ := setIndex_swap hp hkc.ne' hw hx
        rw [h₁, Option.bind_some, h₂, Option.bind_some]
        have down₂ := down.swap (by omega) hcn hpc hle hfirst
        rw [swapped_comm, ← hkeys, ← hsift.typ, ← hsift.length_eq] at down₂
        obtain ⟨s', hs', hsift', hp', hord, hroot⟩ := ih (by rwa [hsift.length_eq]) hp₂
          (by rwa [hsift.length_eq]) down₂ (by rw [hsift.length_eq]; omega)
        refine ⟨s', hs', hsift.trans hsift', hp', hord, ?_⟩
        intro hpos
        rw [hroot (by omega), hrest 0 (by omega) (by omega)]
    · refine ⟨s, ?_, Sifted.refl s, hp, down.close ?_, fun _ => rfl⟩
      · rw [heapifydown]
        simp only [left_eq hs hk, right_eq hs hk, if_neg hleaf,
          if_neg (show ¬ 2 * k + 2 < s.heap.length by omega)]
        rfl
      · intro i hi hin hpi
        rcases (parent_eq_iff hi).mp hpi with rfl | rfl
        · exact absurd hin hleaf
        · omega

end Sifts

/-! ## The operations of one heap -/

section Operations

variable [Preorder π] [DecidableLE π] [Std.Total (α := π) (· ≤ ·)]

/-- **The invariant of a heap**: heap order, right positions, and the members are the objects that
carry the number of the heap. -/
structure Valid (s : Pqueue ι π) : Prop where
  ordered : Ordered (Before s.typ) s.keys s.heap.length
  placed : s.Placed
  queue : ∀ x, x ∈ s.heap ↔ (s.obj x).queue = s.queueNumber

/-- An operation touches no objects but those named, and no priority but that of `p`. -/
structure Touches (s s' : Pqueue ι π) (objs : List ι) (p : ι → Prop) : Prop where
  queueNumber : s'.queueNumber = s.queueNumber
  typ : s'.typ = s.typ
  elsewhere : ∀ x, x ∉ objs → s'.obj x = s.obj x
  priority : ∀ x, ¬ p x → (s'.obj x).priority = (s.obj x).priority

omit [DecidableEq ι] [DecidableLE π] [Std.Total (α := π) (· ≤ ·)] in
theorem valid_of_sifted {s s' : Pqueue ι π} (hsift : Sifted s s') (hp : s'.Placed)
    (hord : Ordered (Before s'.typ) s'.keys s'.heap.length)
    (hqueue : ∀ x, x ∈ s.heap ↔ (s.obj x).queue = s.queueNumber) : s'.Valid := by
  refine ⟨hord, hp, ?_⟩
  intro x
  rw [hsift.perm.mem_iff, hqueue, hsift.queue, hsift.queueNumber]

/-- **Insertion.** -/
theorem doInsert_valid {s : Pqueue ι π} (v : s.Valid) (hs : s.heap.length + 1 < 1073741824)
    {node : ι} (hnode : (s.obj node).queue ≠ s.queueNumber) (prio : π) :
    ∃ s', s.doInsert node prio = some s' ∧ s'.Valid ∧ s'.heap.Perm (node :: s.heap) ∧
      (s'.obj node).priority = prio ∧ Touches s s' (node :: s.heap) (· = node) := by
  have hnot : node ∉ s.heap := fun hm => hnode ((v.queue node).mp hm)
  obtain ⟨s₀, hs₀⟩ : ∃ s₀ : Pqueue ι π,
      s₀ = ((s.setPriority node prio).setQueue node s.queueNumber).pushBack node := ⟨_, rfl⟩
  have hheap : s₀.heap = s.heap ++ [node] := by rw [hs₀]; rfl
  have hlen : s₀.heap.length = s.heap.length + 1 := by rw [hheap]; simp
  have htyp : s₀.typ = s.typ := by rw [hs₀]; rfl
  have hnum : s₀.queueNumber = s.queueNumber := by rw [hs₀]; rfl
  have hself : s₀.obj node = ⟨prio, s.heap.length, s.queueNumber⟩ := by
    rw [hs₀]
    simp [pushBack, setQueue, setPriority]
  have hother : ∀ x, x ≠ node → s₀.obj x = s.obj x := by
    intro x hx
    rw [hs₀]
    simp [pushBack, setQueue, setPriority, hx]
  have hget : ∀ i, i < s.heap.length → s₀.heap[i]? = s.heap[i]? := by
    intro i hi
    rw [hheap, List.getElem?_append_left hi]
  have hlast : s₀.heap[s.heap.length]? = some node := by rw [hheap]; simp
  have hplaced : s₀.Placed := by
    intro i x hx
    rcases Nat.lt_trichotomy i s.heap.length with hi | rfl | hi
    · rw [hget i hi] at hx
      have hne : x ≠ node := fun heq => hnot (heq ▸ List.mem_of_getElem? hx)
      rw [hother x hne]
      exact v.placed i x hx
    · rw [hlast, Option.some.injEq] at hx
      rw [← hx, hself]
    · rw [List.getElem?_eq_none (by omega)] at hx
      cases hx
  have hkeys : ∀ i, i < s₀.heap.length → i ≠ s.heap.length → s₀.keys i = s.keys i := by
    intro i hi hne
    have hlt : i < s.heap.length := by omega
    obtain ⟨x, hx⟩ : ∃ x, s.heap[i]? = some x := ⟨_, List.getElem?_eq_getElem hlt⟩
    have hxn : x ≠ node := fun heq => hnot (heq ▸ List.mem_of_getElem? hx)
    rw [keys_of_getElem hx, keys_of_getElem ((hget i hlt).trans hx), hother x hxn]
  have hord : Ordered (Before s₀.typ) s.keys s₀.heap.length := by
    intro i hi hin
    rw [htyp]
    rcases Nat.lt_or_ge i s.heap.length with hlt | hge
    · exact v.ordered i hi hlt
    · have hnone : s.keys i = none := by rw [keys, List.getElem?_eq_none hge]; rfl
      rw [hnone]
      cases s.keys (HeapOrder.parent i) <;> trivial
  have hup : Up (Before s₀.typ) s₀.keys s₀.heap.length s.heap.length := by
    refine hord.up_of_replace (compares_before _) hkeys (by omega) ?_
    intro i hi hin hpi
    have := (parent_eq_iff hi).mp hpi
    omega
  obtain ⟨s', b, hs', hsift, hp', hord', -⟩ :=
    heapifyup_spec hplaced (k := s.heap.length) (by omega) hup s₀.heap.length (by omega)
      false
  have hqueue : ∀ x, x ∈ s₀.heap ↔ (s₀.obj x).queue = s₀.queueNumber := by
    intro x
    rw [hheap, List.mem_append, List.mem_singleton, hnum]
    by_cases hx : x = node
    · subst hx
      simp [hself]
    · rw [hother x hx, ← v.queue x]
      simp [hx]
  refine ⟨s', ?_, valid_of_sifted hsift hp' hord' hqueue, ?_, ?_, ?_⟩
  · have hidx : (toInt (s₀.heap.length - 1)).toNat = s.heap.length := by
      rw [hlen, Nat.add_sub_cancel, toNat_toInt (by omega)]
    rw [doInsert, ← hs₀, hidx, hs']
    rfl
  · refine hsift.perm.trans ?_
    rw [hheap]
    exact List.perm_append_singleton node s.heap
  · rw [hsift.priority, hself]
  · refine ⟨hsift.queueNumber.trans hnum, hsift.typ.trans htyp, ?_, ?_⟩
    · intro x hx
      rw [List.mem_cons, not_or] at hx
      have hxs : x ∉ s₀.heap := by
        rw [hheap, List.mem_append, List.mem_singleton]
        exact not_or.mpr ⟨hx.2, hx.1⟩
      rw [hsift.elsewhere x hxs, hother x hx.1]
    · intro x hx
      rw [hsift.priority, hother x hx]

/-- The heap `s` with `x` at `k` replaced by the last element `tmp`; only positions and queue
numbers may differ besides. -/
structure Shrunk (s s₁ : Pqueue ι π) (k : ℕ) (x tmp : ι) : Prop where
  typ : s₁.typ = s.typ
  heap : s.heap[k]? = some x
  length : s₁.heap.length + 1 = s.heap.length
  lt : k < s₁.heap.length
  get : ∀ i, i < s₁.heap.length → s₁.heap[i]? = if i = k then some tmp else s.heap[i]?
  placed : s₁.Placed
  priority : ∀ z, (s₁.obj z).priority = (s.obj z).priority

namespace Shrunk

variable {s s₁ : Pqueue ι π} {k : ℕ} {x tmp : ι}

omit [DecidableEq ι] [Preorder π] [DecidableLE π] [Std.Total (α := π) (· ≤ ·)] in
theorem keys_eq (h : Shrunk s s₁ k x tmp) : ∀ i, i < s₁.heap.length → i ≠ k →
    s₁.keys i = s.keys i := by
  intro i hi hne
  simp only [keys, h.priority, h.get i hi, if_neg hne]

omit [DecidableEq ι] [DecidableLE π] [Std.Total (α := π) (· ≤ ·)] in
theorem ordered (h : Shrunk s s₁ k x tmp)
    (ord : Ordered (Before s.typ) s.keys s.heap.length) :
    Ordered (Before s₁.typ) s.keys s₁.heap.length := by
  rw [h.typ]
  exact ord.mono (by have := h.length; omega)

omit [DecidableEq ι] [DecidableLE π] in
/-- A gap towards the children, when the new element is not before the parent. -/
theorem down (h : Shrunk s s₁ k x tmp) (ord : Ordered (Before s.typ) s.keys s.heap.length)
    (hparent : 0 < k → Before s₁.typ (s₁.keys (HeapOrder.parent k)) (s₁.keys k)) :
    Down (Before s₁.typ) s₁.keys s₁.heap.length k :=
  (h.ordered ord).down_of_replace (compares_before _) h.keys_eq h.lt hparent

omit [DecidableEq ι] [DecidableLE π] in
/-- A gap towards the parent, when the new element is not behind the parent. -/
theorem up (h : Shrunk s s₁ k x tmp) (ord : Ordered (Before s.typ) s.keys s.heap.length)
    (hk : 0 < k)
    (hparent : Before s₁.typ (s₁.keys k) (s₁.keys (HeapOrder.parent k))) :
    Up (Before s₁.typ) s₁.keys s₁.heap.length k := by
  have C := compares_before (π := π) s₁.typ
  have hpk := parent_lt hk
  have hlt := h.lt
  refine (h.ordered ord).up_of_replace C h.keys_eq h.lt ?_
  intro i hi hin hpi
  have hlti := parent_lt hi
  refine C.trans hparent ?_
  rw [h.keys_eq i hin (by omega), h.keys_eq _ (by omega) (by omega)]
  have hpair := h.ordered ord i hi hin
  rw [hpi] at hpair
  exact C.trans (h.ordered ord k hk hlt) hpair

omit [DecidableEq ι] [Preorder π] [DecidableLE π] [Std.Total (α := π) (· ≤ ·)] in
theorem root_eq (h : Shrunk s s₁ k x tmp) (hk : 0 < k) : s₁.heap[0]? = s.heap[0]? := by
  have hlt := h.lt
  rw [h.get 0 (by omega), if_neg (by omega)]

end Shrunk

omit [Preorder π] [DecidableLE π] [Std.Total (α := π) (· ≤ ·)] in
/-- Putting the last element in the place of another. -/
theorem setIndex_popBack {s : Pqueue ι π} (hp : s.Placed) {l : List ι} {k : ℕ} {x tmp : ι}
    (hheap : s.heap = l ++ [tmp]) (hx : l[k]? = some x) :
    ∃ s₁, s.popBack.setIndex k tmp = some s₁ ∧ Shrunk s s₁ k x tmp ∧
      (x :: s₁.heap).Perm s.heap ∧ s₁.queueNumber = s.queueNumber ∧
      (∀ z, (s₁.obj z).queue = (s.obj z).queue) ∧ (∀ z, z ≠ tmp → s₁.obj z = s.obj z) := by
  obtain ⟨hk, hxk⟩ := List.getElem?_eq_some_iff.mp hx
  have hpop : s.popBack.heap = l := by
    show s.heap.dropLast = l
    rw [hheap, List.dropLast_concat]
  obtain ⟨s₁, hset, ok⟩ := setIndex_spec s.popBack tmp (i := k) (by rwa [hpop])
  have hheap₁ : s₁.heap = l.set k tmp := by rw [ok.heap, hpop]
  have hlen₁ : s₁.heap.length = l.length := by rw [hheap₁, List.length_set]
  have hxs : s.heap[k]? = some x := by rw [hheap, List.getElem?_append_left hk, hx]
  have hlast : s.heap[l.length]? = some tmp := by rw [hheap]; simp
  have hget : ∀ i, i < s₁.heap.length → s₁.heap[i]? = if i = k then some tmp else s.heap[i]? := by
    intro i hi
    have hil : i < l.length := by omega
    rw [hheap₁, List.getElem?_set]
    by_cases hik : i = k
    · subst hik
      simp [hk]
    · rw [if_neg (Ne.symm hik), if_neg hik, hheap, List.getElem?_append_left hil]
  refine ⟨s₁, hset, ⟨ok.typ, hxs, ?_, by omega, hget, ?_, ok.priority⟩, ?_, ok.queueNumber,
    ok.queue, ok.elsewhere⟩
  · rw [hlen₁, hheap, List.length_append, List.length_singleton]
  · intro i z hz
    obtain ⟨hi, -⟩ := List.getElem?_eq_some_iff.mp hz
    rw [hget i hi] at hz
    by_cases hik : i = k
    · rw [if_pos hik, Option.some.injEq] at hz
      rw [← hz, ok.pos, hik]
    · rw [if_neg hik] at hz
      have hne : z ≠ tmp := by
        rintro rfl
        have := (hp i z hz).symm.trans (hp l.length z hlast)
        omega
      rw [ok.elsewhere z hne]
      exact hp i z hz
  · rw [hheap₁, hheap]
    have h₁ := List.set_perm_cons_eraseIdx hk tmp
    have h₂ := List.getElem_cons_eraseIdx_perm hk
    rw [hxk] at h₂
    refine (h₁.cons x).trans ?_
    refine (List.Perm.swap _ _ _).trans ?_
    exact (h₂.cons tmp).trans (List.perm_append_singleton tmp l).symm

omit [DecidableEq ι] [Preorder π] [DecidableLE π] [Std.Total (α := π) (· ≤ ·)] in
theorem exists_append_singleton {s : Pqueue ι π} {x : ι} (hx : x ∈ s.heap) :
    ∃ l tmp, s.heap = l ++ [tmp] := by
  have hne : s.heap ≠ [] := List.ne_nil_of_mem hx
  exact ⟨s.heap.dropLast, s.heap.getLast hne, (List.dropLast_append_getLast hne).symm⟩

section SetQueue

omit [Preorder π] [DecidableLE π] [Std.Total (α := π) (· ≤ ·)]

variable (s : Pqueue ι π) (x : ι) (q : QueueId)

@[simp] theorem priority_setQueue (z : ι) :
    ((s.setQueue x q).obj z).priority = (s.obj z).priority := by
  by_cases hz : z = x
  · subst hz
    simp [setQueue]
  · simp [setQueue, hz]

@[simp] theorem pos_setQueue (z : ι) : ((s.setQueue x q).obj z).pos = (s.obj z).pos := by
  by_cases hz : z = x
  · subst hz
    simp [setQueue]
  · simp [setQueue, hz]

@[simp] theorem queue_setQueue_self : ((s.setQueue x q).obj x).queue = q := by simp [setQueue]

theorem obj_setQueue_of_ne {z : ι} (hz : z ≠ x) : (s.setQueue x q).obj z = s.obj z := by
  simp [setQueue, hz]

@[simp] theorem keys_setQueue : (s.setQueue x q).keys = s.keys := by
  funext i
  simp only [keys, priority_setQueue]
  rfl

variable {s}

theorem placed_setQueue (hp : s.Placed) : (s.setQueue x q).Placed := by
  intro i z hz
  rw [pos_setQueue]
  exact hp i z hz

/-- Sifting does not look at queue numbers. -/
theorem sifted_setQueue {s' : Pqueue ι π} (h : Sifted s s') :
    Sifted (s.setQueue x q) (s'.setQueue x q) := by
  refine ⟨h.queueNumber, h.typ, h.perm, ?_, ?_, ?_⟩
  · intro z
    rw [priority_setQueue, priority_setQueue, h.priority]
  · intro z
    by_cases hz : z = x
    · subst hz
      rw [queue_setQueue_self, queue_setQueue_self]
    · rw [obj_setQueue_of_ne _ _ _ hz, obj_setQueue_of_ne _ _ _ hz, h.queue]
  · intro z hz
    have hobj := h.elsewhere z hz
    by_cases hzx : z = x
    · subst hzx
      simp [setQueue, hobj]
    · rw [obj_setQueue_of_ne _ _ _ hzx, obj_setQueue_of_ne _ _ _ hzx, hobj]

end SetQueue

section SetPriority

omit [Preorder π] [DecidableLE π] [Std.Total (α := π) (· ≤ ·)]

variable (s : Pqueue ι π) (x : ι) (prio : π)

@[simp] theorem priority_setPriority_self :
    ((s.setPriority x prio).obj x).priority = prio := by simp [setPriority]

@[simp] theorem pos_setPriority (z : ι) : ((s.setPriority x prio).obj z).pos = (s.obj z).pos := by
  by_cases hz : z = x
  · subst hz
    simp [setPriority]
  · simp [setPriority, hz]

@[simp] theorem queue_setPriority (z : ι) :
    ((s.setPriority x prio).obj z).queue = (s.obj z).queue := by
  by_cases hz : z = x
  · subst hz
    simp [setPriority]
  · simp [setPriority, hz]

theorem obj_setPriority_of_ne {z : ι} (hz : z ≠ x) : (s.setPriority x prio).obj z = s.obj z := by
  simp [setPriority, hz]

variable {s}

theorem placed_setPriority (hp : s.Placed) : (s.setPriority x prio).Placed := by
  intro i z hz
  rw [pos_setPriority]
  exact hp i z hz

/-- Only the key of the object itself changes. -/
theorem keys_setPriority_of_ne (hp : s.Placed) {i : ℕ} (hi : i < s.heap.length)
    (hne : i ≠ (s.obj x).pos) : (s.setPriority x prio).keys i = s.keys i := by
  obtain ⟨z, hz⟩ : ∃ z, s.heap[i]? = some z := ⟨_, List.getElem?_eq_getElem hi⟩
  have hzx : z ≠ x := by
    rintro rfl
    exact hne (hp i z hz).symm
  rw [keys_of_getElem hz, keys_of_getElem (show (s.setPriority x prio).heap[i]? = some z from hz),
    obj_setPriority_of_ne s x prio hzx]

end SetPriority

section PopBack

omit [DecidableEq ι] [DecidableLE π] [Std.Total (α := π) (· ≤ ·)]

variable {s : Pqueue ι π}

omit [Preorder π] in
theorem getElem?_popBack {i : ℕ} (hi : i < s.popBack.heap.length) :
    s.popBack.heap[i]? = s.heap[i]? := by
  have hlen : s.popBack.heap.length = s.heap.length - 1 := List.length_dropLast
  show s.heap.dropLast[i]? = s.heap[i]?
  rw [List.getElem?_dropLast, if_pos (by omega)]

omit [Preorder π] in
theorem placed_popBack (hp : s.Placed) : s.popBack.Placed := by
  intro i z hz
  obtain ⟨hi, -⟩ := List.getElem?_eq_some_iff.mp hz
  rw [getElem?_popBack hi] at hz
  exact hp i z hz

theorem ordered_popBack (ord : Ordered (Before s.typ) s.keys s.heap.length) :
    Ordered (Before s.popBack.typ) s.popBack.keys s.popBack.heap.length := by
  intro i hi hin
  have hpi := parent_lt hi
  have hlen : s.popBack.heap.length ≤ s.heap.length := by
    show s.heap.dropLast.length ≤ s.heap.length
    rw [List.length_dropLast]
    omega
  have hkeys : ∀ j, j < s.popBack.heap.length → s.popBack.keys j = s.keys j := by
    intro j hj
    rw [keys, getElem?_popBack hj]
    rfl
  rw [hkeys i hin, hkeys _ (by omega)]
  exact ord i hi (by omega)

end PopBack

/-- What the removal of `x` leaves. -/
structure Removed (s s' : Pqueue ι π) (x : ι) (newState : QueueId) : Prop where
  valid : s'.Valid
  perm : (x :: s'.heap).Perm s.heap
  queue : (s'.obj x).queue = newState
  touches : Touches s s' s.heap fun _ => False

omit [DecidableLE π] [Std.Total (α := π) (· ≤ ·)] in
theorem removed_of_sifted {s s₁ s' : Pqueue ι π} (v : s.Valid) {x : ι} {newState : QueueId}
    (hstate : newState ≠ s.queueNumber) (hsift : Sifted s₁ s') (hp : s'.Placed)
    (hord : Ordered (Before s'.typ) s'.keys s'.heap.length)
    (hperm : (x :: s₁.heap).Perm s.heap) (hnum : s₁.queueNumber = s.queueNumber)
    (htyp : s₁.typ = s.typ) (hprio : ∀ z, (s₁.obj z).priority = (s.obj z).priority)
    (hx : (s₁.obj x).queue = newState)
    (hqueue : ∀ z, z ≠ x → (s₁.obj z).queue = (s.obj z).queue)
    (helse : ∀ z, z ∉ s.heap → s₁.obj z = s.obj z) : Removed s s' x newState := by
  have hnodup : (x :: s₁.heap).Nodup := hperm.nodup_iff.mpr v.placed.nodup
  have hsub : ∀ z, z ∉ s.heap → z ∉ s₁.heap := fun z hz hm =>
    hz (hperm.mem_iff.mp (List.mem_cons_of_mem x hm))
  refine ⟨valid_of_sifted hsift hp hord ?_, ?_, ?_, ?_⟩
  · intro z
    by_cases hz : z = x
    · subst hz
      rw [hx, hnum]
      exact iff_of_false (List.nodup_cons.mp hnodup).1 hstate
    · rw [hqueue z hz, hnum, ← v.queue z, ← hperm.mem_iff, List.mem_cons]
      simp [hz]
  · exact (hsift.perm.cons x).trans hperm
  · rw [hsift.queue, hx]
  · refine ⟨hsift.queueNumber.trans hnum, hsift.typ.trans htyp, ?_, ?_⟩
    · intro z hz
      rw [hsift.elsewhere z (hsub z hz), helse z hz]
    · intro z _
      rw [hsift.priority, hprio]

omit [Std.Total (α := π) (· ≤ ·)] in
/-- What `do_remove` does once `tmp` is at position `k`. -/
def resift (s : Pqueue ι π) (k : ℕ) (tmp : ι) : Option (Pqueue ι π) :=
  if Pqueue.parent k ≠ -1 then
    (s.at? (Pqueue.parent k)).bind fun y =>
      if s.compareObj tmp y then (heapifyup s.heap.length s k false).bind fun r => some r.1
      else heapifydown s.heap.length s k
  else heapifydown s.heap.length s k

omit [Std.Total (α := π) (· ≤ ·)] in
theorem doRemove_eq {s : Pqueue ι π} {x tmp : ι} {l : List ι} {newState : QueueId}
    (hheap : s.heap = l ++ [tmp]) (hs : (s.obj x).pos < 1073741824) :
    s.doRemove x newState =
      if ¬ l.isEmpty ∧ (s.obj x).pos ≠ l.length then
        ((s.setQueue x newState).popBack.setIndex (s.obj x).pos tmp).bind fun s₁ =>
          resift s₁ (s.obj x).pos tmp
      else some (s.setQueue x newState).popBack := by
  have hlast : s.heap.getLast? = some tmp := by rw [hheap]; simp
  have hpop : (s.setQueue x newState).popBack.heap = l := by
    show s.heap.dropLast = l
    rw [hheap, List.dropLast_concat]
  have hsw : s.popBack.setQueue x newState = (s.setQueue x newState).popBack := rfl
  rw [doRemove, hlast]
  simp only [Option.bind_eq_bind, Option.bind_some, hsw, hpop, toNat_toInt (n := (s.obj x).pos)
    (by omega)]
  rfl

/-- The element that has come to position `k` finds its place.  If that is not the root, the root
stays. -/
theorem Shrunk.resift_spec {s s₁ : Pqueue ι π} {k : ℕ} {x tmp : ι} (h : Shrunk s s₁ k x tmp)
    (hs : s.heap.length < 1073741824) (ord : Ordered (Before s.typ) s.keys s.heap.length)
    (hlast : s.heap[s₁.heap.length]? = some tmp) :
    ∃ s', resift s₁ k tmp = some s' ∧ Sifted s₁ s' ∧ s'.Placed ∧
      Ordered (Before s'.typ) s'.keys s'.heap.length ∧ (k ≠ 0 → s'.heap[0]? = s.heap[0]?) := by
  have hlen := h.length
  have hlt := h.lt
  rw [resift]
  rcases Nat.eq_zero_or_pos k with rfl | hkpos
  · have hdown := h.down ord fun hk => absurd hk (lt_irrefl 0)
    obtain ⟨s', hs', hsift, hp', hord', -⟩ := heapifydown_spec (by omega) h.placed hlt hdown
      s₁.heap.length (by omega)
    refine ⟨s', ?_, hsift, hp', hord', fun h0 => absurd rfl h0⟩
    rw [if_neg (by decide), hs']
  · have hpk := parent_lt hkpos
    obtain ⟨y, hy⟩ : ∃ y, s₁.heap[HeapOrder.parent k]? = some y :=
      ⟨_, List.getElem?_eq_getElem (by omega)⟩
    have htmp : s₁.heap[k]? = some tmp := by rw [h.get k hlt, if_pos rfl]
    have hcond : Pqueue.parent k ≠ -1 := by rw [parent_eq hkpos]; omega
    rw [if_pos hcond, parent_eq hkpos, at?_natCast, hy, Option.bind_some]
    by_cases hcmp : s₁.compareObj tmp y = true
    · rw [if_pos hcmp]
      have hup := h.up ord hkpos ((compareObj_iff htmp hy).mp hcmp)
      obtain ⟨s', b, hs', hsift, hp', hord', hroot⟩ :=
        heapifyup_spec h.placed hlt hup s₁.heap.length hlt false
      refine ⟨s', ?_, hsift, hp', hord', ?_⟩
      · rw [hs']
        rfl
      · intro _
        rw [hroot, h.root_eq hkpos]
        -- the root was before the last element already
        have hfirst := ord.root_le (compares_before s.typ) (i := s₁.heap.length) (by omega)
        have hkey₀ : s₁.keys 0 = s.keys 0 := h.keys_eq 0 (by omega) (by omega)
        have hkeyk : s₁.keys k = s.keys s₁.heap.length := by
          rw [keys_of_getElem htmp, keys_of_getElem hlast, h.priority]
        rw [h.typ, hkey₀, hkeyk]
        exact hfirst
    · rw [if_neg hcmp]
      have hdown := h.down ord fun _ =>
        ((compares_before s₁.typ).total _ _).resolve_right
          fun hle => hcmp ((compareObj_iff htmp hy).mpr hle)
      obtain ⟨s', hs', hsift, hp', hord', hroot⟩ := heapifydown_spec (by omega) h.placed hlt hdown
        s₁.heap.length (by omega)
      refine ⟨s', hs', hsift, hp', hord', ?_⟩
      intro _
      rw [hroot hkpos, h.root_eq hkpos]

/-- **Removal of a member.**  If it is not the root, the root stays. -/
theorem doRemove_valid {s : Pqueue ι π} (v : s.Valid) (hs : s.heap.length < 1073741824) {x : ι}
    (hx : x ∈ s.heap) (newState : QueueId) (hstate : newState ≠ s.queueNumber) :
    ∃ s', s.doRemove x newState = some s' ∧ Removed s s' x newState ∧
      ((s.obj x).pos ≠ 0 → s'.heap[0]? = s.heap[0]?) := by
  obtain ⟨l, tmp, hheap⟩ := exists_append_singleton hx
  obtain ⟨k, hk⟩ := List.mem_iff_getElem?.mp hx
  obtain ⟨hkn, -⟩ := List.getElem?_eq_some_iff.mp hk
  have hpos := v.placed k x hk
  have hlen : s.heap.length = l.length + 1 := by
    rw [hheap, List.length_append, List.length_singleton]
  obtain ⟨t, ht⟩ : ∃ t, t = s.setQueue x newState := ⟨_, rfl⟩
  have htheap : t.heap = l ++ [tmp] := by rw [ht]; exact hheap
  have htp : t.Placed := ht ▸ placed_setQueue x newState v.placed
  have htord : Ordered (Before t.typ) t.keys t.heap.length := by
    rw [ht, keys_setQueue]
    exact v.ordered
  have htnum : t.queueNumber = s.queueNumber := by rw [ht]; rfl
  have httyp : t.typ = s.typ := by rw [ht]; rfl
  have htprio : ∀ z, (t.obj z).priority = (s.obj z).priority := by
    intro z
    rw [ht, priority_setQueue]
  have htx : (t.obj x).queue = newState := by rw [ht, queue_setQueue_self]
  have htother : ∀ z, z ≠ x → t.obj z = s.obj z := by
    intro z hz
    rw [ht, obj_setQueue_of_ne s x newState hz]
  rw [doRemove_eq hheap (by omega), ← ht, hpos]
  by_cases hkl : k = l.length
  · -- the member is the last one
    have hxt : x = tmp := by
      rw [hheap, hkl, List.getElem?_append_right le_rfl] at hk
      simpa using hk.symm
    have hpop : t.popBack.heap = l := by
      show t.heap.dropLast = l
      rw [htheap, List.dropLast_concat]
    have hperm : (x :: t.popBack.heap).Perm s.heap := by
      rw [hpop, hheap, hxt]
      exact (List.perm_append_singleton tmp l).symm
    refine ⟨t.popBack, if_neg fun h => h.2 hkl, removed_of_sifted v hstate (Sifted.refl _)
      (placed_popBack htp) (ordered_popBack htord) hperm htnum httyp htprio htx
      (fun z hz => by rw [← htother z hz]; rfl) ?_, ?_⟩
    · intro z hz
      exact htother z fun heq => hz (heq ▸ hx)
    · intro h0
      rw [getElem?_popBack (by rw [hpop]; omega), ht]
      rfl
  · have hkl' : k < l.length := by omega
    have hxl : l[k]? = some x := by rwa [hheap, List.getElem?_append_left hkl'] at hk
    obtain ⟨s₁, hset, hshr, hperm, hnum₁, hqueue₁, helse₁⟩ := setIndex_popBack htp htheap hxl
    have hlen₁ := hshr.length
    rw [htheap, List.length_append, List.length_singleton] at hlen₁
    have hperm' : (x :: s₁.heap).Perm s.heap := by rwa [htheap, ← hheap] at hperm
    have hmem : tmp ∈ s.heap := by rw [hheap]; simp
    have hlast : t.heap[s₁.heap.length]? = some tmp := by
      rw [htheap, Nat.succ.inj hlen₁]
      simp
    have hne : ¬ l.isEmpty = true := by
      rw [List.isEmpty_iff]
      rintro rfl
      exact absurd hkl' (Nat.not_lt_zero k)
    obtain ⟨s', hs', hsift, hp', hord', hroot⟩ :=
      hshr.resift_spec (by rw [htheap, ← hheap]; exact hs) htord hlast
    refine ⟨s', ?_, removed_of_sifted v hstate hsift hp' hord' hperm' (hnum₁.trans htnum)
      (hshr.typ.trans httyp) (fun z => (hshr.priority z).trans (htprio z))
      ((hqueue₁ x).trans htx) (fun z hz => by rw [hqueue₁, htother z hz]) ?_, fun h0 => ?_⟩
    · rw [if_pos ⟨hne, hkl⟩, hset, Option.bind_some, hs']
    · intro z hz
      rw [helse₁ z fun heq => hz (heq ▸ hmem), htother z fun heq => hz (heq ▸ hx)]
    · rw [hroot h0, htheap, hheap]

omit [DecidableEq ι] in
/-- The root is a best member. -/
theorem Valid.root_best {s : Pqueue ι π} (v : s.Valid) {x : ι}
    (hx : s.heap[0]? = some x) : ∀ y ∈ s.heap, s.compareObj x y = true := by
  intro y hy
  obtain ⟨i, hi⟩ := List.mem_iff_getElem?.mp hy
  obtain ⟨hin, -⟩ := List.getElem?_eq_some_iff.mp hi
  exact (compareObj_iff hx hi).mpr (v.ordered.root_le (compares_before _) hin)

omit [Std.Total (α := π) (· ≤ ·)] in
/-- `do_pop` of a heap with a root: the last member comes to the root and sinks. -/
theorem doPop_eq {s : Pqueue ι π} {newState : QueueId} {x : ι} {rest : List ι}
    (hheap : s.heap = x :: rest) : s.doPop newState =
      (if s.heap.length > 1 then
        s.heap.getLast?.bind fun last => (s.setIndex 0 last).bind fun s₁ =>
          heapifydown s₁.popBack.heap.length s₁.popBack 0
      else some s.popBack).bind fun s' => some (s'.setQueue x newState, some x) := by
  rw [doPop]
  simp only [hheap]
  split
  · simp only [Option.bind_eq_bind, Option.bind_assoc]
  · rfl

/-- **Taking the root.** -/
theorem doPop_valid {s : Pqueue ι π} (v : s.Valid) (hs : s.heap.length < 1073741824)
    {newState : QueueId} (hstate : newState ≠ s.queueNumber) {x : ι} {rest : List ι}
    (hheap : s.heap = x :: rest) :
    ∃ s', s.doPop newState = some (s', some x) ∧ Removed s s' x newState ∧
      ∀ y ∈ s.heap, s.compareObj x y = true := by
  have hx : x ∈ s.heap := by rw [hheap]; exact List.mem_cons_self
  have hroot : s.heap[0]? = some x := by rw [hheap]; rfl
  have hfinish : ∀ s₁ s', (x :: s₁.heap).Perm s.heap → s₁.queueNumber = s.queueNumber →
      s₁.typ = s.typ → (∀ z, (s₁.obj z).priority = (s.obj z).priority) →
      (∀ z, (s₁.obj z).queue = (s.obj z).queue) → (∀ z, z ∉ s.heap → s₁.obj z = s.obj z) →
      Sifted s₁ s' → s'.Placed → Ordered (Before s'.typ) s'.keys s'.heap.length →
      Removed s (s'.setQueue x newState) x newState := by
    intro s₁ s' hperm hnum htyp hprio hqueue helse hsift hp' hord'
    refine removed_of_sifted v hstate (sifted_setQueue x newState hsift)
      (placed_setQueue x newState hp') ?_ hperm hnum htyp ?_ ?_ ?_ ?_
    · rw [keys_setQueue]
      exact hord'
    · intro z
      rw [priority_setQueue, hprio]
    · rw [queue_setQueue_self]
    · intro z hz
      rw [obj_setQueue_of_ne _ _ _ hz, hqueue]
    · intro z hz
      have hzx : z ≠ x := fun heq => hz (heq ▸ hx)
      rw [obj_setQueue_of_ne _ _ _ hzx, helse z hz]
  have hunfold : s.doPop newState = _ := doPop_eq hheap
  rcases List.eq_nil_or_concat rest with hrest | ⟨init, tmp, hrest⟩
  · -- the only member
    have hpop : s.popBack.heap = [] := by
      show s.heap.dropLast = []
      rw [hheap, hrest]
      rfl
    refine ⟨s.popBack.setQueue x newState, ?_, hfinish s.popBack s.popBack ?_ rfl rfl
      (fun _ => rfl) (fun _ => rfl) (fun _ _ => rfl) (Sifted.refl _) (placed_popBack v.placed)
      (ordered_popBack v.ordered), v.root_best hroot⟩
    · rw [hunfold, if_neg (by rw [hheap, hrest]; exact Nat.lt_irrefl 1), Option.bind_some]
    · rw [hpop, hheap, hrest]
  · have hl : s.heap = (x :: init) ++ [tmp] := by rw [hheap, hrest]; simp
    have hlen : s.heap.length = init.length + 2 := by rw [hl]; simp
    have hlast : s.heap.getLast? = some tmp := by rw [hl, List.getLast?_concat]
    obtain ⟨s₁, hset, hshr, hperm, hnum₁, hqueue₁, helse₁⟩ :=
      setIndex_popBack v.placed hl (k := 0) rfl
    have hset' : ∃ s₀, s.setIndex 0 tmp = some s₀ ∧ s₀.popBack = s₁ := by
      refine ⟨_, if_pos (by omega), ?_⟩
      have hpop : s.popBack.heap = x :: init := by
        show s.heap.dropLast = x :: init
        rw [hl, List.dropLast_concat]
      rw [setIndex, if_pos (by rw [hpop]; exact Nat.succ_pos _), Option.some.injEq] at hset
      rw [← hset]
      have hset₀ : (s.heap.set 0 tmp).dropLast = s.popBack.heap.set 0 tmp := by
        rw [hpop, hl]
        show ((tmp :: init) ++ [tmp]).dropLast = tmp :: init
        rw [List.dropLast_concat]
      simp only [popBack] at hset₀ ⊢
      rw [hset₀]
    obtain ⟨s₀, hs₀, hpop₀⟩ := hset'
    have hdown := hshr.down v.ordered fun h => absurd h (lt_irrefl 0)
    have hlen₁ := hshr.length
    obtain ⟨s', hs', hsift, hp', hord', -⟩ := heapifydown_spec (by omega) hshr.placed hshr.lt hdown
      s₁.heap.length (by omega)
    refine ⟨s'.setQueue x newState, ?_, hfinish s₁ s' hperm hnum₁ hshr.typ hshr.priority hqueue₁ ?_
      hsift hp' hord', v.root_best hroot⟩
    · rw [hunfold, if_pos (by omega), hlast, Option.bind_some, hs₀, Option.bind_some, hpop₀, hs',
        Option.bind_some]
    · intro z hz
      refine helse₁ z ?_
      rintro rfl
      exact hz (by rw [hl]; simp)

omit [Std.Total (α := π) (· ≤ ·)] in
theorem moveNode_eq {s : Pqueue ι π} (v : s.Valid) {node : ι} (hnode : node ∈ s.heap)
    (hs : (s.obj node).pos < 1073741824) (newPrio : π) : s.moveNode node newPrio =
      if compare s.typ newPrio (s.obj node).priority then
        (heapifyup s.heap.length (s.setPriority node newPrio) (s.obj node).pos false).bind
          fun r => some r.1
      else heapifydown s.heap.length (s.setPriority node newPrio) (s.obj node).pos := by
  have hne : ¬ s.heap.isEmpty = true := by
    rw [List.isEmpty_iff]
    exact List.ne_nil_of_mem hnode
  rw [moveNode, doMoveNode, if_neg hne, if_neg (not_not.mpr ((v.queue node).mp hnode))]
  simp only [toNat_toInt (n := (s.obj node).pos) (by omega)]
  rfl

omit [DecidableLE π] [Std.Total (α := π) (· ≤ ·)] in
/-- What sifting makes of the heap in which a member has a new priority. -/
theorem moved_of_sifted {s s' : Pqueue ι π} (v : s.Valid) {node : ι} (hnode : node ∈ s.heap)
    {newPrio : π} (hsift : Sifted (s.setPriority node newPrio) s') (hp : s'.Placed)
    (hord : Ordered (Before s'.typ) s'.keys s'.heap.length) :
    s'.Valid ∧ s'.heap.Perm s.heap ∧ (s'.obj node).priority = newPrio ∧
      Touches s s' s.heap (· = node) := by
  refine ⟨valid_of_sifted hsift hp hord ?_, hsift.perm, ?_, hsift.queueNumber, hsift.typ, ?_, ?_⟩
  · intro z
    rw [queue_setPriority]
    exact v.queue z
  · rw [hsift.priority, priority_setPriority_self]
  · intro z hz
    have hne : z ≠ node := fun heq => hz (heq ▸ hnode)
    rw [hsift.elsewhere z hz, obj_setPriority_of_ne _ _ _ hne]
  · intro z hz
    rw [hsift.priority, obj_setPriority_of_ne _ _ _ hz]

/-- **Moving a member** to a new priority. -/
theorem moveNode_valid {s : Pqueue ι π} (v : s.Valid) (hs : s.heap.length < 1073741824) {node : ι}
    (hnode : node ∈ s.heap) (newPrio : π) :
    ∃ s', s.moveNode node newPrio = some s' ∧ s'.Valid ∧ s'.heap.Perm s.heap ∧
      (s'.obj node).priority = newPrio ∧ Touches s s' s.heap (· = node) := by
  obtain ⟨k, hk⟩ := List.mem_iff_getElem?.mp hnode
  obtain ⟨hkn, -⟩ := List.getElem?_eq_some_iff.mp hk
  have hpos := v.placed k node hk
  have C := compares_before (π := π) s.typ
  obtain ⟨t, ht⟩ : ∃ t, t = s.setPriority node newPrio := ⟨_, rfl⟩
  have htp : t.Placed := ht ▸ placed_setPriority node newPrio v.placed
  have htheap : t.heap = s.heap := by rw [ht]; rfl
  have httyp : t.typ = s.typ := by rw [ht]; rfl
  have hkeys : ∀ i, i < s.heap.length → i ≠ k → t.keys i = s.keys i := by
    intro i hi hne
    rw [ht, keys_setPriority_of_ne node newPrio v.placed hi (by rwa [hpos])]
  have hcmp : compare s.typ newPrio (s.obj node).priority = true ↔
      Before s.typ (t.keys k) (s.keys k) := by
    have hkeyk : t.keys k = some newPrio := by
      rw [keys_of_getElem (by rwa [htheap]), ht, priority_setPriority_self]
    rw [hkeyk, keys_of_getElem hk]
    cases s.typ with
    | asc => exact decide_eq_true_iff
    | desc => exact decide_eq_true_iff
  rw [moveNode_eq v hnode (by omega), hpos, ← ht]
  by_cases hle : compare s.typ newPrio (s.obj node).priority = true
  · rw [if_pos hle]
    have hup : Up (Before t.typ) t.keys t.heap.length k := by
      rw [httyp, htheap]
      refine v.ordered.up_of_replace C hkeys hkn ?_
      intro i hi hin hpi
      have hlt := parent_lt hi
      rw [hkeys i hin (by omega)]
      have hpair := v.ordered i hi hin
      rw [hpi] at hpair
      exact C.trans (hcmp.mp hle) hpair
    obtain ⟨s', b, hs', hsift, hp', hord', -⟩ :=
      heapifyup_spec htp (by rwa [htheap]) hup s.heap.length hkn false
    refine ⟨s', ?_, moved_of_sifted v hnode (ht ▸ hsift) hp' hord'⟩
    rw [hs']
    rfl
  · rw [if_neg hle]
    have hdown : Down (Before t.typ) t.keys t.heap.length k := by
      rw [httyp, htheap]
      refine v.ordered.down_of_replace C hkeys hkn ?_
      intro hk0
      have hlt := parent_lt hk0
      rw [hkeys _ (by omega) (by omega)]
      exact C.trans (v.ordered k hk0 hkn) ((C.total _ _).resolve_right fun h => hle (hcmp.mpr h))
    obtain ⟨s', hs', hsift, hp', hord', -⟩ := heapifydown_spec (by rwa [htheap]) htp
      (by rwa [htheap]) hdown s.heap.length (by rw [htheap]; omega)
    exact ⟨s', hs', moved_of_sifted v hnode (ht ▸ hsift) hp' hord'⟩

/-- What the removal of several members leaves, the root not among them. -/
structure Taken (s s' : Pqueue ι π) (buffer : List ι) (newState : QueueId) : Prop where
  valid : s'.Valid
  perm : (buffer ++ s'.heap).Perm s.heap
  queue : ∀ x ∈ buffer, (s'.obj x).queue = newState
  root : s'.heap[0]? = s.heap[0]?
  touches : Touches s s' s.heap fun _ => False

section Taken

variable {s t u : Pqueue ι π} {buffer : List ι} {newState : QueueId}

omit [DecidableEq ι] [DecidableLE π] [Std.Total (α := π) (· ≤ ·)] in
theorem Taken.nil (v : s.Valid) (newState : QueueId) : Taken s s [] newState :=
  ⟨v, List.Perm.refl _, fun _ hx => absurd hx List.not_mem_nil, rfl, rfl, rfl, fun _ _ => rfl,
    fun _ _ => rfl⟩

omit [DecidableEq ι] [DecidableLE π] [Std.Total (α := π) (· ≤ ·)] in
theorem Taken.length_add (ok : Taken s t buffer newState) :
    buffer.length + t.heap.length = s.heap.length := by
  rw [← ok.perm.length_eq, List.length_append]

omit [DecidableEq ι] [DecidableLE π] [Std.Total (α := π) (· ≤ ·)] in
/-- One more member is removed. -/
theorem Taken.snoc {x : ι} (v : s.Valid) (ok : Taken s t buffer newState)
    (hrem : Removed t u x newState) (hroot : u.heap[0]? = t.heap[0]?) :
    Taken s u (buffer ++ [x]) newState := by
  have hnodup : (buffer ++ t.heap).Nodup := ok.perm.nodup_iff.mpr v.placed.nodup
  have hdisj := List.disjoint_of_nodup_append hnodup
  refine ⟨hrem.valid, ?_, ?_, hroot.trans ok.root, hrem.touches.queueNumber.trans
    ok.touches.queueNumber, hrem.touches.typ.trans ok.touches.typ, ?_, ?_⟩
  · rw [List.append_assoc]
    exact (hrem.perm.append_left buffer).trans ok.perm
  · intro z hz
    rcases List.mem_append.mp hz with hz | hz
    · rw [hrem.touches.elsewhere z (hdisj hz)]
      exact ok.queue z hz
    · rw [List.mem_singleton.mp hz]
      exact hrem.queue
  · intro z hz
    have hzt : z ∉ t.heap := fun hm => hz (ok.perm.mem_iff.mp (List.mem_append_right buffer hm))
    rw [hrem.touches.elsewhere z hzt, ok.touches.elsewhere z hz]
  · intro z hz
    rw [hrem.touches.priority z hz, ok.touches.priority z hz]

/-- The inner loop. -/
theorem popLevel_taken (v : s.Valid) (hs : s.heap.length < 1073741824)
    (hstate : newState ≠ s.queueNumber) {half i : ℕ} (hi : 0 < i)
    (hhalf : half ≤ s.heap.length / 2) (ok : Taken s t buffer newState)
    (hbuf : buffer.length < half) (k j : ℕ) :
    ∃ u buffer', popLevel newState half i k j t buffer = some (u, buffer') ∧
      Taken s u buffer' newState ∧ buffer'.length ≤ half := by
  induction k generalizing j t buffer with
  | zero => exact ⟨t, buffer, rfl, ok, hbuf.le⟩
  | succ k ih =>
    have hadd := ok.length_add
    obtain ⟨idx, hidx⟩ : ∃ idx, idx = min (t.heap.length - 1) (i + j) := ⟨_, rfl⟩
    have hlt : idx < t.heap.length := by omega
    obtain ⟨x, hx⟩ : ∃ x, t.heap[idx]? = some x := ⟨_, List.getElem?_eq_getElem hlt⟩
    have hpos : (t.obj x).pos ≠ 0 := by
      rw [ok.valid.placed idx x hx]
      omega
    obtain ⟨u, hu, hrem, hroot⟩ := doRemove_valid ok.valid (by omega) (List.mem_of_getElem? hx)
      newState (by rwa [ok.touches.queueNumber])
    have ok' := ok.snoc v hrem (hroot hpos)
    have hunfold : popLevel newState half i (k + 1) j t buffer =
        if (buffer ++ [x]).length = half then some (u, buffer ++ [x])
        else popLevel newState half i k (j + 1) u (buffer ++ [x]) := by
      rw [popLevel, ← hidx, hx]
      simp only [Option.bind_eq_bind, Option.bind_some, hu]
    rw [hunfold]
    have hlen : (buffer ++ [x]).length = buffer.length + 1 := by simp
    by_cases hdone : (buffer ++ [x]).length = half
    · rw [if_pos hdone]
      exact ⟨u, buffer ++ [x], rfl, ok', hdone.le⟩
    · rw [if_neg hdone]
      exact ih ok' (by omega) (j + 1)

/-- The outer loop. -/
theorem popLevels_taken (v : s.Valid) (hs : s.heap.length < 1073741824)
    (hstate : newState ≠ s.queueNumber) {half : ℕ} (hhalf : half ≤ s.heap.length / 2) {fuel : ℕ}
    {i level : ℕ} (hi : 0 < i) (hlevel : 0 < level) (hfuel : s.heap.length < i + fuel)
    (hpos : 0 < fuel) (ok : Taken s t buffer newState) (hbuf : buffer.length < half) :
    ∃ u buffer', popLevels newState half fuel i level t buffer = some (u, buffer') ∧
      Taken s u buffer' newState ∧ buffer'.length ≤ half := by
  induction fuel generalizing i level t buffer with
  | zero => exact absurd hpos (lt_irrefl 0)
  | succ fuel ih =>
    have hadd := ok.length_add
    rw [popLevels]
    by_cases hin : i < t.heap.length
    · rw [if_pos hin]
      obtain ⟨u, buffer', hpop, ok', hlen⟩ :=
        popLevel_taken v hs hstate hi hhalf ok hbuf (level / 2) 0
      simp only [Option.bind_eq_bind, hpop, Option.bind_some]
      by_cases hdone : buffer'.length = half
      · rw [if_pos hdone]
        exact ⟨u, buffer', rfl, ok', hlen⟩
      · rw [if_neg hdone]
        have hshift : level <<< 1 = level * 2 := by simp [Nat.shiftLeft_eq]
        exact ih (by omega) (by omega) (by omega) (by omega) ok' (by omega)
    · rw [if_neg hin]
      exact ⟨t, buffer, rfl, ok, hbuf.le⟩

/-- **Taking half of the members.** -/
theorem popHalf_valid (v : s.Valid) (hs : s.heap.length < 1073741824) (max : ℕ)
    (hstate : newState ≠ s.queueNumber) :
    ∃ s' buffer, s.popHalf max newState = some (s', buffer) ∧ Taken s s' buffer newState ∧
      buffer.length ≤ min max (s.heap.length / 2) := by
  rw [popHalf, doPopHalf]
  by_cases hzero : 0 = min max (s.heap.length / 2)
  · simp only [if_pos hzero]
    exact ⟨s, [], rfl, Taken.nil v newState, Nat.zero_le _⟩
  · simp only [if_neg hzero]
    exact popLevels_taken v hs hstate (Nat.min_le_right _ _) Nat.one_pos Nat.two_pos (by omega)
      (Nat.succ_pos _) (Taken.nil v newState) (Nat.pos_of_ne_zero (Ne.symm hzero))

end Taken

end Operations

end Pqueue
end Meld
