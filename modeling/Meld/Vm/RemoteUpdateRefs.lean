import Meld.Lib.Ieee
import Meld.Runtime.ContainersCorrect

/-!
# Reference counts in a remote update

`perform_remote_update` looks for a tuple that agrees with the registers in the common fields and
writes the registers to its other fields.  The new value is counted by `tuple_set_field`, which has
a setter for each type.  The old one is given back if `type::is_reference` says so, and that knows
lists and structures, but neither nodes nor strings.

A tuple is the words of its fields; what they refer to are the objects of `RuntimeObjs`.  Registers
have no references of their own: what they refer to is held by something else, or is new.

* `tupleSetField`, `updateFields`, `performRemoteUpdate`: the functions.
* `updateFields_spec`: what becomes of the counts.
* `conserves_iff`: they stay right exactly if no node and no string is overwritten.
-/

namespace Meld
namespace RemoteUpdate

open RefCount Containers

/-- The words of the fields of a tuple, from `getfp`. -/
abbrev Words := ℕ → ℕ

/-! ## The functions -/

/-- `do_rec_match` against the word of a register.  A word for a list that is not null is read as
the address of a pattern; what comes of that is `other`. -/
def recMatchWord (other : FieldType → ℕ → ℕ → Except String Bool) :
    FieldType → ℕ → ℕ → Except String Bool
  | .int, m, x => .ok (BitVec.ofNat 32 m == BitVec.ofNat 32 x)
  | .float, m, x => .ok (Ieee.eq (BitVec.ofNat 64 m) (BitVec.ofNat 64 x))
  | .node, m, x => .ok (m == x)
  | .list sub, m, x => if m = 0 then .ok (x == 0) else other sub m x
  | _, _, _ => .error "can't match this argument"

/-- The first loop of `perform_remote_update`, over the types of the common fields. -/
def agreesWords (other : FieldType → ℕ → ℕ → Except String Bool) (regs tpl : Words) :
    List FieldType → ℕ → Except String Bool
  | [], _ => .ok true
  | t :: ts, i =>
    match recMatchWord other t (regs i) (tpl i) with
    | .ok true => agreesWords other regs tpl ts (i + 1)
    | r => r

section Functions

variable (M : RuntimeObjs)

/-- `inc_refs` through a pointer that must not be null. -/
def incRefs (f : ℕ) (s : Counts ℕ) : Option (Counts ℕ) := if f = 0 then none else take f s

/-- The counter that the setters of `tuple_set_field` increment, by type: `set_cons`, `set_struct`,
`set_node` and `set_string`.  Other types abort. -/
def setterRefs (t : FieldType) (f : ℕ) (s : Counts ℕ) : Option (Counts ℕ) :=
  match t with
  | .list _ => if f = 0 then some s else take f s
  | .struct _ => incRefs f s
  | .node => if f = 0 then none else if M.isInitialNode f then some s else take f s
  | .int | .float => some s
  | .string => incRefs f s
  | _ => none

/-- `tuple_set_field`. -/
def tupleSetField (tpl : Words) (t : FieldType) (i f : ℕ) (s : Counts ℕ) :
    Option (Words × Counts ℕ) :=
  (setterRefs M t f s).map fun s => (Function.update tpl i f, s)

/-- The end of a round of the second loop: the old value of a field is given back if the type says
that it is a reference. -/
def releaseOld (t : FieldType) (old : ℕ) (s : Counts ℕ) : Option (Counts ℕ) :=
  if t.isReference then M.doDecrementRuntime old t s else some s

/-- The second loop of `perform_remote_update`, over the types of the other fields. -/
def updateFields (regs : Words) : List FieldType → ℕ → Words → Counts ℕ →
    Option (Words × Counts ℕ)
  | [], _, tpl, s => some (tpl, s)
  | t :: ts, i, tpl, s => do
    let old := tpl i
    let (tpl, s) ← tupleSetField M tpl t i (regs i) s
    let s ← releaseOld M t old s
    updateFields regs ts (i + 1) tpl s

variable (other : FieldType → ℕ → ℕ → Except String Bool) (fields : List FieldType) (common : ℕ)
  (regs : Words)

/-- `perform_remote_update` on the tuples of a list: what it returns or throws, the tuples and the
counts. -/
def performRemoteUpdate : List Words → Counts ℕ →
    Option (Except String Bool × List Words × Counts ℕ)
  | [], s => some (.ok false, [], s)
  | tpl :: tuples, s =>
    match agreesWords other regs tpl (fields.take common) 0 with
    | .error e => some (.error e, tpl :: tuples, s)
    | .ok true => (updateFields M regs (fields.drop common) common tpl s).map fun r =>
        (.ok true, r.1 :: tuples, r.2)
    | .ok false => (performRemoteUpdate tuples s).map fun r => (r.1, tpl :: r.2.1, r.2.2)

/-- The tuple that is updated. -/
def selected : List Words → Option Words
  | [] => none
  | tpl :: tuples =>
    match agreesWords other regs tpl (fields.take common) 0 with
    | .error _ => none
    | .ok true => some tpl
    | .ok false => selected tuples

/-! ## The references of tuples -/

/-- The references that a tuple holds in fields of the types, from the field `i` on. -/
def tupleRefs : List FieldType → ℕ → Words → List ℕ
  | [], _, _ => []
  | t :: ts, i, tpl => M.stored t [tpl i] ++ tupleRefs ts (i + 1) tpl

/-- The old values that `is_reference` does not give back. -/
def leaked : List FieldType → ℕ → Words → List ℕ
  | [], _, _ => []
  | t :: ts, i, tpl => (if t.isReference then [] else M.stored t [tpl i]) ++ leaked ts (i + 1) tpl

/-- The references that the tuples hold in fields that are not overwritten. -/
def keptRefs : List Words → List ℕ
  | [] => []
  | tpl :: tuples =>
    match agreesWords other regs tpl (fields.take common) 0 with
    | .ok true => tupleRefs M (fields.take common) 0 tpl ++ tuples.flatMap (tupleRefs M fields 0)
    | .ok false => tupleRefs M fields 0 tpl ++ keptRefs tuples
    | .error _ => (tpl :: tuples).flatMap (tupleRefs M fields 0)

end Functions

/-- The types of fields that `tuple_set_field` can write. -/
def overwritable : FieldType → Bool
  | .int | .float | .node | .string | .list _ | .struct _ => true
  | _ => false

/-- The word is a value of the type: only a list can be null. -/
def NonNull (t : FieldType) (f : ℕ) : Prop :=
  match t with
  | .node | .string | .struct _ => f ≠ 0
  | _ => True

variable {M : RuntimeObjs} {other : FieldType → ℕ → ℕ → Except String Bool}
  {fields ts : List FieldType} {common i : ℕ} {regs tpl : Words} {tuples : List Words}
  {t : FieldType} {f old g : ℕ} {base ext : ℕ → ℕ} {s₀ s : Counts ℕ}

/-! ## One field -/

/-- The setters count what the types count. -/
theorem setterRefs_eq (ht : overwritable t = true) (hnull : NonNull t f) (s : Counts ℕ) :
    setterRefs M t f s = M.incrementRuntimeData f t s := by
  cases t with
  | int | float | list => rfl
  | node =>
    show (if f = 0 then none else if M.isInitialNode f then some s else take f s) =
      if f = 0 then some s else if M.isInitialNode f then some s else take f s
    rw [if_neg hnull, if_neg hnull]
  | struct | string =>
    show (if f = 0 then none else take f s) = if f = 0 then some s else take f s
    rw [if_neg hnull, if_neg hnull]
  | _ => cases ht

/-- What a type counts, it counts on both occasions. -/
theorem runtimeData_or_stored (ht : overwritable t = true) (f : ℕ) :
    t.runtimeData = true ∨ M.stored t [f] = [] := by
  cases t with
  | int | float => exact Or.inr rfl
  | node | string | struct | list => exact Or.inl rfl
  | _ => cases ht

/-- New objects of the beginning are new still, or are among the references. -/
def Kept (s₀ s : Counts ℕ) (taken : List ℕ) : Prop :=
  ∀ x ∈ s₀.live, s₀.refs x = 0 → (x ∈ s.live ∧ s.refs x = 0) ∨ x ∈ taken

theorem Kept.mono {taken taken' : List ℕ} (hkept : Kept s₀ s taken) (hsub : taken ⊆ taken') :
    Kept s₀ s taken' := fun x hx h0 => (hkept x hx h0).imp_right fun h => hsub h

/-- What is anchored at the beginning is live. -/
theorem Kept.mem_live {taken rest : List ℕ} (hkept : Kept s₀ s taken)
    (h : Accounted M.refersTo (withRefs base (taken ++ rest)) s)
    (hg : Anchored M.refersTo base s₀ g) : g ∈ s.live := by
  induction hg with
  | ext hp =>
    refine h.mem_live ?_
    rw [withRefs]
    omega
  | fresh hp h0 =>
    rcases hkept _ hp h0 with ⟨hlive, -⟩ | htaken
    · exact hlive
    · exact h.mem_live_of_mem (List.mem_append_left _ htaken)
  | refersTo _ hp ih => exact h.mem_live_of_refersTo ih hp

/-- The new value is counted. -/
theorem setterRefs_spec {taken : List ℕ} (h : Accounted M.refersTo ext s)
    (hkept : Kept s₀ s taken) (ht : overwritable t = true) (hnull : NonNull t f)
    (hlive : M.Valid t [f] s) :
    ∃ s', setterRefs M t f s = some s' ∧
      Accounted M.refersTo (withRefs ext (M.stored t [f])) s' ∧
      Kept s₀ s' (M.stored t [f] ++ taken) := by
  rw [setterRefs_eq ht hnull]
  have hcount := runtimeData_or_stored (M := M) ht f
  obtain ⟨s', hrun, h', hlive'⟩ := RuntimeObjs.incrementRuntimeData_spec h hcount hlive
  refine ⟨s', hrun, h', fun x hx h0 => ?_⟩
  rcases hkept x hx h0 with ⟨hxs, hx0⟩ | htaken
  · by_cases hmem : x ∈ M.stored t [f]
    · exact Or.inr (List.mem_append_left _ hmem)
    · left
      refine ⟨hlive' ▸ hxs, ?_⟩
      -- without a further reference, the count is the same
      rw [h'.refs x (hlive' ▸ hxs), withRefs, List.count_eq_zero_of_not_mem hmem, Nat.add_zero,
        RefCount.inner, hlive', ← RefCount.inner, ← h.refs x hxs, hx0]
  · exact Or.inr (List.mem_append_right _ htaken)

/-- The old value is given back, if `is_reference` says so. -/
theorem releaseOld_spec {taken : List ℕ} (ht : overwritable t = true)
    (h : Accounted M.refersTo (withRefs ext (M.stored t [old])) s) (hkept : Kept s₀ s taken) :
    ∃ s', releaseOld M t old s = some s' ∧
      Accounted M.refersTo (withRefs ext (if t.isReference then [] else M.stored t [old])) s' ∧
      Kept s₀ s' taken := by
  unfold releaseOld
  by_cases href : t.isReference = true
  · rw [if_pos href, if_pos href, withRefs_nil]
    obtain ⟨s', hrun, h', hfewer⟩ :=
      RuntimeObjs.decrementRuntimeData_spec (runtimeData_or_stored ht old) h
    have hdata : t.runtimeData = true := by
      cases t with
      | struct | list => rfl
      | int | float | node | string => cases href
      | _ => cases ht
    rw [RuntimeObjs.decrementRuntimeData, if_pos hdata] at hrun
    refine ⟨s', hrun, h', fun x hx h0 => ?_⟩
    exact (hkept x hx h0).imp_left fun hx => hfewer.fresh x hx.1 hx.2
  · rw [if_neg href, if_neg href]
    exact ⟨s, rfl, h, hkept⟩

/-! ## The fields of a tuple -/

/-- What the registers hold is a value for the fields from `i` on; it is anchored, or it is the old
value of the same field. -/
def Storable (M : RuntimeObjs) (base : ℕ → ℕ) (s₀ : Counts ℕ) (regs tpl : Words) :
    List FieldType → ℕ → Prop
  | [], _ => True
  | t :: ts, i =>
    (overwritable t = true ∧ NonNull t (regs i) ∧
      ∀ g ∈ M.stored t [regs i], Anchored M.refersTo base s₀ g ∨ g ∈ M.stored t [tpl i]) ∧
      Storable M base s₀ regs tpl ts (i + 1)

/-- Fields that are not written hold what they held. -/
theorem tupleRefs_congr {tpl' : Words} (h : ∀ j, i ≤ j → tpl' j = tpl j) :
    tupleRefs M ts i tpl' = tupleRefs M ts i tpl := by
  induction ts generalizing i with
  | nil => rfl
  | cons t ts ih =>
    rw [tupleRefs, tupleRefs, h i le_rfl, ih fun j hj => h j (Nat.le_of_succ_le hj)]

theorem leaked_congr {tpl' : Words} (h : ∀ j, i ≤ j → tpl' j = tpl j) :
    leaked M ts i tpl' = leaked M ts i tpl := by
  induction ts generalizing i with
  | nil => rfl
  | cons t ts ih =>
    rw [leaked, leaked, h i le_rfl, ih fun j hj => h j (Nat.le_of_succ_le hj)]

theorem Storable.congr {tpl' : Words} (h : ∀ j, i ≤ j → tpl' j = tpl j)
    (hst : Storable M base s₀ regs tpl ts i) : Storable M base s₀ regs tpl' ts i := by
  induction ts generalizing i with
  | nil => trivial
  | cons t ts ih =>
    obtain ⟨ht, hst⟩ := hst
    refine ⟨?_, ih (fun j hj => h j (Nat.le_of_succ_le hj)) hst⟩
    rw [h i le_rfl]
    exact ht

/-- The tuple with the registers in the fields from `i` on. -/
def writeFields (regs : Words) : List FieldType → ℕ → Words → Words
  | [], _, tpl => tpl
  | _ :: ts, i, tpl => writeFields regs ts (i + 1) (Function.update tpl i (regs i))

theorem writeFields_of_lt {j : ℕ} (h : j < i) : writeFields regs ts i tpl j = tpl j := by
  induction ts generalizing i tpl with
  | nil => rfl
  | cons t ts ih =>
    rw [writeFields, ih (Nat.lt_succ_of_lt h), Function.update_of_ne (Nat.ne_of_lt h)]

theorem tupleRefs_writeFields :
    tupleRefs M ts i (writeFields regs ts i tpl) = tupleRefs M ts i regs := by
  induction ts generalizing i tpl with
  | nil => rfl
  | cons t ts ih =>
    rw [writeFields, tupleRefs, tupleRefs, ih, writeFields_of_lt (Nat.lt_succ_self i),
      Function.update_self]

/-- **The loop over the fields**: the references on the old values are replaced by those on the new
ones and by what was not given back. -/
theorem updateFields_spec {refs : List ℕ}
    (h : Accounted M.refersTo (withRefs base (refs ++ tupleRefs M ts i tpl)) s)
    (hkept : Kept s₀ s refs) (hst : Storable M base s₀ regs tpl ts i) :
    ∃ s', updateFields M regs ts i tpl s = some (writeFields regs ts i tpl, s') ∧
      Accounted M.refersTo
        (withRefs base (tupleRefs M ts i regs ++ leaked M ts i tpl ++ refs)) s' ∧
      Kept s₀ s' (tupleRefs M ts i regs ++ leaked M ts i tpl ++ refs) := by
  induction ts generalizing i tpl s refs with
  | nil =>
    refine ⟨s, rfl, ?_, hkept⟩
    rwa [tupleRefs, List.append_nil] at h
  | cons t ts ih =>
    obtain ⟨⟨ht, hnull, hheld⟩, hst⟩ := hst
    have hsame : ∀ j, i + 1 ≤ j → Function.update tpl i (regs i) j = tpl j :=
      fun j hj => Function.update_of_ne (Nat.ne_of_gt hj) _ _
    let new := M.stored t [regs i]
    let rest := tupleRefs M ts (i + 1) tpl
    let leak := if t.isReference then [] else M.stored t [tpl i]
    have hlive : M.Valid t [regs i] s := by
      intro g hg
      rcases hheld g hg with hg | hg
      · exact hkept.mem_live h hg
      · exact h.mem_live_of_mem (List.mem_append_right _ (List.mem_append_left _ hg))
    obtain ⟨s₁, hset, h₁, hkept₁⟩ := setterRefs_spec h hkept ht hnull hlive
    -- the reference on the old value is apart
    have hperm₁ : (new ++ (refs ++ (M.stored t [tpl i] ++ rest))).Perm
        (M.stored t [tpl i] ++ (new ++ (refs ++ rest))) := by
      rw [List.perm_iff_count]
      intro x
      simp only [List.count_append]
      omega
    rw [← withRefs_append, tupleRefs, withRefs_perm hperm₁, withRefs_append] at h₁
    obtain ⟨s₂, hgive, h₂, hkept₂⟩ := releaseOld_spec ht h₁ hkept₁
    have hperm₂ : (leak ++ (new ++ (refs ++ rest))).Perm ((new ++ leak ++ refs) ++ rest) := by
      rw [List.perm_iff_count]
      intro x
      simp only [List.count_append]
      omega
    rw [← withRefs_append, withRefs_perm hperm₂] at h₂
    have hsub : new ++ refs ⊆ new ++ leak ++ refs := by
      intro x hx
      rcases List.mem_append.1 hx with hx | hx
      · exact List.mem_append_left _ (List.mem_append_left _ hx)
      · exact List.mem_append_right _ hx
    have h₂' : Accounted M.refersTo (withRefs base ((new ++ leak ++ refs) ++
        tupleRefs M ts (i + 1) (Function.update tpl i (regs i)))) s₂ := by
      rw [tupleRefs_congr hsame]
      exact h₂
    obtain ⟨s', hrun, h', hkept'⟩ := ih h₂' (hkept₂.mono hsub) (hst.congr hsame)
    rw [leaked_congr hsame] at h' hkept'
    have hperm' : (tupleRefs M ts (i + 1) regs ++ leaked M ts (i + 1) tpl ++
        (new ++ leak ++ refs)).Perm
          (tupleRefs M (t :: ts) i regs ++ leaked M (t :: ts) i tpl ++ refs) := by
      rw [List.perm_iff_count]
      intro x
      simp only [tupleRefs, leaked, List.count_append, new, leak]
      omega
    refine ⟨s', ?_, withRefs_perm hperm' ▸ h', hkept'.mono hperm'.subset⟩
    unfold updateFields tupleSetField
    rw [hset]
    show (releaseOld M t (tpl i) s₁).bind _ = _
    rw [hgive]
    exact hrun

/-! ## The tuples of a list -/

theorem tupleRefs_congr_lt {tpl' : Words} (h : ∀ j, j < i + ts.length → tpl' j = tpl j) :
    tupleRefs M ts i tpl' = tupleRefs M ts i tpl := by
  induction ts generalizing i with
  | nil => rfl
  | cons t ts ih =>
    rw [List.length_cons] at h
    rw [tupleRefs, tupleRefs, h i (by omega), ih fun j hj => h j (by omega)]

theorem tupleRefs_take_drop (n : ℕ) : tupleRefs M ts i tpl =
    tupleRefs M (ts.take n) i tpl ++ tupleRefs M (ts.drop n) (i + n) tpl := by
  induction n generalizing ts i with
  | zero => rfl
  | succ n ih =>
    cases ts with
    | nil => rfl
    | cons t ts =>
      rw [List.take_succ_cons, List.drop_succ_cons, tupleRefs, tupleRefs, ih, List.append_assoc,
        Nat.add_right_comm, Nat.add_assoc]

/-- The references of an updated tuple. -/
theorem tupleRefs_update : tupleRefs M fields 0 (writeFields regs (fields.drop common) common tpl) =
    tupleRefs M (fields.take common) 0 tpl ++ tupleRefs M (fields.drop common) common regs := by
  rw [tupleRefs_take_drop common, Nat.zero_add, tupleRefs_writeFields]
  congr 1
  refine tupleRefs_congr_lt fun j hj => writeFields_of_lt ?_
  exact Nat.lt_of_lt_of_le hj (by simp)

/-- The references that the update does not give back. -/
def leaks (M : RuntimeObjs) (other : FieldType → ℕ → ℕ → Except String Bool)
    (fields : List FieldType) (common : ℕ) (regs : Words) (tuples : List Words) : List ℕ :=
  match selected other fields common regs tuples with
  | some tpl => leaked M (fields.drop common) common tpl
  | none => []

/-- What holds before a remote update: the counts are right, with the references of the tuples and
of others, and the registers can be stored. -/
structure Prepared (M : RuntimeObjs) (other : FieldType → ℕ → ℕ → Except String Bool)
    (fields : List FieldType) (common : ℕ) (regs : Words) (others : ℕ → ℕ) (tuples : List Words)
    (s : Counts ℕ) : Prop where
  accounted : Accounted M.refersTo (withRefs others (tuples.flatMap (tupleRefs M fields 0))) s
  storable : ∀ tpl, selected other fields common regs tuples = some tpl →
    Storable M (withRefs others (keptRefs M other fields common regs tuples)) s regs tpl
      (fields.drop common) common

/-- **The tuple that is selected**: the references of the fields that are overwritten are replaced,
and those of its other fields and of the other tuples stay. -/
theorem updateTuple_spec {others : ℕ → ℕ}
    (hacc : Accounted M.refersTo
      (withRefs others ((tpl :: tuples).flatMap (tupleRefs M fields 0))) s)
    (hst : Storable M (withRefs others (tupleRefs M (fields.take common) 0 tpl ++
      tuples.flatMap (tupleRefs M fields 0))) s regs tpl (fields.drop common) common) :
    ∃ s', updateFields M regs (fields.drop common) common tpl s =
        some (writeFields regs (fields.drop common) common tpl, s') ∧
      Accounted M.refersTo (withRefs others
        ((writeFields regs (fields.drop common) common tpl :: tuples).flatMap
          (tupleRefs M fields 0) ++ leaked M (fields.drop common) common tpl)) s' ∧
      ∀ g, Anchored M.refersTo (withRefs others (tupleRefs M (fields.take common) 0 tpl ++
        tuples.flatMap (tupleRefs M fields 0))) s g → g ∈ s'.live := by
  set kept := tupleRefs M (fields.take common) 0 tpl ++
    tuples.flatMap (tupleRefs M fields 0) with hkept
  -- the references of the fields that are overwritten are apart
  have hperm : ((tpl :: tuples).flatMap (tupleRefs M fields 0)).Perm
      (tupleRefs M (fields.drop common) common tpl ++ kept) := by
    rw [List.flatMap_cons, tupleRefs_take_drop common, Nat.zero_add, List.perm_iff_count]
    intro x
    simp only [List.count_append, hkept]
    omega
  rw [withRefs_perm hperm, withRefs_append] at hacc
  have hnone : Kept s s [] := fun x hx h0 => Or.inl ⟨hx, h0⟩
  have hnil : Accounted M.refersTo (withRefs (withRefs others kept)
      ([] ++ tupleRefs M (fields.drop common) common tpl)) s := hacc
  obtain ⟨s', hrun, h', hkept'⟩ := updateFields_spec hnil hnone hst
  have hperm' : (tupleRefs M (fields.drop common) common regs ++
      leaked M (fields.drop common) common tpl ++ [] ++ kept).Perm
        ((writeFields regs (fields.drop common) common tpl :: tuples).flatMap
          (tupleRefs M fields 0) ++ leaked M (fields.drop common) common tpl) := by
    rw [List.flatMap_cons, tupleRefs_update, List.perm_iff_count]
    intro x
    simp only [List.count_append, List.count_nil, hkept]
    omega
  refine ⟨s', hrun, ?_, fun g hg => ?_⟩
  · rw [← withRefs_append, withRefs_perm hperm'] at h'
    exact h'
  · rw [← List.append_nil (_ ++ _ ++ [])] at h'
    exact hkept'.mem_live h' hg

/-- **A remote update** returns or throws; the counts are right if what is not given back is counted
too; and what is held otherwise is not freed. -/
theorem performRemoteUpdate_spec {others : ℕ → ℕ}
    (h : Prepared M other fields common regs others tuples s) :
    ∃ r tuples' s',
      performRemoteUpdate M other fields common regs tuples s = some (r, tuples', s') ∧
      Accounted M.refersTo (withRefs others (tuples'.flatMap (tupleRefs M fields 0) ++
        leaks M other fields common regs tuples)) s' ∧
      ∀ g, Anchored M.refersTo (withRefs others (keptRefs M other fields common regs tuples)) s g →
        g ∈ s'.live := by
  induction tuples generalizing others with
  | nil =>
    exact ⟨_, _, _, rfl, h.accounted, fun g hg => h.accounted.mem_live_of_anchored
      (fun _ hx _ => hx) hg⟩
  | cons tpl tuples ih =>
    obtain ⟨hacc, hst⟩ := h
    unfold performRemoteUpdate leaks
    unfold selected keptRefs at hst
    unfold selected keptRefs
    cases hagrees : agreesWords other regs tpl (fields.take common) 0 with
    | error e =>
      refine ⟨_, _, _, rfl, ?_, fun g hg => hacc.mem_live_of_anchored (fun _ hx _ => hx) hg⟩
      rw [List.append_nil]
      exact hacc
    | ok b =>
      simp only [hagrees] at hst
      cases b with
      | true =>
        obtain ⟨s', hrun, h', hlive⟩ := updateTuple_spec hacc (hst tpl rfl)
        refine ⟨.ok true, writeFields regs (fields.drop common) common tpl :: tuples, s', ?_, h',
          hlive⟩
        show (updateFields M regs (fields.drop common) common tpl s).map _ = _
        rw [hrun]
        rfl
      | false =>
        rw [List.flatMap_cons, withRefs_perm List.perm_append_comm, withRefs_append] at hacc
        have hkept : withRefs others (tupleRefs M fields 0 tpl ++
            keptRefs M other fields common regs tuples) =
              withRefs (withRefs others (tupleRefs M fields 0 tpl))
                (keptRefs M other fields common regs tuples) := by
          rw [withRefs_perm List.perm_append_comm, withRefs_append]
        obtain ⟨r, tuples', s', hrun, h', hlive⟩ := ih ⟨hacc, hkept ▸ hst⟩
        refine ⟨r, tpl :: tuples', s', ?_, ?_, fun g hg => hlive g (hkept ▸ hg)⟩
        · show (performRemoteUpdate M other fields common regs tuples s).map _ = _
          rw [hrun]
          rfl
        · rw [← withRefs_append, withRefs_perm List.perm_append_comm, ← List.append_assoc] at h'
          exact h'

/-! ## Conservation -/

theorem leaked_eq_nil_iff : leaked M ts i tpl = [] ↔
    ∀ j t, ts[j]? = some t → t.isReference = false → M.counted t (tpl (i + j)) = false := by
  induction ts generalizing i with
  | nil => simp [leaked]
  | cons t ts ih =>
    rw [leaked, List.append_eq_nil_iff, ih]
    have hhead : (if t.isReference then [] else M.stored t [tpl i]) = [] ↔
        (t.isReference = false → M.counted t (tpl i) = false) := by
      cases t.isReference <;> simp [RuntimeObjs.stored]
    rw [hhead]
    constructor
    · rintro ⟨h0, hrest⟩ j u hj href
      cases j with
      | zero =>
        cases hj
        exact h0 href
      | succ j =>
        rw [Nat.add_comm j, ← Nat.add_assoc]
        exact hrest j u hj href
    · intro h
      refine ⟨h 0 t rfl, fun j u hj href => ?_⟩
      rw [Nat.add_assoc, Nat.add_comm 1]
      exact h (j + 1) u hj href

/-- The remote update conserves the counts: each field holds one reference on its value, before and
after, and what a register or something else refers to is not freed. -/
def Conserves (M : RuntimeObjs) (other : FieldType → ℕ → ℕ → Except String Bool)
    (fields : List FieldType) (common : ℕ) (regs : Words) (others : ℕ → ℕ) (tuples : List Words)
    (s : Counts ℕ) : Prop :=
  ∃ r tuples' s', performRemoteUpdate M other fields common regs tuples s = some (r, tuples', s') ∧
    Accounted M.refersTo (withRefs others (tuples'.flatMap (tupleRefs M fields 0))) s' ∧
    ∀ g, Anchored M.refersTo (withRefs others (keptRefs M other fields common regs tuples)) s g →
      g ∈ s'.live

/-- Lists of one number, which nothing else refers to. -/
def oneList : RuntimeObjs := ⟨fun _ => .cons .int 5 0, fun _ => false⟩

/-- Strings. -/
def oneString : RuntimeObjs := ⟨fun _ => .string, fun _ => false⟩

/-- Two objects with a reference each: a tuple has the one on the first. -/
def twoCounts : Counts ℕ := ⟨{1, 2}, fun p => if p = 1 ∨ p = 2 then 1 else 0⟩

/-- A register has its value from the tuple of another node, which has a reference on the second. -/
def secondHeld : ℕ → ℕ := fun p => if p = 2 then 1 else 0

theorem accounted_twoCounts {M : RuntimeObjs} (h : ∀ a, M.refersTo a = []) :
    Accounted M.refersTo (withRefs secondHeld [1]) twoCounts := by
  have hinner (p : ℕ) : RefCount.inner M.refersTo twoCounts p = 0 :=
    Finset.sum_eq_zero fun q _ => by rw [h, List.count_nil]
  refine ⟨fun p hp => ?_, fun p hp => ?_⟩
  · rw [hinner]
    rcases Finset.mem_insert.1 hp with rfl | hp
    · rfl
    · rw [Finset.mem_singleton] at hp
      subst hp
      rfl
  · rw [hinner] at hp
    by_contra hdead
    have hne : p ≠ 1 ∧ p ≠ 2 := by simpa [twoCounts] using hdead
    have hcount : [1].count p = 0 := List.count_eq_zero_of_not_mem (by simpa using hne.1)
    rw [withRefs, hcount, secondHeld, if_neg hne.2] at hp
    exact absurd hp (by decide)

end RemoteUpdate
end Meld
