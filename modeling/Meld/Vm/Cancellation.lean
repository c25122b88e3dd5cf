import Meld.Vm.DerivationDepth
import Meld.Vm.PersistentTuplesCorrect

/-!
# Cancelling a derivation with its retraction

`do_persistent_tuples` drops a derived tuple together with the first equal retraction further back
in the queue, whatever their depths.  Processing the queue in order would have recorded the
derivation at its depth and would have let the retraction take one derivation from *its* depth, and
the deeper ones with it when none was left there.  The two agree tuple by tuple: what cancellation
does to one tuple is to hold its derivations back, to let every retraction drop the oldest of them,
and to record what is held back in the end.

* `Record`: the count of a tuple and the depths of its derivations, with `derive` and `retract`.
* `record_insertTuple`, `record_remove`: the operations of the trie on the record of every tuple.
* `Harmless`: a derivation can be dropped with a retraction.
* `drainOwn`, `inOrder`: the queue with and without cancellation, every derivation recorded at its
  own depth.
* `cancellation_iff`: the two agree on a queue and all its beginnings if and only if every dropped
  pair is harmless.
* `not_forall_cancellation`: dropping the first of two derivations with the retraction of the
  second.
-/

namespace Meld

/-! ## The depths of a counter as a multiset -/

namespace DepthCounter

/-- The depths of the derivations that a counter records. -/
def derivations (D : DepthCounter) : Multiset ℕ :=
  (D.map fun e => Multiset.replicate e.2 e.1).sum

theorem count_derivations {D : DepthCounter} (h : Ordered D) (d : ℕ) :
    (derivations D).count d = getCount D d := by
  unfold derivations
  induction D with
  | nil => rfl
  | cons e D ih =>
    obtain ⟨hhead, htail⟩ := List.pairwise_cons.1 h
    rw [List.map_cons, List.sum_cons, Multiset.count_add, ih htail, getCount_cons,
      Multiset.count_replicate]
    by_cases hd : d = e.1
    · have hzero : getCount D d = 0 := getCount_eq_zero fun f hf => hd ▸ Nat.ne_of_lt (hhead f hf)
      rw [if_pos hd, if_pos hd.symm, hzero, Nat.add_zero]
    · rw [if_neg hd, if_neg (Ne.symm hd), Nat.zero_add]

/-- `delete_depths_above` takes as many references as there are deeper derivations. -/
theorem deleteDepthsAbove_snd (D : DepthCounter) (depth : ℕ) :
    (deleteDepthsAbove depth D).2 = ((derivations D).filter (depth < ·)).card := by
  show ((D.filter fun e => depth < e.1).map Prod.snd).sum = _
  unfold derivations
  induction D with
  | nil => rfl
  | cons e D ih =>
    rw [List.map_cons, List.sum_cons, Multiset.filter_add, Multiset.card_add, ← ih]
    by_cases hd : depth < e.1
    · have hall : ((Multiset.replicate e.2 e.1).filter (depth < ·)) = Multiset.replicate e.2 e.1 :=
        Multiset.filter_eq_self.2 fun a ha => Multiset.eq_of_mem_replicate ha ▸ hd
      rw [List.filter_cons_of_pos (by simpa using hd), List.map_cons, List.sum_cons, hall,
        Multiset.card_replicate]
    · have hnone : ((Multiset.replicate e.2 e.1).filter (depth < ·)) = 0 :=
        Multiset.filter_eq_nil.2 fun a ha => Multiset.eq_of_mem_replicate ha ▸ hd
      rw [List.filter_cons_of_neg (by simpa using hd), hnone, Multiset.card_zero, Nat.zero_add]

theorem derivations_sub {D : DepthCounter} (h : Ordered D) (depth : ℕ) :
    derivations (DepthCounter.sub depth 1 D) = (derivations D).erase depth := by
  ext d
  rw [count_derivations (h.sub depth 1), getCount_sub h, ← count_derivations h]
  by_cases hd : d = depth
  · rw [if_pos hd, hd, Multiset.count_erase_self]
  · rw [if_neg hd, Nat.sub_zero, Multiset.count_erase_of_ne hd]

end DepthCounter

/-! ## Records -/

/-- What a trie knows of one tuple: the count of its leaf and the depths of the derivations that the
depth counter records. -/
@[ext]
structure Record where
  count : ℕ
  depths : Multiset ℕ

namespace Record

/-- The record of a tuple that is not there. -/
def none : Record := ⟨0, 0⟩

/-- Of a tuple that is not there nothing is recorded. -/
def Valid (R : Record) : Prop := R.count = 0 → R.depths = 0

/-- One more derivation. -/
def derive (d : ℕ) (R : Record) : Record := ⟨R.count + 1, d ::ₘ R.depths⟩

/-- The count that a retraction leaves: the deeper derivations go when none is left at its depth. -/
def retractCount (d : ℕ) (R : Record) : ℕ :=
  if R.count ≤ 1 then 0
  else if d ∈ R.depths.erase d then R.count - 1
  else subRefCount (R.count - 1) ((R.depths.erase d).filter (d < ·)).card

/-- One retraction. -/
def retract (d : ℕ) (R : Record) : Record :=
  ⟨R.retractCount d,
    if R.retractCount d = 0 then 0
    else if d ∈ R.depths.erase d then R.depths.erase d
    else (R.depths.erase d).filter (· ≤ d)⟩

/-- The two records say the same about the tuple being there and about the depths. -/
def Alike (R R' : Record) : Prop := (R.count = 0 ↔ R'.count = 0) ∧ R.depths = R'.depths

variable {R : Record} {d e : ℕ}

theorem valid_derive (d : ℕ) (R : Record) : (R.derive d).Valid := fun h =>
  absurd h (Nat.succ_ne_zero _)

theorem valid_retract (d : ℕ) (R : Record) : (R.retract d).Valid := fun h => if_pos h

@[simp] theorem depths_derive (d : ℕ) (R : Record) : (R.derive d).depths = d ::ₘ R.depths := rfl

@[simp] theorem count_derive (d : ℕ) (R : Record) : (R.derive d).count = R.count + 1 := rfl

theorem count_retract (d : ℕ) (R : Record) : (R.retract d).count = R.retractCount d := rfl

/-- The depths that are left of a tuple that stays. -/
theorem depths_retract (h : R.retractCount d ≠ 0) :
    (R.retract d).depths = if d ∈ R.depths.erase d then R.depths.erase d
      else (R.depths.erase d).filter (· ≤ d) := if_neg h

/-- The derivations that a retraction leaves at every depth. -/
theorem count_depths_retract (d : ℕ) (R : Record) (f : ℕ) :
    (R.retract d).depths.count f =
      if R.retractCount d = 0 then 0 else TupleTrie.retracted d (fun e => R.depths.count e) f := by
  by_cases hzero : R.retractCount d = 0
  · rw [if_pos hzero, retract, if_pos hzero, Multiset.count_zero]
  rw [if_neg hzero, depths_retract hzero, TupleTrie.retracted]
  have hleft : d ∈ R.depths.erase d ↔ 1 < R.depths.count d := by
    rw [← Multiset.count_pos, Multiset.count_erase_self]
    omega
  by_cases hmem : d ∈ R.depths.erase d
  · rw [if_pos hmem]
    by_cases hf : f = d
    · rw [if_pos hf, hf, Multiset.count_erase_self]
    · rw [if_neg hf, Multiset.count_erase_of_ne hf,
        if_neg fun hb => absurd (hleft.1 hmem) (Nat.not_lt.2 hb.2)]
  · rw [if_neg hmem, Multiset.count_filter]
    have hone : R.depths.count d ≤ 1 := Nat.not_lt.1 fun hlt => hmem (hleft.2 hlt)
    by_cases hf : f = d
    · rw [if_pos hf, if_pos (Nat.le_of_eq hf), hf, Multiset.count_erase_self]
    · rw [if_neg hf, Multiset.count_erase_of_ne hf]
      by_cases hlt : d < f
      · rw [if_neg (Nat.not_le.2 hlt), if_pos ⟨hlt, hone⟩]
      · rw [if_pos (Nat.not_lt.1 hlt), if_neg fun hb => hlt hb.1]

theorem derive_comm (d e : ℕ) (R : Record) : (R.derive d).derive e = (R.derive e).derive d := by
  ext1
  · rfl
  · exact Multiset.cons_swap e d R.depths

/-- Many derivations. -/
def deriveAll (ds : List ℕ) (R : Record) : Record := ds.foldl (fun R d => R.derive d) R

theorem deriveAll_append (ds es : List ℕ) (R : Record) :
    R.deriveAll (ds ++ es) = (R.deriveAll ds).deriveAll es := List.foldl_append

theorem deriveAll_derive (ds : List ℕ) (d : ℕ) (R : Record) :
    (R.derive d).deriveAll ds = (R.deriveAll ds).derive d := by
  induction ds generalizing R with
  | nil => rfl
  | cons e ds ih =>
    show ((R.derive d).derive e).deriveAll ds = ((R.derive e).deriveAll ds).derive d
    rw [derive_comm, ih]

theorem valid_deriveAll (h : R.Valid) (ds : List ℕ) : (R.deriveAll ds).Valid := by
  induction ds generalizing R with
  | nil => exact h
  | cons d ds ih => exact ih (valid_derive d R)

/-- A derivation of depth `d` can be dropped with a retraction of depth `e`: the tuple is not there
otherwise, or the depths are the same and, with this derivation gone, either one of the same depth
is left or there is none deeper. -/
def Harmless (R : Record) (d e : ℕ) : Prop :=
  R.count = 0 ∨ d = e ∧ (e ∈ R.depths ∨ ∀ f ∈ R.depths, f ≤ e)

theorem retract_derive_of_harmless (hvalid : R.Valid) (h : R.Harmless d e) :
    (R.derive d).retract e = R := by
  rcases h with hzero | ⟨rfl, hdepths⟩
  · have hcount : (R.derive d).retractCount e = 0 := if_pos (by rw [derive, hzero])
    ext1
    · rw [retract, hcount, hzero]
    · rw [retract, if_pos hcount, hvalid hzero]
  · have herase : (d ::ₘ R.depths).erase d = R.depths := Multiset.erase_cons_head d R.depths
    by_cases hzero : R.count = 0
    · have hcount : (R.derive d).retractCount d = 0 := if_pos (by rw [derive, hzero])
      ext1
      · rw [retract, hcount, hzero]
      · rw [retract, if_pos hcount, hvalid hzero]
    · have hmany : ¬ R.count + 1 ≤ 1 := by omega
      by_cases hmem : d ∈ R.depths
      · have hcount : (R.derive d).retractCount d = R.count := by
          simp only [retractCount, derive, herase, if_neg hmany, if_pos hmem, Nat.add_sub_cancel]
        ext1
        · exact hcount
        · rw [depths_retract (hcount ▸ hzero), depths_derive, herase, if_pos hmem]
      · have hdeep : ∀ f ∈ R.depths, f ≤ d := hdepths.resolve_left hmem
        have hnone : R.depths.filter (d < ·) = 0 :=
          Multiset.filter_eq_nil.2 fun f hf => Nat.not_lt.2 (hdeep f hf)
        have hall : R.depths.filter (· ≤ d) = R.depths := Multiset.filter_eq_self.2 hdeep
        have hcount : (R.derive d).retractCount d = R.count := by
          simp only [retractCount, derive, herase, if_neg hmany, if_neg hmem, hnone,
            Multiset.card_zero, Nat.add_sub_cancel, subRefCount, if_pos (Nat.zero_le _),
            Nat.sub_zero]
        ext1
        · exact hcount
        · rw [depths_retract (hcount ▸ hzero), depths_derive, herase, if_neg hmem, hall]

/-- When a retraction of a recorded depth restores the depths, it was harmless to drop it. -/
theorem harmless_of_alike (hmem : e ∈ (R.derive d).depths) (h : R.Alike ((R.derive d).retract e)) :
    R.Harmless d e := by
  obtain ⟨hthere, hdepths⟩ := h
  by_cases hzero : R.count = 0
  · exact Or.inl hzero
  refine Or.inr ?_
  have hne : (R.derive d).retractCount e ≠ 0 := fun h0 => hzero (hthere.2 h0)
  rw [depths_derive] at hmem
  have hcard : ((d ::ₘ R.depths).erase e).card = R.depths.card := by
    rw [Multiset.card_erase_of_mem hmem, Multiset.card_cons, Nat.pred_succ]
  have hrestored : (d ::ₘ R.depths).erase e = R.depths → d = e := by
    intro heq
    have hcons := Multiset.cons_erase hmem
    rw [heq] at hcons
    exact ((Multiset.cons_inj_left R.depths).1 hcons).symm
  rw [depths_retract hne, depths_derive] at hdepths
  split at hdepths
  next hleft =>
    rw [← hdepths] at hleft
    exact ⟨hrestored hdepths.symm, Or.inl hleft⟩
  next hleft =>
    have hkept : ((d ::ₘ R.depths).erase e).filter (· ≤ e) = (d ::ₘ R.depths).erase e := by
      refine Multiset.eq_of_le_of_card_le (Multiset.filter_le _ _) ?_
      rw [hcard, ← hdepths]
    rw [hkept] at hdepths
    refine ⟨hrestored hdepths.symm, Or.inr fun f hf => ?_⟩
    rw [hdepths] at hf
    exact Multiset.filter_eq_self.1 hkept f hf

/-- When a retraction restores the record, it was harmless to drop it. -/
theorem harmless_of_eq (h : R = (R.derive d).retract e) : R.Harmless d e := by
  by_cases hmem : e ∈ (R.derive d).depths
  · exact harmless_of_alike hmem ⟨by rw [← h], congrArg depths h⟩
  by_cases hzero : R.count = 0
  · exact Or.inl hzero
  -- nothing is recorded at the depth, so that the one derivation that went was counted twice
  exfalso
  have herase : (R.derive d).depths.erase e = (R.derive d).depths :=
    Multiset.erase_of_notMem hmem
  have hmany : ¬ (R.derive d).count ≤ 1 := by
    rw [count_derive]
    omega
  have hcount : R.count = subRefCount R.count ((R.derive d).depths.filter (e < ·)).card := by
    have hleft := congrArg Record.count h
    simp only [retract, retractCount, herase, if_neg hmany, if_neg hmem] at hleft
    exact hleft
  have hdepths : R.depths = (R.derive d).depths.filter (· ≤ e) := by
    have hne : (R.derive d).retractCount e ≠ 0 := by
      rw [← count_retract, ← h]
      exact hzero
    have hleft := congrArg Record.depths h
    rw [depths_retract hne, herase, if_neg hmem] at hleft
    exact hleft
  have hsplit := congrArg Multiset.card (Multiset.filter_add_not (· ≤ e) (R.derive d).depths)
  simp only [Nat.not_le] at hsplit
  rw [Multiset.card_add, ← hdepths, depths_derive, Multiset.card_cons] at hsplit
  have hone : ((d ::ₘ R.depths).filter (e < ·)).card = 1 := by omega
  rw [depths_derive, hone, subRefCount, if_pos (Nat.one_le_iff_ne_zero.2 hzero)] at hcount
  omega

/-! ### Processing a queue of one tuple -/

/-- One entry of the queue, processed in order. -/
def apply (R : Record) (x : FullTuple) : Record :=
  match x.dir with
  | .positive => R.derive x.depth
  | .negative => R.retract x.depth

/-- The entries of the queue, processed in order. -/
def applyAll (R : Record) (q : List FullTuple) : Record := q.foldl apply R

/-- The entries of the queue with cancellation, derivations being held back: what is recorded in the
end, the derivations that are still held back included. -/
def cancelAll : Record → List ℕ → List FullTuple → Record
  | R, held, [] => R.deriveAll held
  | R, held, x :: q =>
    match x.dir, held with
    | .positive, held => cancelAll R (held ++ [x.depth]) q
    | .negative, [] => cancelAll (R.retract x.depth) [] q
    | .negative, _ :: held => cancelAll R held q

/-- Every retraction that drops a derivation does so without harm. -/
def HarmlessAlong : Record → List ℕ → List FullTuple → Prop
  | _, _, [] => True
  | R, held, x :: q =>
    match x.dir, held with
    | .positive, held => HarmlessAlong R (held ++ [x.depth]) q
    | .negative, [] => HarmlessAlong (R.retract x.depth) [] q
    | .negative, d :: held =>
      (R.deriveAll held).Harmless d x.depth ∧ HarmlessAlong R held q

/-- Every retraction that drops no derivation finds the tuple. -/
def FindsAlong : Record → List ℕ → List FullTuple → Prop
  | _, _, [] => True
  | R, held, x :: q =>
    match x.dir, held with
    | .positive, held => FindsAlong R (held ++ [x.depth]) q
    | .negative, [] => R.count ≠ 0 ∧ FindsAlong (R.retract x.depth) [] q
    | .negative, _ :: held => FindsAlong R held q

section Along

variable {x : FullTuple} {q : List FullTuple} {held : List ℕ}

theorem cancelAll_positive (hx : x.dir = .positive) (R : Record) (held : List ℕ)
    (q : List FullTuple) : R.cancelAll held (x :: q) = R.cancelAll (held ++ [x.depth]) q := by
  simp only [cancelAll, hx]

theorem cancelAll_negative (hx : x.dir = .negative) (R : Record) (q : List FullTuple) :
    R.cancelAll [] (x :: q) = (R.retract x.depth).cancelAll [] q := by
  simp only [cancelAll, hx]

theorem cancelAll_drop (hx : x.dir = .negative) (R : Record) (d : ℕ) (held : List ℕ)
    (q : List FullTuple) : R.cancelAll (d :: held) (x :: q) = R.cancelAll held q := by
  simp only [cancelAll, hx]

theorem harmlessAlong_positive (hx : x.dir = .positive) :
    R.HarmlessAlong held (x :: q) ↔ R.HarmlessAlong (held ++ [x.depth]) q := by
  simp only [HarmlessAlong, hx]

theorem harmlessAlong_negative (hx : x.dir = .negative) :
    R.HarmlessAlong [] (x :: q) ↔ (R.retract x.depth).HarmlessAlong [] q := by
  simp only [HarmlessAlong, hx]

theorem harmlessAlong_drop (hx : x.dir = .negative) :
    R.HarmlessAlong (d :: held) (x :: q) ↔
      (R.deriveAll held).Harmless d x.depth ∧ R.HarmlessAlong held q := by
  simp only [HarmlessAlong, hx]

theorem findsAlong_positive (hx : x.dir = .positive) :
    R.FindsAlong held (x :: q) ↔ R.FindsAlong (held ++ [x.depth]) q := by
  simp only [FindsAlong, hx]

theorem findsAlong_negative (hx : x.dir = .negative) :
    R.FindsAlong [] (x :: q) ↔ R.count ≠ 0 ∧ (R.retract x.depth).FindsAlong [] q := by
  simp only [FindsAlong, hx]

theorem findsAlong_drop (hx : x.dir = .negative) :
    R.FindsAlong (d :: held) (x :: q) ↔ R.FindsAlong held q := by
  simp only [FindsAlong, hx]

theorem applyAll_cons (R : Record) (x : FullTuple) (q : List FullTuple) :
    R.applyAll (x :: q) = (R.apply x).applyAll q := rfl

theorem apply_positive (hx : x.dir = .positive) (R : Record) : R.apply x = R.derive x.depth := by
  rw [apply, hx]

theorem apply_negative (hx : x.dir = .negative) (R : Record) : R.apply x = R.retract x.depth := by
  rw [apply, hx]

theorem deriveAll_concat (R : Record) (held : List ℕ) (d : ℕ) :
    R.deriveAll (held ++ [d]) = (R.deriveAll held).derive d := deriveAll_append held [d] R

theorem deriveAll_cons (R : Record) (d : ℕ) (held : List ℕ) :
    R.deriveAll (d :: held) = (R.deriveAll held).derive d := deriveAll_derive held d R

/-- Without harm, the queue is processed as in order. -/
theorem HarmlessAlong.cancelAll_eq (h : R.HarmlessAlong held q) (hR : R.Valid) :
    R.cancelAll held q = (R.deriveAll held).applyAll q := by
  induction q generalizing R held with
  | nil => rfl
  | cons x q ih =>
    rw [applyAll_cons]
    cases hx : x.dir with
    | positive =>
      rw [harmlessAlong_positive hx] at h
      rw [cancelAll_positive hx, ih h hR, apply_positive hx, deriveAll_concat]
    | negative =>
      cases held with
      | nil =>
        rw [harmlessAlong_negative hx] at h
        rw [cancelAll_negative hx, ih h (valid_retract _ _), apply_negative hx]
        rfl
      | cons d held =>
        rw [harmlessAlong_drop hx] at h
        rw [cancelAll_drop hx, ih h.2 hR, apply_negative hx, deriveAll_cons,
          retract_derive_of_harmless (valid_deriveAll hR held) h.1]

theorem HarmlessAlong.of_isPrefix {r : List FullTuple} (h : R.HarmlessAlong held q) (hr : r <+: q) :
    R.HarmlessAlong held r := by
  induction q generalizing R held r with
  | nil =>
    rw [List.prefix_nil.1 hr]
    trivial
  | cons x q ih =>
    cases r with
    | nil => trivial
    | cons y r =>
      obtain ⟨rfl, hrest⟩ := List.cons_prefix_cons.1 hr
      cases hx : y.dir with
      | positive =>
        rw [harmlessAlong_positive hx] at h ⊢
        exact ih h hrest
      | negative =>
        cases held with
        | nil =>
          rw [harmlessAlong_negative hx] at h ⊢
          exact ih h hrest
        | cons d held =>
          rw [harmlessAlong_drop hx] at h ⊢
          exact ⟨h.1, ih h.2 hrest⟩

/-- Processed in order, every retraction meets a record of the kind. -/
def Meets (B : Record → FullTuple → Prop) : Record → List FullTuple → Prop
  | _, [] => True
  | R, x :: q => (x.dir = .negative → B R x) ∧ Meets B (R.apply x) q

theorem meets_true (R : Record) (q : List FullTuple) : Meets (fun _ _ => True) R q := by
  induction q generalizing R with
  | nil => trivial
  | cons x q ih => exact ⟨fun _ => trivial, ih _⟩

/-- Without harm, a retraction that finds the tuple in order finds it with cancellation. -/
theorem HarmlessAlong.findsAlong (h : R.HarmlessAlong held q) (hR : R.Valid)
    (hfinds : Meets (fun R _ => R.count ≠ 0) (R.deriveAll held) q) : R.FindsAlong held q := by
  induction q generalizing R held with
  | nil => trivial
  | cons x q ih =>
    obtain ⟨hfirst, hrest⟩ := hfinds
    cases hx : x.dir with
    | positive =>
      rw [harmlessAlong_positive hx] at h
      rw [apply_positive hx, ← deriveAll_concat] at hrest
      rw [findsAlong_positive hx]
      exact ih h hR hrest
    | negative =>
      rw [apply_negative hx] at hrest
      cases held with
      | nil =>
        rw [harmlessAlong_negative hx] at h
        rw [findsAlong_negative hx]
        exact ⟨hfirst hx, ih h (valid_retract _ _) hrest⟩
      | cons d held =>
        rw [harmlessAlong_drop hx] at h
        rw [deriveAll_cons, retract_derive_of_harmless (valid_deriveAll hR held) h.1] at hrest
        rw [findsAlong_drop hx]
        exact ih h.2 hR hrest

/-- When cancellation agrees with processing in order on every beginning of the queue, in a way that
tells a harmless drop, it does no harm. -/
theorem harmlessAlong_of_agree {E : Record → Record → Prop} {B : Record → FullTuple → Prop}
    (hE : ∀ (R : Record) d x, R.Valid → B (R.derive d) x → E R ((R.derive d).retract x.depth) →
      R.Harmless d x.depth) (hR : R.Valid)
    (hB : Meets B (R.deriveAll held) q)
    (h : ∀ r, r <+: q → E (R.cancelAll held r) ((R.deriveAll held).applyAll r)) :
    R.HarmlessAlong held q := by
  induction q generalizing R held with
  | nil => trivial
  | cons x q ih =>
    obtain ⟨hfirst, hB'⟩ := hB
    have h' : ∀ r, r <+: q →
        E (R.cancelAll held (x :: r)) (((R.deriveAll held).apply x).applyAll r) := fun r hr =>
      h (x :: r) (List.cons_prefix_cons.2 ⟨rfl, hr⟩)
    cases hx : x.dir with
    | positive =>
      rw [harmlessAlong_positive hx]
      rw [apply_positive hx, ← deriveAll_concat] at hB' h'
      refine ih hR hB' fun r hr => ?_
      rw [← cancelAll_positive hx]
      exact h' r hr
    | negative =>
      rw [apply_negative hx] at hB' h'
      cases held with
      | nil =>
        rw [harmlessAlong_negative hx]
        refine ih (valid_retract _ _) hB' fun r hr => ?_
        rw [← cancelAll_negative hx]
        exact h' r hr
      | cons d held =>
        rw [harmlessAlong_drop hx]
        have hvalid := valid_deriveAll hR held
        have hfound := hfirst hx
        have hone := h' [] List.nil_prefix
        rw [cancelAll_drop hx, deriveAll_cons] at hone
        rw [deriveAll_cons] at hfound
        have hharmless := hE _ d x hvalid hfound hone
        rw [deriveAll_cons, retract_derive_of_harmless hvalid hharmless] at hB' h'
        refine ⟨hharmless, ih hR hB' fun r hr => ?_⟩
        rw [← cancelAll_drop hx]
        exact h' r hr

/-- Dropping a derivation with the first retraction after it. -/
theorem cancelAll_pair {y : FullTuple} {l m : List FullTuple}
    (hy : y.dir = .negative) (hl : ∀ z ∈ l, z.dir = .positive) (R : Record) (d : ℕ)
    (held : List ℕ) :
    R.cancelAll (d :: held) (l ++ y :: m) = R.cancelAll held (l ++ m) ∧
      (R.FindsAlong (d :: held) (l ++ y :: m) ↔ R.FindsAlong held (l ++ m)) := by
  induction l generalizing held with
  | nil => exact ⟨cancelAll_drop hy R d held m, findsAlong_drop hy⟩
  | cons z l ih =>
    have hz := hl z List.mem_cons_self
    rw [List.cons_append, List.cons_append, cancelAll_positive hz, cancelAll_positive hz,
      findsAlong_positive hz, findsAlong_positive hz, List.cons_append]
    exact ih (fun w hw => hl w (List.mem_cons_of_mem _ hw)) _

/-- Without retractions nothing is dropped. -/
theorem cancelAll_of_positive (hq : ∀ z ∈ q, z.dir = .positive) (R : Record) (held : List ℕ) :
    R.cancelAll held q = (R.deriveAll held).applyAll q ∧ R.FindsAlong held q := by
  induction q generalizing held with
  | nil => exact ⟨rfl, trivial⟩
  | cons z q ih =>
    have hz := hq z List.mem_cons_self
    rw [cancelAll_positive hz, findsAlong_positive hz, applyAll_cons, apply_positive hz,
      ← deriveAll_concat]
    exact ih (fun w hw => hq w (List.mem_cons_of_mem _ hw)) _

end Along

end Record

/-! ## The records of a trie -/

namespace TupleTrie

variable {nodeId : BitVec 64 → ℕ} {fields : List FieldType} {T T' : TupleTrie}
  {M : Multiset Tuple} {tpl : Tuple} {depth : ℕ}

/-- The record of a tuple. -/
def record (nodeId : BitVec 64 → ℕ) (T : TupleTrie) (tpl : Tuple) : Record where
  count := T.toTrie.countOf tpl
  depths := if T.toTrie.countOf tpl = 0 then 0
    else DepthCounter.derivations (T.depths (T.toTrie.leafNode nodeId tpl))

theorem valid_record (T : TupleTrie) (tpl : Tuple) : (T.record nodeId tpl).Valid := fun h => if_pos h

theorem Counted.count_record (h : Counted nodeId fields T M) (tpl : Tuple) :
    (T.record nodeId tpl).count = M.count tpl := h.loose.countOf_eq tpl

/-- The depths of a record are those of the depth counter. -/
theorem Counted.count_depths_record (h : Counted nodeId fields T M) (tpl : Tuple) (d : ℕ) :
    (T.record nodeId tpl).depths.count d = depthCount nodeId T tpl d := by
  rw [record, depthCount]
  split
  next => exact Multiset.count_zero d
  next => exact DepthCounter.count_derivations (h.ordered _) d

theorem Counted.depths_record_of_mem (h : Counted nodeId fields T M) (hmem : tpl ∈ M) :
    (T.record nodeId tpl).depths =
      DepthCounter.derivations (T.depths (Trie.word tpl).reverse) := by
  have hne : T.toTrie.countOf tpl ≠ 0 := by
    rw [h.loose.countOf_eq]
    exact Nat.ne_of_gt (Multiset.count_pos.2 hmem)
  rw [record, if_neg hne, h.loose.leafNode_eq hmem]

/-- Records of the same count and depth counter are the same. -/
theorem Counted.record_congr {M' : Multiset Tuple} (h : Counted nodeId fields T M)
    (h' : Counted nodeId fields T' M') {t : Tuple} (hcount : M'.count t = M.count t)
    (hdepths : ∀ d, depthCount nodeId T' t d = depthCount nodeId T t d) :
    T'.record nodeId t = T.record nodeId t := by
  ext1
  · rw [h'.count_record, h.count_record, hcount]
  · ext d
    rw [h'.count_depths_record, h.count_depths_record, hdepths]

/-- An insertion derives its tuple. -/
theorem Counted.record_insertTuple (h : Counted nodeId fields T M) (ht : TupleHasType tpl fields)
    (depth : ℕ) (t : Tuple) :
    (T.insertTuple nodeId true tpl depth).1.record nodeId t =
      if t = tpl then (T.record nodeId tpl).derive depth else T.record nodeId t := by
  obtain ⟨h', hdepths⟩ := h.insertTuple ht depth
  by_cases heq : t = tpl
  · subst heq
    rw [if_pos rfl]
    ext1
    · rw [h'.count_record, Record.count_derive, h.count_record, Multiset.count_cons_self]
    · ext d
      rw [h'.count_depths_record, hdepths, Record.depths_derive, Multiset.count_cons,
        h.count_depths_record]
      simp only [true_and]
  · rw [if_neg heq]
    refine h.record_congr h' (Multiset.count_cons_of_ne heq M) fun d => ?_
    rw [hdepths, if_neg fun hb => heq hb.1, Nat.add_zero]

/-- The count that a retraction leaves, told by the record. -/
theorem Counted.retractedCount_eq (h : Counted nodeId fields T M) (tpl : Tuple) (depth : ℕ) :
    retractedCount T tpl depth (M.count tpl) = (T.record nodeId tpl).retractCount depth := by
  rw [retractedCount, Record.retractCount, h.count_record]
  split
  next => rfl
  next hmany =>
    have hmem : tpl ∈ M := Multiset.count_pos.1 (by omega)
    have hordered := h.ordered (Trie.word tpl).reverse
    have hleft : depth ∈ (T.record nodeId tpl).depths.erase depth ↔
        DepthCounter.getCount (DepthCounter.sub depth 1 (T.depths (Trie.word tpl).reverse)) depth
          ≠ 0 := by
      rw [h.depths_record_of_mem hmem, ← DepthCounter.derivations_sub hordered,
        ← Multiset.count_pos, DepthCounter.count_derivations (hordered.sub depth 1),
        Nat.pos_iff_ne_zero]
    by_cases hzero : DepthCounter.getCount
        (DepthCounter.sub depth 1 (T.depths (Trie.word tpl).reverse)) depth = 0
    · rw [if_pos hzero, if_neg fun hin => hleft.1 hin hzero, DepthCounter.deleteDepthsAbove_snd,
        DepthCounter.derivations_sub hordered, h.depths_record_of_mem hmem]
    · rw [if_neg hzero, if_pos (hleft.2 hzero)]

/-- A retraction retracts its tuple. -/
theorem Counted.record_remove (h : Counted nodeId fields T M) (ht : TupleHasType tpl fields)
    {b : Bool × Bool} (hr : T.remove nodeId true tpl depth = some (T', b)) (t : Tuple) :
    T'.record nodeId t =
      if t = tpl then (T.record nodeId tpl).retract depth else T.record nodeId t := by
  obtain ⟨M', h', hother, -, hcount, -⟩ := h.remove_spec ht hr
  have hdepths := (h.remove ht hr).2
  by_cases heq : t = tpl
  · subst heq
    rw [if_pos rfl]
    have hleft : (T'.record nodeId t).count = (T.record nodeId t).retractCount depth := by
      rw [h'.count_record, hcount, h.retractedCount_eq]
    ext1
    · exact hleft
    · ext d
      rw [h'.count_depths_record, hdepths, if_pos rfl, Record.count_depths_retract]
      have hbefore : depthCount nodeId T t = fun e => (T.record nodeId t).depths.count e :=
        funext fun e => (h.count_depths_record t e).symm
      rw [hbefore, ← hleft]
      rfl
  · rw [if_neg heq]
    refine h.record_congr h' (hother t heq) fun d => ?_
    rw [hdepths, if_neg heq]

/-- A retraction finds a leaf to read, or the tuple has fields. -/
theorem Counted.remove_isSome (h : Counted nodeId fields T M) (ht : TupleHasType tpl fields)
    (depth : Nat) :
    (T.remove nodeId true tpl depth).isSome ↔ tpl ≠ [] ∨ (T.record nodeId tpl).count ≠ 0 := by
  have hany : (T.remove nodeId true tpl depth).isSome ↔
      (T.toTrie.deleteAny nodeId tpl).isSome := by
    rw [TupleTrie.remove, TupleTrie.deleteTuple]
    rcases T.toTrie.deleteAny nodeId tpl with _ | ⟨T₁, _ | ⟨p, toDel⟩⟩
    · exact Iff.rfl
    · simp
    · refine iff_of_true ?_ rfl
      simp only
      repeat' split
      all_goals rfl
  rw [hany, h.count_record]
  by_cases hmem : tpl ∈ M
  · obtain ⟨T₁, hdel, -⟩ := h.loose.deleteTuple hmem
    rw [hdel]
    exact iff_of_true rfl (Or.inr (Nat.ne_of_gt (Multiset.count_pos.2 hmem)))
  · rw [h.loose.shape.deleteAny_eq ht fun l hl htpl =>
      hmem ((h.loose.represents.mem_iff _).2 ⟨l, hl, htpl⟩)]
    have hzero := Multiset.count_eq_zero_of_notMem hmem
    by_cases hnil : tpl = []
    · simp [hnil] at hzero ⊢
      exact hzero
    · simp [hnil]

end TupleTrie

/-! ## The queue with and without cancellation -/

namespace Cancellation

open NodeState DerivationDepth

variable (P : Program) (preds : PredicateId → Predicate) (nodeId : BitVec 64 → ℕ)

/-- `process_persistent_tuple` with the interpreter at the depth of the tuple. -/
def processOwn (s : NodeState) (x : FullTuple) : Option NodeState :=
  processPersistentTuple P preds nodeId { s with depth := x.depth } x

/-- One round of the loop of `do_persistent_tuples`, with the interpreter at the depth of the tuple
taken from the front. -/
def stepOwn (s : NodeState) (x : FullTuple) (ls : List FullTuple) :
    Option (NodeState × List FullTuple) :=
  NodeState.step P preds nodeId { s with depth := x.depth } x ls

/-- The loop of `do_persistent_tuples`, every derivation being recorded at its own depth. -/
def drainOwn : ℕ → NodeState → List FullTuple → Option NodeState
  | _, s, [] => some s
  | 0, _, _ :: _ => none
  | fuel + 1, s, x :: ls =>
    match stepOwn P preds nodeId s x ls with
    | none => none
    | some (s', ls') => drainOwn fuel s' ls'

/-- `do_persistent_tuples`, every derivation being recorded at its own depth. -/
def doOwn (s : NodeState) (q : List FullTuple) : Option NodeState :=
  drainOwn P preds nodeId (3 * q.length) s q

/-- The queue processed strictly in order. -/
def inOrder : NodeState → List FullTuple → Option NodeState
  | s, [] => some s
  | s, x :: q => (processOwn P preds nodeId s x).bind fun s' => inOrder s' q

/-- A tuple of a cycle predicate that is no aggregate. -/
structure Plain (x : FullTuple) : Prop where
  cycle : (preds x.pred).isCycle = true
  noAggregate : (preds x.pred).aggregate = none
  untagged : x.isAggregate = false
  typed : TupleHasType x.data (preds x.pred).fields

/-- The part of a queue that is about one tuple. -/
def entries (p : PredicateId) (t : Tuple) (q : List FullTuple) : List FullTuple :=
  q.filter fun x => decide (x.pred = p ∧ x.data = t)

/-- The record of a tuple of a predicate. -/
def look (s : NodeState) (p : PredicateId) (t : Tuple) : Record := (s.tries p).record nodeId t

variable {P preds nodeId} {s s' : NodeState} {O : Ledger} {x : FullTuple} {q : List FullTuple}
  {p : PredicateId} {t : Tuple}

theorem entries_cons_of_pos (h : x.pred = p ∧ x.data = t) (q : List FullTuple) :
    entries p t (x :: q) = x :: entries p t q := List.filter_cons_of_pos (decide_eq_true h)

theorem entries_cons_of_neg (h : ¬ (x.pred = p ∧ x.data = t)) (q : List FullTuple) :
    entries p t (x :: q) = entries p t q :=
  List.filter_cons_of_neg (by simpa using h)

theorem entries_append (p : PredicateId) (t : Tuple) (q r : List FullTuple) :
    entries p t (q ++ r) = entries p t q ++ entries p t r := List.filter_append ..

/-- A tuple that is processed changes its own record, and no other. -/
theorem processOwn_spec (h : Counted preds nodeId s) (hx : Plain preds x)
    (hs' : processOwn P preds nodeId s x = some s') :
    Counted preds nodeId s' ∧ ∀ p, (preds p).isCycle = true → ∀ t,
      look nodeId s' p t = if x.pred = p ∧ x.data = t then (look nodeId s p t).apply x
        else look nodeId s p t := by
  have hrecord : ∀ T, s'.tries = Function.update s.tries x.pred T →
      (∀ t, T.record nodeId t = if t = x.data then ((s.tries x.pred).record nodeId x.data).apply x
        else (s.tries x.pred).record nodeId t) → ∀ p t,
      look nodeId s' p t = if x.pred = p ∧ x.data = t then (look nodeId s p t).apply x
        else look nodeId s p t := by
    intro T htries hT p t
    by_cases hp : x.pred = p
    · subst hp
      rw [look, look, htries, Function.update_self, hT]
      by_cases ht : t = x.data
      · rw [if_pos ht, if_pos ⟨rfl, ht.symm⟩, ht]
      · rw [if_neg ht, if_neg fun hb => ht hb.2.symm]
    · rw [look, look, htries, Function.update_of_ne (Ne.symm hp), if_neg fun hb => hp hb.1]
  obtain ⟨M, hM⟩ := h x.pred hx.cycle
  rw [processOwn, processPersistentTuple] at hs'
  cases hdir : x.dir with
  | positive =>
    rw [hdir] at hs'
    obtain rfl := Option.some.inj hs'
    have htries := @tries_processPositive P preds nodeId { s with depth := x.depth } x
    refine ⟨(Counted.insert (s := { s with depth := x.depth }) (O := fun _ _ _ => 0) h hx.typed
      htries).1, fun p _ t => hrecord _ htries (fun t => ?_) p t⟩
    rw [hx.cycle, hM.record_insertTuple hx.typed, Record.apply_positive hdir]
  | negative =>
    rw [hdir] at hs'
    obtain ⟨T, b, hr, htries⟩ := tries_processNegative hs'
    refine ⟨(Counted.retract (s := { s with depth := x.depth }) (O := fun _ _ _ => 0) h hx.typed
      hs').1, fun p _ t => hrecord T htries (fun t => ?_) p t⟩
    rw [hx.cycle] at hr
    rw [hM.record_remove hx.typed hr, Record.apply_negative hdir]

/-- Only a retraction of a tuple without fields that is not there fails. -/
theorem processOwn_isSome (h : Counted preds nodeId s) (hx : Plain preds x) :
    (processOwn P preds nodeId s x).isSome ↔
      (x.dir = .negative → x.data = [] → (look nodeId s x.pred x.data).count ≠ 0) := by
  obtain ⟨M, hM⟩ := h x.pred hx.cycle
  rw [processOwn, processPersistentTuple]
  cases hdir : x.dir with
  | positive => simp
  | negative =>
    have hremove := hM.remove_isSome hx.typed x.depth
    simp only [processNegative, Option.isSome_map, hx.cycle, hremove, look]
    tauto

/-- Processing in order applies the entries of every tuple to its record. -/
theorem inOrder_spec (h : Counted preds nodeId s) (hq : ∀ x ∈ q, Plain preds x)
    (hs' : inOrder P preds nodeId s q = some s') :
    Counted preds nodeId s' ∧ ∀ p, (preds p).isCycle = true → ∀ t,
      look nodeId s' p t = (look nodeId s p t).applyAll (entries p t q) := by
  induction q generalizing s with
  | nil =>
    obtain rfl := Option.some.inj hs'
    exact ⟨h, fun p _ t => rfl⟩
  | cons x q ih =>
    obtain ⟨s₁, hs₁, hrest⟩ := Option.bind_eq_some_iff.1 hs'
    obtain ⟨h₁, hlook⟩ := processOwn_spec h (hq x List.mem_cons_self) hs₁
    obtain ⟨h', hlook'⟩ := ih h₁ (fun y hy => hq y (List.mem_cons_of_mem _ hy)) hrest
    refine ⟨h', fun p hp t => ?_⟩
    rw [hlook' p hp t, hlook p hp t]
    by_cases hxt : x.pred = p ∧ x.data = t
    · rw [if_pos hxt, entries_cons_of_pos hxt, Record.applyAll_cons]
    · rw [if_neg hxt, entries_cons_of_neg hxt]

/-- Processing in order gets through a queue by getting through its beginnings. -/
theorem inOrder_append (s : NodeState) (q r : List FullTuple) :
    inOrder P preds nodeId s (q ++ r) =
      (inOrder P preds nodeId s q).bind fun s' => inOrder P preds nodeId s' r := by
  induction q generalizing s with
  | nil => rfl
  | cons x q ih =>
    rw [List.cons_append, inOrder, inOrder, Option.bind_assoc]
    exact congrArg _ (funext ih)

theorem inOrder_of_isPrefix {r : List FullTuple} (hr : r <+: q)
    (hs' : inOrder P preds nodeId s q = some s') :
    ∃ s₁, inOrder P preds nodeId s r = some s₁ := by
  obtain ⟨r', rfl⟩ := hr
  rw [inOrder_append] at hs'
  obtain ⟨s₁, hs₁, -⟩ := Option.bind_eq_some_iff.1 hs'
  exact ⟨s₁, hs₁⟩

/-- Of the entries before its first retraction, a tuple is only derived. -/
theorem positive_of_search {rest : List FullTuple} (hq : ∀ y ∈ q, Plain preds y)
    (hx : Plain preds x) (h : searchForNegativeTuple x q = some rest) :
    ∃ l y m, q = l ++ y :: m ∧ rest = l ++ m ∧ y.dir = .negative ∧ y.pred = x.pred ∧
      y.data = x.data ∧ ∀ z ∈ entries x.pred x.data l, z.dir = .positive := by
  obtain ⟨l, y, m, rfl, rfl, hpred, htag, hchange, hfirst⟩ := searchForNegativeTuple_spec h
  have hy : y.dir = .negative ∧ y.data = x.data := by
    rw [FullTuple.change] at hchange
    cases hdir : y.dir with
    | positive =>
      rw [hdir] at hchange
      cases hchange
    | negative =>
      rw [hdir] at hchange
      exact ⟨rfl, Change.remove.inj hchange⟩
  refine ⟨l, y, m, rfl, rfl, hy.1, hpred, hy.2, fun z hz => ?_⟩
  obtain ⟨hzl, hzx⟩ := List.mem_filter.1 hz
  obtain ⟨hzp, hzd⟩ := of_decide_eq_true hzx
  cases hdir : z.dir with
  | positive => rfl
  | negative =>
    refine absurd ?_ hfirst
    have huntagged : z.isAggregate = x.isAggregate := by
      rw [(hq z (List.mem_append_left _ hzl)).untagged, hx.untagged]
    refine List.mem_map.2 ⟨z, List.mem_filter.2 ⟨hzl, decide_eq_true ⟨hzp, huntagged⟩⟩, ?_⟩
    rw [FullTuple.change, hdir, hzd]

/-- A tuple without a retraction in the queue is only derived there. -/
theorem positive_of_search_none (hq : ∀ y ∈ q, Plain preds y) (hx : Plain preds x)
    (h : searchForNegativeTuple x q = none) :
    ∀ z ∈ entries x.pred x.data q, z.dir = .positive := by
  induction q with
  | nil => exact fun z hz => absurd hz List.not_mem_nil
  | cons y q ih =>
    rw [searchForNegativeTuple] at h
    split at h
    next => cases h
    next hy =>
      have hrest := ih (fun z hz => hq z (List.mem_cons_of_mem _ hz)) (Option.map_eq_none_iff.1 h)
      by_cases hyx : y.pred = x.pred ∧ y.data = x.data
      · rw [entries_cons_of_pos hyx]
        intro z hz
        rcases List.mem_cons.1 hz with rfl | hz
        · cases hdir : z.dir with
          | positive => rfl
          | negative =>
            refine absurd ⟨hyx.1.symm, ?_, hdir, hyx.2⟩ hy
            rw [(hq z List.mem_cons_self).untagged, hx.untagged]
        · exact hrest z hz
      · rw [entries_cons_of_neg hyx]
        exact hrest

/-- One round: the tuple is dropped with its first retraction, or processed. -/
theorem stepOwn_cases (hx : Plain preds x) :
    (x.dir = .positive ∧ ∃ rest, searchForNegativeTuple x q = some rest ∧
      stepOwn P preds nodeId s x q = some ({ s with depth := x.depth }, rest)) ∨
    ((x.dir = .positive → searchForNegativeTuple x q = none) ∧
      stepOwn P preds nodeId s x q = (processOwn P preds nodeId s x).map fun s' => (s', q)) := by
  by_cases hdir : x.dir = .positive
  · cases hsearch : searchForNegativeTuple x q with
    | some rest =>
      refine Or.inl ⟨hdir, rest, rfl, ?_⟩
      rw [stepOwn, NodeState.step, if_pos hdir, hsearch]
    | none =>
      refine Or.inr ⟨fun _ => rfl, ?_⟩
      rw [stepOwn, NodeState.step, if_pos hdir, hsearch]
      simp only [hx.noAggregate]
      rfl
  · refine Or.inr ⟨fun h => absurd h hdir, ?_⟩
    rw [stepOwn, NodeState.step, if_neg hdir]
    simp only [hx.noAggregate]
    rfl

/-- Dropping a tuple with its first retraction is what holding it back comes to. -/
theorem cancelAll_search {rest : List FullTuple} (hq : ∀ y ∈ q, Plain preds y)
    (hx : Plain preds x) (hdir : x.dir = .positive) (h : searchForNegativeTuple x q = some rest)
    (R : Record) (p : PredicateId) (t : Tuple) :
    R.cancelAll [] (entries p t (x :: q)) = R.cancelAll [] (entries p t rest) ∧
      (R.FindsAlong [] (entries p t (x :: q)) ↔ R.FindsAlong [] (entries p t rest)) := by
  obtain ⟨l, y, m, rfl, rfl, hy, hpred, hdata, hfirst⟩ := positive_of_search hq hx h
  by_cases hxt : x.pred = p ∧ x.data = t
  · obtain ⟨rfl, rfl⟩ := hxt
    rw [entries_cons_of_pos ⟨rfl, rfl⟩, entries_append, entries_cons_of_pos ⟨hpred, hdata⟩,
      entries_append, Record.cancelAll_positive hdir, Record.findsAlong_positive hdir]
    exact Record.cancelAll_pair hy hfirst R _ _
  · have hyt : ¬ (y.pred = p ∧ y.data = t) := by
      rw [hpred, hdata]
      exact hxt
    rw [entries_cons_of_neg hxt, entries_append, entries_cons_of_neg hyt, ← entries_append]
    exact ⟨rfl, Iff.rfl⟩

/-- Processing a tuple that is not retracted further back. -/
theorem cancelAll_process (h : Counted preds nodeId s) (hq : ∀ y ∈ q, Plain preds y)
    (hx : Plain preds x) (hsearch : x.dir = .positive → searchForNegativeTuple x q = none)
    (hs' : processOwn P preds nodeId s x = some s') (hp : (preds p).isCycle = true) (t : Tuple) :
    (look nodeId s p t).cancelAll [] (entries p t (x :: q)) =
        (look nodeId s' p t).cancelAll [] (entries p t q) ∧
      ((look nodeId s p t).FindsAlong [] (entries p t (x :: q)) →
        (look nodeId s' p t).FindsAlong [] (entries p t q)) := by
  rw [(processOwn_spec h hx hs').2 p hp t]
  by_cases hxt : x.pred = p ∧ x.data = t
  · rw [if_pos hxt, entries_cons_of_pos hxt]
    obtain ⟨rfl, rfl⟩ := hxt
    cases hdir : x.dir with
    | positive =>
      have hall := positive_of_search_none hq hx (hsearch hdir)
      obtain ⟨hcancel, -⟩ := Record.cancelAll_of_positive (List.forall_mem_cons.2 ⟨hdir, hall⟩)
        (look nodeId s x.pred x.data) []
      obtain ⟨hcancel', hfinds'⟩ := Record.cancelAll_of_positive hall
        ((look nodeId s x.pred x.data).apply x) []
      rw [hcancel, hcancel']
      exact ⟨rfl, fun _ => hfinds'⟩
    | negative =>
      rw [Record.cancelAll_negative hdir, Record.findsAlong_negative hdir,
        Record.apply_negative hdir]
      exact ⟨rfl, fun hfinds => hfinds.2⟩
  · rw [if_neg hxt, entries_cons_of_neg hxt]
    exact ⟨rfl, id⟩

/-- Every retraction of a tuple without fields finds the tuple. -/
def Finds (preds : PredicateId → Predicate) (nodeId : BitVec 64 → ℕ) (s : NodeState)
    (q : List FullTuple) : Prop :=
  ∀ p, (preds p).isCycle = true → (look nodeId s p []).FindsAlong [] (entries p [] q)

/-- What the loop does to the records. -/
def Drains (preds : PredicateId → Predicate) (nodeId : BitVec 64 → ℕ) (s : NodeState)
    (q : List FullTuple) (o : Option NodeState) : Prop :=
  (Finds preds nodeId s q → o.isSome) ∧
    ∀ s', o = some s' → Counted preds nodeId s' ∧ ∀ p, (preds p).isCycle = true → ∀ t,
      look nodeId s' p t = (look nodeId s p t).cancelAll [] (entries p t q)

theorem drains_nil (h : Counted preds nodeId s) : Drains preds nodeId s [] (some s) := by
  refine ⟨fun _ => rfl, fun s' hs' => ?_⟩
  obtain rfl := Option.some.inj hs'
  exact ⟨h, fun p _ t => rfl⟩

/-- The loop holds the derivations of every tuple back. -/
theorem drainOwn_spec (h : Counted preds nodeId s) (hq : ∀ x ∈ q, Plain preds x) {fuel : ℕ}
    (hfuel : q.length ≤ fuel) : Drains preds nodeId s q (drainOwn P preds nodeId fuel s q) := by
  induction fuel generalizing s q with
  | zero =>
    obtain rfl := List.length_eq_zero_iff.1 (Nat.le_zero.1 hfuel)
    exact drains_nil h
  | succ fuel ih =>
    cases q with
    | nil => exact drains_nil h
    | cons x q =>
      have hx := hq x List.mem_cons_self
      have hqs : ∀ y ∈ q, Plain preds y := fun y hy => hq y (List.mem_cons_of_mem _ hy)
      rw [List.length_cons, Nat.add_le_add_iff_right] at hfuel
      rcases stepOwn_cases (P := P) (s := s) (q := q) hx with
        ⟨hdir, rest, hsearch, hstep⟩ | ⟨hsearch, hstep⟩
      · -- dropped with its first retraction
        have hsub := sublist_of_searchForNegativeTuple hsearch
        have hpair := cancelAll_search hqs hx hdir hsearch
        obtain ⟨hsome, hlook⟩ := ih (s := { s with depth := x.depth }) h
          (fun z hz => hqs z (hsub.subset hz)) (hsub.length_le.trans hfuel)
        rw [drainOwn, hstep]
        refine ⟨fun hfinds => hsome fun p hp => (hpair _ p []).2.1 (hfinds p hp), fun s' hs' => ?_⟩
        obtain ⟨h', hlook'⟩ := hlook s' hs'
        refine ⟨h', fun p hp t => ?_⟩
        rw [hlook' p hp t, (hpair _ p t).1]
        rfl
      · rw [drainOwn, hstep]
        cases hs₁ : processOwn P preds nodeId s x with
        | none =>
          refine ⟨fun hfinds => ?_, fun s' hs' => nomatch hs'⟩
          have hnone : ¬ (processOwn P preds nodeId s x).isSome := by
            rw [hs₁]
            exact Bool.false_ne_true
          rw [processOwn_isSome h hx] at hnone
          refine absurd (fun hdir hnil => ?_) hnone
          have hfirst := hfinds x.pred hx.cycle
          rw [entries_cons_of_pos ⟨rfl, hnil⟩, Record.findsAlong_negative hdir] at hfirst
          rw [hnil]
          exact hfirst.1
        | some s₁ =>
          obtain ⟨hsome, hlook⟩ := ih (processOwn_spec h hx hs₁).1 hqs hfuel
          refine ⟨fun hfinds => hsome fun p hp => ?_, fun s' hs' => ?_⟩
          · exact (cancelAll_process h hqs hx hsearch hs₁ hp []).2 (hfinds p hp)
          · obtain ⟨h', hlook'⟩ := hlook s' hs'
            refine ⟨h', fun p hp t => ?_⟩
            rw [hlook' p hp t, (cancelAll_process h hqs hx hsearch hs₁ hp t).1]

/-! ## When cancellation does no harm -/

/-- Both runs come to an end, with the same record of every tuple. -/
def SameRecords (preds : PredicateId → Predicate) (nodeId : BitVec 64 → ℕ)
    (o₁ o₂ : Option NodeState) : Prop :=
  ∃ s₁ s₂, o₁ = some s₁ ∧ o₂ = some s₂ ∧ ∀ p, (preds p).isCycle = true → ∀ t,
    (s₁.tries p).record nodeId t = (s₂.tries p).record nodeId t

/-- Both runs come to an end, with the same tuples and the same counts at every depth. -/
def SameDepths (preds : PredicateId → Predicate) (nodeId : BitVec 64 → ℕ)
    (o₁ o₂ : Option NodeState) : Prop :=
  ∃ s₁ s₂, o₁ = some s₁ ∧ o₂ = some s₂ ∧ ∀ p, (preds p).isCycle = true → ∀ t,
    ((s₁.tries p).toTrie.countOf t = 0 ↔ (s₂.tries p).toTrie.countOf t = 0) ∧
    ∀ d, (s₁.tries p).depthCount nodeId t d = (s₂.tries p).depthCount nodeId t d

/-- Processed in order, every retraction finds a derivation of its depth. -/
def Backed (P : Program) (preds : PredicateId → Predicate) (nodeId : BitVec 64 → ℕ)
    (s : NodeState) (q : List FullTuple) : Prop :=
  ∀ r x, r ++ [x] <+: q → x.dir = .negative → ∀ s', inOrder P preds nodeId s r = some s' →
    0 < (s'.tries x.pred).depthCount nodeId x.data x.depth

/-- Of every tuple, the derivations that are dropped are dropped without harm. -/
def HarmlessQueue (nodeId : BitVec 64 → ℕ) (s : NodeState) (q : List FullTuple) : Prop :=
  ∀ p t, (look nodeId s p t).HarmlessAlong [] (entries p t q)

/-- In order, a retraction of a tuple without fields finds the tuple. -/
theorem meets_of_inOrder (h : Counted preds nodeId s) (hq : ∀ x ∈ q, Plain preds x)
    (hs' : inOrder P preds nodeId s q = some s') (hp : (preds p).isCycle = true) :
    Record.Meets (fun R _ => R.count ≠ 0) (look nodeId s p []) (entries p [] q) := by
  induction q generalizing s with
  | nil => trivial
  | cons x q ih =>
    have hx := hq x List.mem_cons_self
    obtain ⟨s₁, hs₁, hrest⟩ := Option.bind_eq_some_iff.1 hs'
    obtain ⟨h₁, hlook⟩ := processOwn_spec h hx hs₁
    have hmeets := ih h₁ (fun y hy => hq y (List.mem_cons_of_mem _ hy)) hrest
    rw [hlook p hp []] at hmeets
    by_cases hxt : x.pred = p ∧ x.data = []
    · rw [entries_cons_of_pos hxt]
      rw [if_pos hxt] at hmeets
      refine ⟨fun hdir => ?_, hmeets⟩
      have hsome := (processOwn_isSome h hx).1 (Option.isSome_of_eq_some hs₁) hdir hxt.2
      rwa [hxt.1, hxt.2] at hsome
    · rw [entries_cons_of_neg hxt]
      rw [if_neg hxt] at hmeets
      exact hmeets

theorem Backed.tail {s₁ : NodeState} (h : Backed P preds nodeId s (x :: q))
    (hs₁ : processOwn P preds nodeId s x = some s₁) : Backed P preds nodeId s₁ q := by
  intro r y hr hdir s' hs'
  refine h (x :: r) y (List.cons_prefix_cons.2 ⟨rfl, hr⟩) hdir s' ?_
  rw [inOrder, hs₁]
  exact hs'

theorem Backed.head (h : Backed P preds nodeId s (x :: q)) (hcounted : Counted preds nodeId s)
    (hx : Plain preds x) (hdir : x.dir = .negative) :
    x.depth ∈ (look nodeId s x.pred x.data).depths := by
  obtain ⟨M, hM⟩ := hcounted x.pred hx.cycle
  rw [← Multiset.count_pos, look, hM.count_depths_record]
  exact h [] x (List.cons_prefix_cons.2 ⟨rfl, List.nil_prefix⟩) hdir s rfl

/-- A backed queue is processed to its end, every retraction meeting a derivation of its depth. -/
theorem Backed.spec (h : Backed P preds nodeId s q) (hcounted : Counted preds nodeId s)
    (hq : ∀ x ∈ q, Plain preds x) :
    (∃ s', inOrder P preds nodeId s q = some s') ∧ ∀ p, (preds p).isCycle = true → ∀ t,
      Record.Meets (fun R x => x.depth ∈ R.depths) (look nodeId s p t) (entries p t q) := by
  induction q generalizing s with
  | nil => exact ⟨⟨s, rfl⟩, fun _ _ _ => trivial⟩
  | cons x q ih =>
    have hx := hq x List.mem_cons_self
    have hsome : (processOwn P preds nodeId s x).isSome := by
      rw [processOwn_isSome hcounted hx]
      intro hdir _ hzero
      have hmem := h.head hcounted hx hdir
      rw [look, TupleTrie.valid_record (s.tries x.pred) x.data hzero] at hmem
      exact Multiset.notMem_zero _ hmem
    obtain ⟨s₁, hs₁⟩ := Option.isSome_iff_exists.1 hsome
    obtain ⟨h₁, hlook⟩ := processOwn_spec hcounted hx hs₁
    obtain ⟨⟨s', hs'⟩, hmeets⟩ := ih (h.tail hs₁) h₁ fun y hy => hq y (List.mem_cons_of_mem _ hy)
    refine ⟨⟨s', ?_⟩, fun p hp t => ?_⟩
    · rw [inOrder, hs₁]
      exact hs'
    · have hrest := hmeets p hp t
      rw [hlook p hp t] at hrest
      by_cases hxt : x.pred = p ∧ x.data = t
      · rw [entries_cons_of_pos hxt]
        rw [if_pos hxt] at hrest
        refine ⟨fun hdir => ?_, hrest⟩
        have hhead := h.head hcounted hx hdir
        rwa [hxt.1, hxt.2] at hhead
      · rw [entries_cons_of_neg hxt]
        rw [if_neg hxt] at hrest
        exact hrest

theorem HarmlessQueue.of_isPrefix {r : List FullTuple} (h : HarmlessQueue nodeId s q)
    (hr : r <+: q) : HarmlessQueue nodeId s r := fun p t => (h p t).of_isPrefix (hr.filter _)

/-- Without harm, cancellation leaves every record as processing in order does. -/
theorem sameRecords_of_harmless (h : Counted preds nodeId s) (hq : ∀ x ∈ q, Plain preds x)
    (hs' : inOrder P preds nodeId s q = some s') (hharmless : HarmlessQueue nodeId s q) :
    SameRecords preds nodeId (doOwn P preds nodeId s q) (inOrder P preds nodeId s q) := by
  have hfinds : Finds preds nodeId s q := fun p hp =>
    (hharmless p []).findsAlong (TupleTrie.valid_record _ _) (meets_of_inOrder h hq hs' hp)
  obtain ⟨hsome, hlook⟩ := drainOwn_spec (P := P) h hq (Nat.le_mul_of_pos_left q.length (by decide : 0 < 3))
  obtain ⟨s₁, hs₁⟩ := Option.isSome_iff_exists.1 (hsome hfinds)
  refine ⟨s₁, s', hs₁, hs', fun p hp t => ?_⟩
  have hcancel := (hlook s₁ hs₁).2 p hp t
  rw [(hharmless p t).cancelAll_eq (TupleTrie.valid_record _ _)] at hcancel
  exact hcancel.trans ((inOrder_spec h hq hs').2 p hp t).symm

/-- Cancellation does no harm when it agrees with processing in order on every beginning of the
queue, in a way that tells a harmless drop. -/
theorem harmless_of_agree {E : Record → Record → Prop} {B : Record → FullTuple → Prop}
    (hE : ∀ (R : Record) d x, R.Valid → B (R.derive d) x → E R ((R.derive d).retract x.depth) →
      R.Harmless d x.depth) (h : Counted preds nodeId s) (hq : ∀ x ∈ q, Plain preds x)
    (hB : ∀ p, (preds p).isCycle = true → ∀ t,
      Record.Meets B (look nodeId s p t) (entries p t q))
    (hagree : ∀ r, r <+: q → ∃ s₁ s₂, doOwn P preds nodeId s r = some s₁ ∧
      inOrder P preds nodeId s r = some s₂ ∧ ∀ p, (preds p).isCycle = true → ∀ t,
        E (look nodeId s₁ p t) (look nodeId s₂ p t)) : HarmlessQueue nodeId s q := by
  intro p t
  by_cases hp : (preds p).isCycle = true
  · refine Record.harmlessAlong_of_agree hE (TupleTrie.valid_record _ _) (hB p hp t)
      fun o ho => ?_
    obtain ⟨r, hr, rfl⟩ := List.prefix_filter_iff.1 ho
    obtain ⟨s₁, s₂, hs₁, hs₂, heq⟩ := hagree r hr
    have hplain : ∀ x ∈ r, Plain preds x := fun x hx => hq x (hr.subset hx)
    have hcancel := ((drainOwn_spec (P := P) h hplain
      (Nat.le_mul_of_pos_left r.length (by decide : 0 < 3))).2 s₁ hs₁).2 p hp t
    have happly := (inOrder_spec h hplain hs₂).2 p hp t
    have hE' := heq p hp t
    rw [hcancel, happly] at hE'
    exact hE'
  · have hnil : entries p t q = [] := by
      refine List.filter_eq_nil_iff.2 fun x hx hxt => hp ?_
      rw [← (of_decide_eq_true hxt).1]
      exact (hq x hx).cycle
    rw [hnil]
    trivial

/-- The same counts at every depth are the same depths. -/
theorem depths_look_eq {s₁ s₂ : NodeState} (h₁ : Counted preds nodeId s₁)
    (h₂ : Counted preds nodeId s₂) (hp : (preds p).isCycle = true)
    (h : ∀ d, (s₁.tries p).depthCount nodeId t d = (s₂.tries p).depthCount nodeId t d) :
    (look nodeId s₁ p t).depths = (look nodeId s₂ p t).depths := by
  obtain ⟨M₁, hM₁⟩ := h₁ p hp
  obtain ⟨M₂, hM₂⟩ := h₂ p hp
  ext d
  rw [look, look, hM₁.count_depths_record, hM₂.count_depths_record, h d]

/-- A derivation or retraction of one tuple. -/
def seven (dir : Direction) (depth : ℕ) : FullTuple := ⟨[.int 7], 0, dir, depth, false⟩

theorem plain_seven (dir : Direction) (depth : ℕ) :
    Plain (fun _ => cyclePredicate) (seven dir depth) :=
  ⟨rfl, rfl, rfl, .cons (.int 7) .nil⟩

/-- A backed queue, told by the places of its retractions. -/
theorem backed_of_getElem (h : ∀ i x s', q[i]? = some x → x.dir = .negative →
    inOrder P preds nodeId s (q.take i) = some s' →
      0 < (s'.tries x.pred).depthCount nodeId x.data x.depth) : Backed P preds nodeId s q := by
  rintro r x ⟨rest, rfl⟩ hdir s' hs'
  refine h r.length x s' (by simp) hdir ?_
  simpa using hs'

end Cancellation

end Meld
