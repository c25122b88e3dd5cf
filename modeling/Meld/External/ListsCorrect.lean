import Meld.External.Lists
import Mathlib.Data.List.Sort
import Mathlib.Algebra.Order.Group.Int
import Mathlib.Data.List.Nodup

/-!
# What the list externals return

A stack that was pushed to in the order of a list is its reverse, and `fromStackToList` reverses it
again.  So do a vector sorted in descending order and `fromVectorToReverseList`.  The two functions
that miss their specification do so for nodes: `lsort` does not return the vector it has sorted, and
`lexistss` reads the node it looks for as a floating point number, whose integral part is zero.

* `map_fromStackToList` and the others: the lists that the conversions make.
* `shares`, `LeAt`: what the functions are specified with.
* `lexistss_iff`, `lsort_iff`: when the two functions meet their specifications.
* `list_externals_iff`: all functions.
-/

namespace Meld
namespace External

variable {L : Library} {ls ls1 ls2 : List Field} {ty : FieldType}

/-! ## Conversions -/

section Conversions

variable {α β : Type} {conv : ℕ → α → Field} {read : Field → β} {g : α → β}

theorem map_fromStackToList (hread : ∀ i v, read (conv i v) = g v) (stk : List α)
    (ptr : List Field) :
    (fromStackToList conv stk ptr).map read = (stk.map g).reverse ++ ptr.map read := by
  induction stk generalizing ptr with
  | nil => rfl
  | cons top stk ih =>
    rw [fromStackToList, ih, List.map_cons, hread, List.map_cons, List.reverse_cons,
      List.append_assoc]
    rfl

theorem moveStack_eq (stk stk2 : List α) : moveStack stk stk2 = stk.reverse ++ stk2 := by
  induction stk generalizing stk2 with
  | nil => rfl
  | cons top stk ih => rw [moveStack, ih, List.reverse_cons, List.append_assoc]; rfl

theorem map_fromStackToReverseList (hread : ∀ i v, read (conv i v) = g v) (stk : List α) :
    (fromStackToReverseList conv stk).map read = stk.map g := by
  rw [fromStackToReverseList, map_fromStackToList hread, moveStack_eq, List.append_nil,
    List.map_reverse, List.reverse_reverse, List.map_nil, List.append_nil]

theorem map_fromVectorToReverseList (hread : ∀ i v, read (conv i v) = g v) (vec : List α)
    (ptr : List Field) :
    (fromVectorToReverseList conv vec ptr).map read = (vec.map g).reverse ++ ptr.map read := by
  induction vec generalizing ptr with
  | nil => rfl
  | cons elem vec ih =>
    rw [fromVectorToReverseList, ih, List.map_cons, hread, List.map_cons, List.reverse_cons,
      List.append_assoc]
    rfl

end Conversions

theorem int_intConv (unused : ℕ → BitVec 32) (i : ℕ) (v : BitVec 32) :
    (intConv unused i v).int = v := int_buildFromInt _ _

theorem map_fromIntStackToList (unused : ℕ → BitVec 32) (stk : List (BitVec 32)) :
    (fromIntStackToList unused stk).map Field.int = stk.reverse := by
  rw [fromIntStackToList, map_fromStackToList (g := id) (int_intConv unused), List.map_id,
    List.map_nil, List.append_nil]

theorem map_fromIntStackToReverseList (unused : ℕ → BitVec 32) (stk : List (BitVec 32)) :
    (fromIntStackToReverseList unused stk).map Field.int = stk := by
  rw [fromIntStackToReverseList, map_fromStackToReverseList (g := id) (int_intConv unused),
    List.map_id]

theorem map_fromIntVectorToReverseList (unused : ℕ → BitVec 32) (vec : List (BitVec 32)) :
    (fromIntVectorToReverseList unused vec).map Field.int = vec.reverse := by
  rw [fromIntVectorToReverseList, map_fromVectorToReverseList (g := id) (int_intConv unused),
    List.map_id, List.map_nil, List.append_nil]

theorem fromNodeStackToList_eq (stk : List (BitVec 64)) :
    fromNodeStackToList stk = stk.reverse := by
  unfold fromNodeStackToList
  have hconv : ∀ (_ : ℕ) v, id (buildFromNode v) = id v := fun _ _ => rfl
  have h := map_fromStackToList hconv stk []
  simpa only [List.map_id, List.map_nil, List.append_nil] using h

theorem fromGeneralStackToList_eq (stk : List Field) :
    fromGeneralStackToList stk = stk.reverse := by
  unfold fromGeneralStackToList
  have hconv : ∀ (_ : ℕ) v, id (buildFromField v) = id v := fun _ _ => rfl
  have h := map_fromStackToList hconv stk []
  simpa only [List.map_id, List.map_nil, List.append_nil] using h

theorem fromFloatVectorToReverseList_eq (vec : List (BitVec 64)) :
    fromFloatVectorToReverseList vec = vec.reverse := by
  unfold fromFloatVectorToReverseList
  have hconv : ∀ (_ : ℕ) v, id (buildFromFloat v) = id v := fun _ _ => rfl
  have h := map_fromVectorToReverseList hconv vec []
  simpa only [List.map_id, List.map_nil, List.append_nil] using h

/-! ## The loops -/

theorem pushKept_eq {α : Type} (keep : Field → Bool) (read : Field → α) (ls : List Field)
    (s : List α) : pushKept keep read ls s = ((ls.filter keep).map read).reverse ++ s := by
  induction ls generalizing s with
  | nil => rfl
  | cons p ls ih =>
    rw [pushKept, ih]
    cases hp : keep p with
    | false => rw [List.filter_cons_of_neg (by simp [hp]), if_neg Bool.false_ne_true]
    | true =>
      rw [List.filter_cons_of_pos hp, if_pos rfl, List.map_cons, List.reverse_cons,
        List.append_assoc]
      rfl

theorem reverseLoop_eq (ls nl : List Field) : reverseLoop ls nl = ls.reverse ++ nl := by
  induction ls generalizing nl with
  | nil => rfl
  | cons p ls ih => rw [reverseLoop, ih, List.reverse_cons, List.append_assoc]; rfl

theorem hasValue_eq (l : List Field) (v : BitVec 32) :
    hasValue l v = decide (v ∈ l.map Field.int) := by
  rw [Bool.eq_iff_iff, decide_eq_true_iff, hasValue, List.any_eq_true, List.mem_map]
  exact exists_congr fun p => and_congr_right fun _ => beq_iff_eq

theorem skipLoop_eq (a : ℤ) (ls : List Field) (ctn : ℕ) :
    skipLoop a ls ctn =
      (ls.drop (a - ctn).toNat, ((ctn + min (a - ctn).toNat ls.length : ℕ) : ℤ)) := by
  induction ls generalizing ctn with
  | nil => simp [skipLoop]
  | cons p ls ih =>
    rw [skipLoop]
    by_cases h : (ctn : ℤ) < a
    · have hsub : (a - ctn).toNat = (a - (ctn + 1 : ℕ)).toNat + 1 := by omega
      rw [if_pos h, ← Nat.cast_succ, ih, hsub, List.drop_succ_cons, List.length_cons]
      congr 1
      push_cast
      omega
    · have hsub : (a - ctn).toNat = 0 := by omega
      rw [if_neg h, hsub]
      simp

theorem subLoop_eq (b : ℤ) (ls : List Field) (ctn : ℕ) (s : List (BitVec 32)) :
    subLoop b ls ctn s = ((ls.map Field.int).take (b - ctn).toNat).reverse ++ s := by
  induction ls generalizing ctn s with
  | nil => simp [subLoop]
  | cons p ls ih =>
    rw [subLoop]
    by_cases h : (ctn : ℤ) < b
    · have hsub : (b - ctn).toNat = (b - (ctn + 1 : ℕ)).toNat + 1 := by omega
      rw [if_pos h, ← Nat.cast_succ, ih, hsub, List.map_cons, List.take_succ_cons,
        List.reverse_cons, List.append_assoc]
      rfl
    · have hsub : (b - ctn).toNat = 0 := by omega
      rw [if_neg h, hsub]
      rfl

theorem nodup_distinctLoop (ls : List Field) {set : List (BitVec 32)} (h : set.Nodup) :
    (distinctLoop ls set).Nodup := by
  induction ls generalizing set with
  | nil => exact h
  | cons p ls ih =>
    refine ih ?_
    split
    · exact h
    · rename_i hp
      exact h.append (List.nodup_singleton _) (List.disjoint_singleton.2 hp)

theorem mem_distinctLoop (ls : List Field) (set : List (BitVec 32)) (v : BitVec 32) :
    v ∈ distinctLoop ls set ↔ v ∈ set ∨ v ∈ ls.map Field.int := by
  induction ls generalizing set with
  | nil => simp [distinctLoop]
  | cons p ls ih =>
    rw [distinctLoop, ih, List.map_cons, List.mem_cons]
    split
    · rename_i hp
      constructor
      · exact Or.imp_right Or.inr
      · rintro (h | rfl | h)
        · exact Or.inl h
        · exact Or.inl hp
        · exact Or.inr h
    · rw [List.mem_append, List.mem_singleton, or_assoc]

theorem map_createAll (unused : ℕ → BitVec 32) (set : List (BitVec 32)) (nl : List Field) :
    (createAll unused set nl).map Field.int = set.reverse ++ nl.map Field.int := by
  induction set generalizing nl with
  | nil => rfl
  | cons v set ih =>
    rw [createAll, ih, List.map_cons, int_intConv, List.reverse_cons, List.append_assoc]
    rfl

/-! ## Sharing an element -/

/-- Two elements are equal at the type. -/
def sameAt : FieldType → Field → Field → Bool
  | .float, x, y => Ieee.eq x.float y.float
  | ty, x, y => ty.used x == ty.used y

/-- Some element of the first list is equal to one of the second. -/
def shares (ty : FieldType) (ls other : List Field) : Bool :=
  other.any fun head => ls.any fun p => sameAt ty p head

/-- A node is an address or a number, and far below the words that are a number from one on. -/
def IsNode (f : Field) : Prop := f.toNat < 2 ^ 61

theorem existsLoop_int (ls other : List Field) :
    existsLoop ls .int other = .ok (shares .int ls other) := by
  induction other with
  | nil => rfl
  | cons head other ih =>
    have hany : (ls.any fun p => p.int == head.int) = ls.any fun p => sameAt .int p head := by
      congr 1
      funext p
      rw [sameAt, Bool.eq_iff_iff, beq_iff_eq, beq_iff_eq, FieldType.used_int_inj]
      nofun
    have hcons : shares .int ls (head :: other) =
        ((ls.any fun p => sameAt .int p head) || shares .int ls other) := List.any_cons
    rw [existsLoop, ih, hany, hcons]
    cases ls.any fun p => sameAt .int p head <;> rfl

theorem existsLoop_float (ls other : List Field) :
    existsLoop ls .float other = .ok (shares .float ls other) := by
  induction other with
  | nil => rfl
  | cons head other ih =>
    have hcons : shares .float ls (head :: other) =
        ((ls.any fun p => Ieee.eq p.float head.float) || shares .float ls other) := List.any_cons
    rw [existsLoop, ih, hcons]
    cases ls.any fun p => Ieee.eq p.float head.float <;> rfl

/-- **The loop for nodes** looks for the word zero, once it has something to look for. -/
theorem existsLoop_node {other : List Field} (hnode : ∀ f ∈ other, IsNode f) :
    existsLoop ls .node other = .ok (!other.isEmpty && decide (0 ∈ ls)) := by
  have hany : (ls.any fun p => p.node == 0) = decide (0 ∈ ls) := by
    rw [Bool.eq_iff_iff, decide_eq_true_iff, List.any_eq_true]
    exact ⟨fun ⟨p, hp, heq⟩ => beq_iff_eq.1 heq ▸ hp, fun h => ⟨0, h, rfl⟩⟩
  induction other with
  | nil => rfl
  | cons head other ih =>
    obtain ⟨hhead, hother⟩ := List.forall_mem_cons.1 hnode
    have hzero : Ieee.toUInt64 head.float = some 0 := Ieee.toUInt64_of_lt hhead
    rw [existsLoop]
    simp only [hzero]
    rw [hany, ih hother]
    by_cases h0 : (0 : Field) ∈ ls
    · rw [decide_eq_true h0, if_pos rfl]
      rfl
    · rw [decide_eq_false h0, if_neg Bool.false_ne_true, Bool.and_false]
      rfl

theorem shares_nil_left (ty : FieldType) (other : List Field) : shares ty [] other = false := by
  simp [shares]

/-- Where `lexistss` is right about nodes. -/
def ExistsCond (ty : FieldType) (ls other : List Field) : Prop :=
  ty = .node → other = [] ∨ (0 ∈ ls ↔ shares ty ls other = true)

/-- **`lexistss`** does not look for nodes, but for the word zero. -/
theorem lexistss_iff {other : List Field} (hnode : ty = .node → ∀ f ∈ other, IsNode f)
    (haccept : lexistss ls other ty ≠ .error .abort) :
    lexistss ls other ty = .ok (shares ty ls other) ↔ ExistsCond ty ls other := by
  unfold lexistss at haccept ⊢
  cases ls with
  | nil =>
    rw [shares_nil_left]
    refine iff_of_true rfl fun _ => Or.inr ?_
    rw [shares_nil_left]
    exact iff_of_false List.not_mem_nil Bool.false_ne_true
  | cons p ls =>
    cases other with
    | nil => exact iff_of_true rfl fun _ => Or.inl rfl
    | cons head other =>
      simp only [List.isEmpty_cons, Bool.false_eq_true, if_false] at haccept ⊢
      cases ty with
      | int => exact iff_of_true (existsLoop_int _ _) nofun
      | float => exact iff_of_true (existsLoop_float _ _) nofun
      | node =>
        rw [existsLoop_node (hnode rfl), Except.ok.injEq, List.isEmpty_cons, Bool.not_false,
          Bool.true_and, Bool.eq_iff_iff, decide_eq_true_iff]
        constructor
        · exact fun h _ => Or.inr h
        · intro h
          exact (h rfl).resolve_left (List.cons_ne_nil _ _)
      | _ => exact absurd rfl haccept

/-! ## Sorting -/

/-- The order of the elements: by value, and of nodes by number. -/
def LeAt (L : Library) : FieldType → Field → Field → Prop
  | .int, x, y => x.int.toInt ≤ y.int.toInt
  | .float, x, y => Ieee.le x.float y.float = true
  | .node, x, y => L.getId x.node ≤ L.getId y.node
  | _, _, _ => False

/-- The second list has the elements of the first one in ascending order. -/
structure SortOf (L : Library) (ty : FieldType) (ls r : List Field) : Prop where
  perm : (r.map ty.used).Perm (ls.map ty.used)
  pairwise : r.Pairwise (LeAt L ty)

/-- Where `lsort` sorts. -/
def SortCond (ty : FieldType) (ls : List Field) : Prop :=
  match ty with
  | .float => (∀ f ∈ ls, Ieee.isNaN f.float = false) ∨ ls.length ≤ 1
  | .node => ls = []
  | _ => True

theorem sortOf_nil (L : Library) (ty : FieldType) : SortOf L ty [] [] := ⟨.refl _, .nil⟩

theorem map_used_int (ls : List Field) :
    ls.map FieldType.int.used = (ls.map Field.int).map (BitVec.setWidth 64) := by
  rw [List.map_map]
  rfl

theorem sortOf_ints (L : Library) (ls : List Field) :
    SortOf L .int ls (fromIntVectorToReverseList L.unused
      (L.sort (fun a1 a2 => a2.slt a1) (ls.map Field.int))) := by
  have hkey : ∀ a ∈ ls.map Field.int, ∀ b ∈ ls.map Field.int,
      b.slt a = decide (-a.toInt < -b.toInt) := by
    intro a _ b _
    rw [BitVec.slt_eq_decide]
    simp
  have hperm := L.sort_perm _ _ _ hkey
  have hsorted := L.sort_pairwise _ _ _ hkey
  constructor
  · rw [map_used_int, map_used_int, map_fromIntVectorToReverseList]
    exact ((List.reverse_perm _).trans hperm).map _
  · have hmap : ((fromIntVectorToReverseList L.unused
        (L.sort (fun a1 a2 => a2.slt a1) (ls.map Field.int))).map Field.int).Pairwise
          fun a b => a.toInt ≤ b.toInt := by
      rw [map_fromIntVectorToReverseList, List.pairwise_reverse]
      exact hsorted.imp fun h => neg_le_neg_iff.1 h
    rw [List.pairwise_map] at hmap
    exact hmap

/-- A list with a NaN and another element is not in ascending order. -/
theorem not_pairwise_of_isNaN {r : List Field} {x : Field} (hx : x ∈ r)
    (hnan : Ieee.isNaN x.float = true) (hlen : 1 < r.length) : ¬ r.Pairwise (LeAt L .float) := by
  intro hr
  obtain ⟨pre, post, rfl⟩ := List.append_of_mem hx
  obtain ⟨-, hpost, hpre⟩ := List.pairwise_append.1 hr
  cases pre with
  | nil =>
    cases post with
    | nil => exact absurd hlen (Nat.lt_irrefl 1)
    | cons y post =>
      have hle := (List.pairwise_cons.1 hpost).1 y List.mem_cons_self
      rw [LeAt, Ieee.le_iff, hnan] at hle
      exact absurd hle.1 nofun
  | cons y pre =>
    have hle := hpre y List.mem_cons_self x List.mem_cons_self
    rw [LeAt, Ieee.le_iff, hnan] at hle
    exact absurd hle.2.1 nofun

theorem sortOf_floats_iff (L : Library) (ls : List Field) :
    SortOf L .float ls (fromFloatVectorToReverseList
      (L.sort (fun a1 a2 => Ieee.lt a2 a1) (ls.map Field.float))) ↔ SortCond .float ls := by
  have hused : ∀ l : List Field, l.map FieldType.float.used = l := fun l => List.map_id l
  have hfloat : ls.map Field.float = ls := List.map_id ls
  rw [fromFloatVectorToReverseList_eq, hfloat]
  constructor
  · rintro ⟨hperm, hpairwise⟩
    rw [hused, hused] at hperm
    by_contra hcond
    obtain ⟨hnan, hlen⟩ := not_or.1 hcond
    push Not at hnan hlen
    obtain ⟨x, hx, hxnan⟩ := hnan
    refine not_pairwise_of_isNaN (hperm.mem_iff.2 hx) (by simpa using hxnan) ?_ hpairwise
    rwa [hperm.length_eq]
  · intro hcond
    have hkey : ∀ a ∈ ls, ∀ b ∈ ls, Ieee.lt b a = decide (-Ieee.key a < -Ieee.key b) := by
      intro a ha b hb
      rcases hcond with hnan | hlen
      · exact (Ieee.lt_iff (hnan b hb) (hnan a ha)).trans (decide_eq_decide.2 neg_lt_neg_iff.symm)
      · obtain rfl : a = b := by
          cases ls with
          | nil => exact absurd ha List.not_mem_nil
          | cons c ls =>
            obtain rfl : ls = [] := List.eq_nil_of_length_eq_zero (by simpa using hlen)
            rw [List.mem_singleton.1 ha, List.mem_singleton.1 hb]
        simp [Ieee.lt]
    have hperm := (List.reverse_perm _).trans (L.sort_perm _ _ _ hkey)
    have hsorted := List.pairwise_reverse.2 (L.sort_pairwise _ _ _ hkey)
    refine ⟨by rwa [hused, hused], ?_⟩
    rcases hcond with hnan | hlen
    · refine hsorted.imp_of_mem fun {a b} ha hb h => ?_
      exact Ieee.le_iff.2 ⟨hnan a (hperm.mem_iff.1 ha), hnan b (hperm.mem_iff.1 hb),
        neg_le_neg_iff.1 h⟩
    · have hone := hperm.length_eq.trans_le hlen
      refine List.pairwise_iff_getElem.2 fun i j _ hj hij => ?_
      have hj1 : j < 1 := hj.trans_le hone
      omega

/-- **`lsort`** sorts what it can, and loses nodes. -/
theorem lsort_iff (haccept : lsort L ls ty ≠ .error .abort) :
    (∃ r, lsort L ls ty = .ok r ∧ SortOf L ty ls r) ↔ SortCond ty ls := by
  unfold lsort at haccept ⊢
  cases ls with
  | nil =>
    refine iff_of_true ⟨[], rfl, sortOf_nil L ty⟩ ?_
    cases ty with
    | float => exact Or.inr (Nat.zero_le 1)
    | node => rfl
    | _ => trivial
  | cons p ls =>
    simp only [List.isEmpty_cons, Bool.false_eq_true, if_false] at haccept ⊢
    cases ty with
    | int => exact iff_of_true ⟨_, rfl, sortOf_ints L _⟩ trivial
    | float =>
      rw [← sortOf_floats_iff L]
      exact ⟨fun ⟨r, hr, h⟩ => Except.ok.inj hr ▸ h, fun h => ⟨_, rfl, h⟩⟩
    | node =>
      refine iff_of_false ?_ (List.cons_ne_nil p ls)
      rintro ⟨r, hr, hperm, -⟩
      obtain rfl := Except.ok.inj hr
      exact absurd hperm.length_eq nofun
    | _ => exact absurd rfl haccept

/-! ## The other functions -/

theorem lremove_spec {n : Field} (haccept : lremove L ls n ty ≠ .error .abort) :
    ∃ r, lremove L ls n ty = .ok r ∧
      r.map ty.used = (ls.map ty.used).filter (· ≠ ty.used n) := by
  unfold lremove at haccept ⊢
  cases ls with
  | nil => exact ⟨[], rfl, rfl⟩
  | cons p ls =>
    simp only [List.isEmpty_cons, Bool.false_eq_true, if_false] at haccept ⊢
    cases ty with
    | int =>
      refine ⟨_, rfl, ?_⟩
      rw [map_used_int, map_fromIntStackToList, removeInts, pushKept_eq, List.append_nil,
        List.reverse_reverse, List.filter_map, List.map_map]
      congr 1
      refine List.filter_congr fun f _ => ?_
      simp [FieldType.used_int_inj]
    | node =>
      refine ⟨_, rfl, ?_⟩
      rw [fromNodeStackToList_eq, removeNodes, pushKept_eq, List.append_nil,
        List.reverse_reverse, List.filter_map, List.map_map]
      rfl
    | _ => exact absurd rfl haccept

theorem lappend_eq (ls1 ls2 : List Field) : lappend ls1 ls2 = ls1 ++ ls2 := by
  rw [lappend, fromGeneralStackToList_eq, pushAll, pushKept_eq, pushKept_eq]
  split
  · rename_i h
    rw [List.isEmpty_iff.1 h.1, List.isEmpty_iff.1 h.2]
    rfl
  · simp

theorem lreverse_eq (ls : List Field) : lreverse ls = ls.reverse := by
  rw [lreverse, reverseLoop_eq, List.append_nil]
  cases ls <;> rfl

theorem map_intlistdiff (L : Library) (ls1 ls2 : List Field) :
    (intlistdiff L ls1 ls2).map Field.int =
      (ls1.map Field.int).filter fun v => v ∉ ls2.map Field.int := by
  rw [intlistdiff, map_fromIntStackToList, diffLoop, pushKept_eq, List.append_nil,
    List.reverse_reverse, List.filter_map]
  congr 1
  refine List.filter_congr fun f _ => ?_
  rw [Function.comp_apply, hasValue_eq, decide_not]

theorem map_intlistsub (L : Library) (p : List Field) (a b : BitVec 32) :
    (intlistsub L p a b).map Field.int =
      ((p.map Field.int).take b.toInt.toNat).drop a.toInt.toNat := by
  have hskip := skipLoop_eq a.toInt p 0
  rw [Nat.cast_zero, sub_zero, Nat.zero_add] at hskip
  simp only [intlistsub, hskip, map_fromIntStackToList, subLoop_eq, List.append_nil,
    List.reverse_reverse, List.drop_take, List.map_drop]
  rcases Nat.le_total p.length a.toInt.toNat with hlen | hlen
  · rw [List.drop_eq_nil_of_le (by simpa using hlen), List.take_nil, List.take_nil]
  · congr 1
    omega

theorem lremoveduplicates_spec (haccept : lremoveduplicates L ls ty ≠ .error .abort) :
    ∃ r, lremoveduplicates L ls ty = .ok r ∧ (r.map ty.used).Nodup ∧
      ∀ v, v ∈ r.map ty.used ↔ v ∈ ls.map ty.used := by
  unfold lremoveduplicates at haccept ⊢
  cases ls with
  | nil => exact ⟨[], rfl, List.nodup_nil, fun _ => Iff.rfl⟩
  | cons p ls =>
    simp only [List.isEmpty_cons, Bool.false_eq_true, if_false] at haccept ⊢
    cases ty with
    | int =>
      have hmap := map_createAll L.unused (L.order (distinctLoop (p :: ls) [])) []
      have horder := L.order_perm (distinctLoop (p :: ls) [])
      rw [List.map_nil, List.append_nil] at hmap
      refine ⟨_, rfl, ?_, fun v => ?_⟩
      · rw [map_used_int, hmap]
        refine List.Nodup.map ?_ (List.nodup_reverse.2 (horder.nodup_iff.2
          (nodup_distinctLoop _ List.nodup_nil)))
        intro x y h
        have hlow := congrArg (BitVec.setWidth 32) h
        rwa [BitVec.setWidth_setWidth_of_le _ (by decide),
          BitVec.setWidth_setWidth_of_le _ (by decide), BitVec.setWidth_eq,
          BitVec.setWidth_eq] at hlow
      · rw [map_used_int, map_used_int, hmap, List.mem_map, List.mem_map]
        refine exists_congr fun x => and_congr_left fun _ => ?_
        rw [List.mem_reverse, horder.mem_iff, mem_distinctLoop]
        exact or_iff_right List.not_mem_nil
    | _ => exact absurd rfl haccept

/-- **The list externals** meet their specifications for the types of elements that they accept,
but for two functions on nodes and for numbers that cannot be ordered.  `lsort` sorts exactly lists
of `int`s, lists of `float`s without a NaN or with at most one element, and the empty list;
`lexistss` is right about nodes exactly if the second list is empty, or the first one contains the
word zero if and only if the two share an element. -/
theorem list_externals_iff (L : Library) :
    (∀ ls ty, lsort L ls ty ≠ .error .abort →
      ((∃ r, lsort L ls ty = .ok r ∧ SortOf L ty ls r) ↔ SortCond ty ls)) ∧
    (∀ ls other ty, (ty = .node → ∀ f ∈ other, IsNode f) →
      lexistss ls other ty ≠ .error .abort →
        (lexistss ls other ty = .ok (shares ty ls other) ↔ ExistsCond ty ls other)) ∧
    (∀ ls n ty, lremove L ls n ty ≠ .error .abort → ∃ r, lremove L ls n ty = .ok r ∧
      r.map ty.used = (ls.map ty.used).filter (· ≠ ty.used n)) ∧
    (∀ ls1 ls2, lappend ls1 ls2 = ls1 ++ ls2) ∧
    (∀ ls, lreverse ls = ls.reverse) ∧
    (∀ ls1 ls2, (intlistdiff L ls1 ls2).map Field.int =
      (ls1.map Field.int).filter fun v => v ∉ ls2.map Field.int) ∧
    (∀ p a b, (intlistsub L p a b).map Field.int =
      ((p.map Field.int).take b.toInt.toNat).drop a.toInt.toNat) ∧
    ∀ ls ty, lremoveduplicates L ls ty ≠ .error .abort → ∃ r, lremoveduplicates L ls ty = .ok r ∧
      (r.map ty.used).Nodup ∧ ∀ v, v ∈ r.map ty.used ↔ v ∈ ls.map ty.used :=
  ⟨fun _ _ => lsort_iff, fun _ _ _ => lexistss_iff, fun _ _ _ => lremove_spec, lappend_eq,
    lreverse_eq, map_intlistdiff L, map_intlistsub L, fun _ _ => lremoveduplicates_spec⟩

/-! ## A library -/

/-- Sorting by insertion, a set in the order of insertion, and nodes with their addresses as
numbers. -/
def insertionLibrary : Library where
  sort lt l := l.insertionSort fun a b => ¬ lt b a
  sort_perm _ _ l _ := List.perm_insertionSort _ l
  sort_pairwise lt key l hkey := by
    have hrel : ∀ a ∈ l, ∀ b ∈ l, (¬ lt b a ↔ key a ≤ key b) := by
      intro a ha b hb
      rw [hkey b hb a ha, decide_eq_true_iff, not_lt]
    have hmap := List.map_insertionSort (fun a b => ¬ lt b a) (· ≤ ·) key l hrel
    have hsorted := List.pairwise_insertionSort (· ≤ ·) (l.map key)
    rw [← hmap, List.pairwise_map] at hsorted
    exact hsorted
  order l := l
  order_perm := .refl
  unused _ := 0
  getId := BitVec.toNat

/-- Two numbers come into order. -/
theorem list_externals_two : ∃ r, lsort insertionLibrary [2, 1] .int = .ok r ∧
    SortOf insertionLibrary .int [2, 1] r :=
  ((list_externals_iff insertionLibrary).1 [2, 1] .int (by simp [lsort])).2 trivial

/-- **A list of one node** loses it in `lsort`, and shares no element with itself in `lexistss`. -/
theorem node_list_lost :
    ¬ (∃ r, lsort insertionLibrary [4096] .node = .ok r ∧
      SortOf insertionLibrary .node [4096] r) ∧
    lexistss [4096] [4096] .node = .ok false ∧ shares .node [4096] [4096] = true := by
  refine ⟨?_, by decide, by decide⟩
  rw [lsort_iff (by simp [lsort])]
  exact List.cons_ne_nil _ _

end External
end Meld
