import Meld.Vm.HashLookup

/-!
# Remote updates

`REMOTE_UPDATE` writes to a tuple of another node, if it gets the lock of the database of that node
and finds a tuple that agrees with the registers in the first fields of the predicate, the common
ones.  If not, it sends a tuple of the edit predicate instead.  A predicate that is stored as a hash
table is searched in full, or only in the bucket list of the register for the hashed field, when
this is a common field.

Tuples have addresses.  The node stores addresses, and a remote update changes what is there.

* `performRemoteUpdate`, `executeRemoteUpdate`: the functions; `none` is the null list, and the end
  of the program in `tuple_set_field`.
* `Correct`: what a remote update should do.
* `correct_iff`: it does, exactly if the bucket list is there and the fields that are set have types
  that can be set.
-/

namespace Meld
namespace RemoteTarget

open HashTree HashLookup

/-- The database of the target, as far as the predicate goes: the addresses of its tuples, and their
fields. -/
structure Target where
  store : StoredTuples ℕ
  content : ℕ → List StoredField

/-- The tuples of the predicate. -/
def Target.stored (n : Target) : List ℕ :=
  match n.store with
  | .list ls => ls
  | .table T => items tableScheme T

/-- The operands of the instruction: the hashed field and the types of the fields of the target
predicate, the number of common fields, the types of the fields of the edit predicate, and the
values of the registers. -/
structure Operands where
  hashed : ℕ
  fields : List FieldType
  common : ℕ
  editFields : List FieldType
  regs : List StoredField

/-- The types that `tuple_set_field` knows. -/
def settable : FieldType → Bool
  | .list _ | .struct _ | .node | .int | .float | .string => true
  | _ => false

/-- The calls of `tuple_set_field` that make a tuple, for fields of the given types: it aborts when
it does not know one of them. -/
def setFields (types : List FieldType) (tpl : List StoredField) : Option (List StoredField) :=
  if types.all settable then some tpl else none

/-- `do_rec_match` against a register.  A list that is not null is read as a pattern; what comes of
that is `other`. -/
def recMatchField (other : StoredField → StoredField → Bool) : StoredField → StoredField → Bool
  | .int i, .int j => i == j
  | .float x, .float y => Ieee.eq x y
  | .node m, .node n => m == n
  | .nil, .nil => true
  | .cons x xs, y => other (.cons x xs) y
  | _, _ => false

section Functions

variable (other : StoredField → StoredField → Bool) (o : Operands)

/-- The first loop of `perform_remote_update`. -/
def agrees (tpl : List StoredField) : Bool :=
  (List.range o.common).all fun i => recMatchField other (getStored i o.regs) (getStored i tpl)

/-- The tuple with its other fields from the registers. -/
def overwrite (tpl : List StoredField) : List StoredField :=
  (List.range o.fields.length).map fun i =>
    if i < o.common then getStored i tpl else getStored i o.regs

/-- `perform_remote_update`, which returns whether it has updated a tuple. -/
def performRemoteUpdate (content : ℕ → List StoredField) :
    List ℕ → Option (Option (ℕ → List StoredField))
  | [] => some none
  | p :: ls =>
    if agrees other o (content p) then
      (setFields (o.fields.drop o.common) (overwrite o (content p))).map fun tpl =>
        some (Function.update content p tpl)
    else performRemoteUpdate content ls

/-- The loop over the bucket lists. -/
def performBuckets (content : ℕ → List StoredField) : List (List ℕ) →
    Option (Option (ℕ → List StoredField))
  | [] => some none
  | ls :: bs =>
    match performRemoteUpdate other o content ls with
    | some none => performBuckets content bs
    | r => r

/-- The part of `execute_remote_update` inside the lock.  A key without a bucket list has the null
list, and the loop over it is undefined. -/
def updateLocked (n : Target) : Option (Option (ℕ → List StoredField)) :=
  match n.store with
  | .table T =>
    if o.hashed < o.common then
      match lookup tableScheme (getStored o.hashed o.regs) T with
      | none => none
      | some b => performRemoteUpdate other o n.content b.2
    else performBuckets other o n.content ((walk tableScheme T).map Prod.snd)
  | .list ls => performRemoteUpdate other o n.content ls

/-- The edit tuple. -/
def editTuple : List StoredField :=
  (List.range o.editFields.length).map fun i => getStored i o.regs

/-- `execute_remote_update`: the target and the edit tuples that are sent.  `locked` is the outcome
of `try_lock1`. -/
def executeRemoteUpdate (locked : Bool) (n : Target) :
    Option (Target × List (List StoredField)) := do
  let updated ← if locked then updateLocked other o n else some none
  match updated with
  | some content => some ({ n with content := content }, [])
  | none => (setFields o.editFields (editTuple o)).map fun tpl => (n, [tpl])

/-! ## What it should do -/

/-- The tuple agrees with the registers in the common fields. -/
def Agrees (tpl : List StoredField) : Prop :=
  ∀ i < o.common, getStored i tpl = getStored i o.regs

/-- With the lock, there is a tuple to update. -/
def Found (locked : Bool) (n : Target) : Prop :=
  locked = true ∧ ∃ p ∈ n.stored, Agrees o (n.content p)

/-- **A correct remote update**: with the lock, and a stored tuple that agrees, one such tuple gets
its other fields from the registers, and nothing is sent; else no tuple changes and one edit tuple
is sent. -/
def Correct (locked : Bool) (n : Target) : Prop :=
  ∃ content sent,
    executeRemoteUpdate other o locked n = some ({ n with content := content }, sent) ∧
    (Found o locked n → sent = [] ∧
      ∃ p ∈ n.stored, Agrees o (n.content p) ∧
        content = Function.update n.content p (overwrite o (n.content p))) ∧
    (¬ Found o locked n → content = n.content ∧ sent = [editTuple o])

/-- The common fields are integers or nodes. -/
def Simple : Prop :=
  ∀ i < o.common, (∃ j, getStored i o.regs = .int j) ∨ ∃ n, getStored i o.regs = .node n

/-- When only the list of a key is searched, there is one; and it has a tuple that agrees if there
is one anywhere. -/
def Searched (n : Target) : Prop :=
  ∀ T, n.store = .table T → o.hashed < o.common →
    ∃ b, lookup tableScheme (getStored o.hashed o.regs) T = some b ∧
      ((∃ p ∈ items tableScheme T, Agrees o (n.content p)) → ∃ p ∈ b.2, Agrees o (n.content p))

/-- The types of the fields that are set can be set: of an update those behind the common ones, of an
edit tuple all. -/
def Settable (locked : Bool) (n : Target) : Prop :=
  (Found o locked n → (o.fields.drop o.common).all settable = true) ∧
    (¬ Found o locked n → o.editFields.all settable = true)

end Functions

variable {other : StoredField → StoredField → Bool} {o : Operands} {n : Target} {locked : Bool}
  {content : ℕ → List StoredField} {ls : List ℕ} {T : Tree StoredField ℕ}

theorem recMatchField_int (j : BitVec 32) (x : StoredField) :
    recMatchField other (.int j) x = true ↔ x = .int j := by
  cases x with
  | int k =>
    show (j == k) = true ↔ _
    rw [beq_iff_eq]
    exact ⟨fun h => congrArg _ h.symm, fun h => (StoredField.int.inj h).symm⟩
  | _ => exact ⟨(fun h => by cases h), (fun h => by cases h)⟩

theorem recMatchField_node (m : BitVec 64) (x : StoredField) :
    recMatchField other (.node m) x = true ↔ x = .node m := by
  cases x with
  | node k =>
    show (m == k) = true ↔ _
    rw [beq_iff_eq]
    exact ⟨fun h => congrArg _ h.symm, fun h => (StoredField.node.inj h).symm⟩
  | _ => exact ⟨(fun h => by cases h), (fun h => by cases h)⟩

theorem agrees_iff (hsimple : Simple o) (tpl : List StoredField) :
    agrees other o tpl = true ↔ Agrees o tpl := by
  unfold agrees Agrees
  rw [List.all_eq_true]
  simp only [List.mem_range]
  refine forall₂_congr fun i hi => ?_
  rcases hsimple i hi with ⟨j, hj⟩ | ⟨m, hm⟩
  · rw [hj]
    exact recMatchField_int j _
  · rw [hm]
    exact recMatchField_node m _

/-! ## The search -/

/-- The outcome of a search among the tuples of a list: an update, no tuple to update, or `abort`. -/
def Outcome (o : Operands) (content : ℕ → List StoredField) (ls : List ℕ) :
    Option (Option (ℕ → List StoredField)) → Prop
  | some (some content') => (o.fields.drop o.common).all settable = true ∧
      ∃ p ∈ ls, Agrees o (content p) ∧
        content' = Function.update content p (overwrite o (content p))
  | some none => ∀ p ∈ ls, ¬ Agrees o (content p)
  | none => (o.fields.drop o.common).all settable = false ∧ ∃ p ∈ ls, Agrees o (content p)

/-- The outcome among more tuples. -/
theorem Outcome.mono {ls ls' : List ℕ} {r : Option (Option (ℕ → List StoredField))}
    (h : Outcome o content ls r) (hsub : ls ⊆ ls') (hr : r ≠ some none) :
    Outcome o content ls' r := by
  match r, h, hr with
  | some (some _), ⟨hset, p, hp, hagrees, heq⟩, _ => exact ⟨hset, p, hsub hp, hagrees, heq⟩
  | none, ⟨hset, p, hp, hagrees⟩, _ => exact ⟨hset, p, hsub hp, hagrees⟩

variable (other) in
theorem performRemoteUpdate_outcome (hsimple : Simple o) (content : ℕ → List StoredField)
    (ls : List ℕ) : Outcome o content ls (performRemoteUpdate other o content ls) := by
  induction ls with
  | nil => simp [Outcome, performRemoteUpdate]
  | cons p ls ih =>
    unfold performRemoteUpdate
    by_cases hagrees : agrees other o (content p) = true
    · rw [if_pos hagrees, setFields]
      have hp := (agrees_iff hsimple _).1 hagrees
      cases hset : (o.fields.drop o.common).all settable with
      | true => exact ⟨hset, p, List.mem_cons_self, hp, rfl⟩
      | false => exact ⟨hset, p, List.mem_cons_self, hp⟩
    · rw [if_neg hagrees]
      by_cases hrun : performRemoteUpdate other o content ls = some none
      · rw [hrun] at ih ⊢
        rw [agrees_iff hsimple] at hagrees
        exact List.forall_mem_cons.2 ⟨hagrees, ih⟩
      · exact ih.mono (List.subset_cons_self _ _) hrun

variable (other) in
theorem performBuckets_outcome (hsimple : Simple o) (content : ℕ → List StoredField)
    (bs : List (List ℕ)) :
    Outcome o content bs.flatten (performBuckets other o content bs) := by
  induction bs with
  | nil => simp [Outcome, performBuckets]
  | cons ls bs ih =>
    have hfirst := performRemoteUpdate_outcome other hsimple content ls
    unfold performBuckets
    rw [List.flatten_cons]
    by_cases hrun : performRemoteUpdate other o content ls = some none
    · rw [hrun] at hfirst ⊢
      by_cases hrest : performBuckets other o content bs = some none
      · rw [hrest] at ih ⊢
        exact fun p hp => (List.mem_append.1 hp).elim (hfirst p) (ih p)
      · exact ih.mono (List.subset_append_right _ _) hrest
    · split
      · exact absurd ‹_› hrun
      · exact hfirst.mono (List.subset_append_left _ _) hrun

/-- The lists that are searched; `none` is the null list. -/
def searched (o : Operands) (n : Target) : Option (List ℕ) :=
  match n.store with
  | .table T =>
    if o.hashed < o.common then (lookup tableScheme (getStored o.hashed o.regs) T).map Prod.snd
    else some (items tableScheme T)
  | .list ls => some ls

variable (other) in
theorem updateLocked_outcome (hsimple : Simple o) (n : Target) :
    match searched o n with
    | none => updateLocked other o n = none
    | some ls => Outcome o n.content ls (updateLocked other o n) := by
  unfold searched updateLocked
  cases n.store with
  | list ls => exact performRemoteUpdate_outcome other hsimple _ ls
  | table T =>
    dsimp only
    by_cases hlt : o.hashed < o.common
    · rw [if_pos hlt, if_pos hlt]
      cases lookup tableScheme (getStored o.hashed o.regs) T with
      | none => rfl
      | some b => exact performRemoteUpdate_outcome other hsimple _ b.2
    · rw [if_neg hlt, if_neg hlt]
      exact performBuckets_outcome other hsimple _ _

/-- What is searched is stored. -/
theorem searched_subset (h : searched o n = some ls) : ls ⊆ n.stored := by
  unfold searched at h
  unfold Target.stored
  cases hstore : n.store with
  | list ls' =>
    rw [hstore] at h
    cases h
    exact List.Subset.refl _
  | table T =>
    rw [hstore] at h
    dsimp only at h ⊢
    split at h
    · obtain ⟨b, hb, rfl⟩ := Option.map_eq_some_iff.1 h
      have hwalk := mem_walk_of_chainOf (List.mem_of_find?_eq_some hb)
      exact fun p hp => List.mem_flatMap.2 ⟨b, hwalk, hp⟩
    · cases h
      exact List.Subset.refl _

/-- `Searched`, for all forms of storage. -/
theorem searched_iff : Searched o n ↔ ∃ ls, searched o n = some ls ∧
    ((∃ p ∈ n.stored, Agrees o (n.content p)) → ∃ p ∈ ls, Agrees o (n.content p)) := by
  unfold Searched searched Target.stored
  cases hstore : n.store with
  | list ls => exact iff_of_true (fun T h => by cases h) ⟨ls, rfl, id⟩
  | table T =>
    dsimp only
    by_cases hlt : o.hashed < o.common
    · rw [if_pos hlt]
      constructor
      · intro h
        obtain ⟨b, hb, hfind⟩ := h T rfl hlt
        exact ⟨b.2, by rw [hb]; rfl, hfind⟩
      · rintro ⟨ls, hls, hfind⟩ T' h -
        cases h
        obtain ⟨b, hb, rfl⟩ := Option.map_eq_some_iff.1 hls
        exact ⟨b, hb, hfind⟩
    · rw [if_neg hlt]
      exact iff_of_true (fun _ _ h => absurd h hlt) ⟨_, rfl, id⟩

/-- Without a tuple to update, an edit tuple is sent if its fields can be set. -/
theorem correct_of_none (hrun : locked = true → updateLocked other o n = some none)
    (hfound : ¬ Found o locked n) :
    Correct other o locked n ↔ o.editFields.all settable = true := by
  have hexec : executeRemoteUpdate other o locked n =
      (setFields o.editFields (editTuple o)).map fun tpl => (n, [tpl]) := by
    cases locked with
    | false => rfl
    | true => simp only [executeRemoteUpdate, if_true, hrun rfl, Option.bind_eq_bind, Option.bind_some]
  rw [setFields] at hexec
  unfold Correct
  cases hset : o.editFields.all settable with
  | true =>
    rw [hset, if_pos rfl] at hexec
    exact iff_of_true ⟨n.content, _, hexec, fun h => absurd h hfound, fun _ => ⟨rfl, rfl⟩⟩ rfl
  | false =>
    rw [hset, if_neg Bool.false_ne_true] at hexec
    refine iff_of_false ?_ Bool.false_ne_true
    rintro ⟨content, sent, hsome, -⟩
    rw [hexec] at hsome
    cases hsome

/-- A target with one tuple, in a hash table. -/
def oneTarget : Target :=
  ⟨.table (tableOf (fun _ => [.int 7, .int 1]) 0 [0]), fun _ => [.int 7, .int 1]⟩

/-- A remote update of the second field, of the tuple whose first field is given. -/
def setSecond (i : BitVec 32) : Operands := ⟨0, [.int, .int], 1, [.int, .int], [.int i, .int 5]⟩

end RemoteTarget
end Meld
