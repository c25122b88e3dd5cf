import Meld.Db.CompactArray

/-!
# The buffers of a compact array

The contents of `db::array` and the requests for its memory, for tuples of any kind.  `init` asks
the allocator of the node for a buffer; a buffer is released with the size that the capacity gives
and with the allocator that the capacity stands for, which is the general one from 16 on.

* `init`, `addNext`, `expand`, `wipeout`: the operations, with the requests.
* `ArrayOp`, `run`: a block of axioms, and one derived tuple.
* `Kept`, `Balanced`: the tuples are there in order; every buffer is released as it was obtained.
* `forall_kept_iff`, `forall_kept_balanced_iff`: for which sequences these hold.
-/

namespace Meld

/-- Where a buffer is from. -/
inductive ArrayAllocator where
  | node
  | general
  deriving DecidableEq

/-- A buffer, its size in bytes and the allocator it is from or goes to. -/
structure BufferRequest where
  buffer : ℕ
  size : ℕ
  alloc : ArrayAllocator
  deriving DecidableEq

/-- `db::array`: `data` is the number of the buffer, and 0 for none; numbers are not used twice.
`mem` is the memory of all buffers, a slot for every tuple. -/
structure ArrayBuffer (α : Type*) where
  data : ℕ
  cap : ℕ
  numTuples : ℕ
  mem : ℕ → ℕ → α
  obtained : List BufferRequest
  returned : List BufferRequest

namespace ArrayBuffer

variable {α : Type*} [Inhabited α]

/-- `array()`. -/
def empty : ArrayBuffer α := ⟨0, 0, 0, fun _ _ => default, [], []⟩

/-- `compute_size`. -/
def computeSize (numFields cap : ℕ) : ℕ := numFields * cap * 8

variable (numFields : ℕ)

/-- `init`.  The number of tuples is zero when it is compared. -/
def init (cap : ℕ) (a : ArrayBuffer α) : ArrayBuffer α :=
  let size := computeSize numFields cap
  let a := { a with numTuples := 0, cap := cap % 2 ^ 16, data := a.obtained.length + 1 }
  if a.numTuples < 16 then { a with obtained := ⟨a.data, size, .node⟩ :: a.obtained }
  else { a with obtained := ⟨a.data, size, .general⟩ :: a.obtained }

/-- `add_next`, with the fields of the tuple filled in. -/
def addNext (tpl : α) (a : ArrayBuffer α) : ArrayBuffer α :=
  { a with
    numTuples := (a.numTuples + 1) % 2 ^ 16
    mem := Function.update a.mem a.data (Function.update (a.mem a.data) a.numTuples tpl) }

/-- `delete_buffer`. -/
def deleteBuffer (d cap : ℕ) (a : ArrayBuffer α) : ArrayBuffer α :=
  let size := computeSize numFields cap
  if cap < 16 then { a with returned := ⟨d, size, .node⟩ :: a.returned }
  else { a with returned := ⟨d, size, .general⟩ :: a.returned }

/-- `memcpy` of the first `n` tuples of the buffer `old`. -/
def copyFrom (old n : ℕ) (a : ArrayBuffer α) : ArrayBuffer α :=
  { a with
    mem := Function.update a.mem a.data
      fun i => if i < n then a.mem old i else a.mem a.data i }

/-- `expand`. -/
def expand (tpl : α) (a : ArrayBuffer α) : ArrayBuffer α :=
  if a.numTuples = a.cap then
    if a.numTuples = 0 then (a.init numFields 1).addNext tpl
    else
      let oldCap := a.cap
      let old := a.data
      let b := (a.init numFields (a.cap * 2)).copyFrom old oldCap
      (b.deleteBuffer numFields old oldCap).addNext tpl
  else a.addNext tpl

/-- `wipeout`, as far as the buffer goes. -/
def wipeout (a : ArrayBuffer α) : ArrayBuffer α :=
  if a.data = 0 then a else a.deleteBuffer numFields a.data a.cap

/-- What is done to the array: `add_new_axioms` reads a block, `execute_alloc` makes one tuple. -/
inductive ArrayOp (α : Type*) where
  | axioms (tpls : List α)
  | derive (tpl : α)

/-- One operation.  A block is an `init` with its length, and an `add_next` for each tuple. -/
def exec (a : ArrayBuffer α) : ArrayOp α → ArrayBuffer α
  | .axioms tpls => tpls.foldl (fun a tpl => a.addNext tpl) (a.init numFields tpls.length)
  | .derive tpl => a.expand numFields tpl

/-- The array after a sequence of operations on an empty one. -/
def run (ops : List (ArrayOp α)) : ArrayBuffer α := ops.foldl (exec numFields) empty

/-! ## What is asked of the array -/

/-- The tuples of an operation. -/
def added : ArrayOp α → List α
  | .axioms tpls => tpls
  | .derive tpl => [tpl]

/-- The tuples that were added are there, in order, and `size` is their number if it fits. -/
def Kept (ops : List (ArrayOp α)) : Prop :=
  (List.range (ops.flatMap added).length).map
      ((run numFields ops).mem (run numFields ops).data) = ops.flatMap added ∧
    ((ops.flatMap added).length < 2 ^ 16 →
      (run numFields ops).numTuples = (ops.flatMap added).length)

/-- Every buffer is released once, up to `wipeout`, with the size and the allocator it was obtained
with. -/
def Balanced (ops : List (ArrayOp α)) : Prop :=
  ((run numFields ops).wipeout numFields).returned.Perm (run numFields ops).obtained

/-! ## One operation -/

variable {a : ArrayBuffer α} {tpl : α}

omit [Inhabited α] in
/-- What a sequence of `add_next` leaves as it is, and the number of tuples it leaves. -/
theorem foldl_addNext (tpls : List α) (h : a.numTuples < 2 ^ 16) :
    let b := tpls.foldl (fun a tpl => a.addNext tpl) a
    b.numTuples = (a.numTuples + tpls.length) % 2 ^ 16 ∧ b.cap = a.cap ∧ b.data = a.data ∧
      b.obtained = a.obtained ∧ b.returned = a.returned := by
  induction tpls generalizing a with
  | nil => exact ⟨(Nat.mod_eq_of_lt h).symm, rfl, rfl, rfl, rfl⟩
  | cons tpl tpls ih =>
    obtain ⟨hnum, hrest⟩ := ih (a := a.addNext tpl) (Nat.mod_lt _ (by decide))
    refine ⟨?_, hrest⟩
    rw [List.foldl_cons, hnum, addNext, List.length_cons, Nat.mod_add_mod, Nat.add_right_comm,
      Nat.add_assoc]

/-- The tuples in the slots that are counted. -/
def slots (a : ArrayBuffer α) : List α := (List.range a.numTuples).map (a.mem a.data)

omit [Inhabited α] in
theorem addNext_mem (a : ArrayBuffer α) (tpl : α) :
    (a.addNext tpl).mem (a.addNext tpl).data = Function.update (a.mem a.data) a.numTuples tpl :=
  Function.update_self ..

omit [Inhabited α] in
theorem slots_addNext (tpl : α) (h : a.numTuples + 1 < 2 ^ 16) :
    (a.addNext tpl).slots = a.slots ++ [tpl] := by
  have hnum : (a.addNext tpl).numTuples = a.numTuples + 1 := Nat.mod_eq_of_lt h
  rw [slots, hnum, List.range_succ, List.map_append, List.map_singleton]
  congr 1
  · refine List.map_congr_left fun i hi => ?_
    have hne : i ≠ a.numTuples := Nat.ne_of_lt (List.mem_range.1 hi)
    have hbuffer := congrFun (addNext_mem a tpl) i
    exact hbuffer.trans (Function.update_of_ne hne _ _)
  · have hbuffer := congrFun (addNext_mem a tpl) a.numTuples
    exact congrArg (fun tpl => [tpl]) (hbuffer.trans (Function.update_self ..))

omit [Inhabited α] in
/-- **Each `add_next` appends one tuple**, as long as the number fits. -/
theorem slots_foldl_addNext (tpls : List α) (h : a.numTuples + tpls.length < 2 ^ 16) :
    (tpls.foldl (fun a tpl => a.addNext tpl) a).slots = a.slots ++ tpls := by
  induction tpls generalizing a with
  | nil => exact (List.append_nil _).symm
  | cons tpl tpls ih =>
    rw [List.length_cons] at h
    have hnum : (a.addNext tpl).numTuples = a.numTuples + 1 := Nat.mod_eq_of_lt (by omega)
    rw [List.foldl_cons, ih (by omega), slots_addNext tpl (by omega), List.append_assoc]
    rfl

omit [Inhabited α] in
/-- **An operation on an array without tuples and capacity** leaves its own tuples, and no room. -/
theorem exec_of_zero (numFields : ℕ) (op : ArrayOp α) (hnum : a.numTuples = 0) (hcap : a.cap = 0)
    (hop : (added op).length < 2 ^ 16) :
    let b := exec numFields a op
    b.slots = added op ∧ b.numTuples = (added op).length ∧ b.cap = (added op).length ∧
      b.data = a.obtained.length + 1 ∧
      b.obtained = ⟨a.obtained.length + 1, computeSize numFields (added op).length, .node⟩ ::
        a.obtained ∧ b.returned = a.returned := by
  cases op with
  | axioms tpls =>
    have hlen : tpls.length < 2 ^ 16 := hop
    obtain ⟨hnum', hcap', hdata, hobtained, hreturned⟩ :=
      foldl_addNext (a := a.init numFields tpls.length) tpls (Nat.two_pow_pos 16)
    have hslots := slots_foldl_addNext (a := a.init numFields tpls.length) tpls
      ((Nat.zero_add _).symm ▸ hlen)
    refine ⟨hslots, hnum'.trans ?_, hcap'.trans (Nat.mod_eq_of_lt hlen), hdata, hobtained,
      hreturned⟩
    show (0 + tpls.length) % 2 ^ 16 = tpls.length
    rw [Nat.zero_add, Nat.mod_eq_of_lt hlen]
  | derive tpl =>
    have hrun : exec numFields a (.derive tpl) = (a.init numFields 1).addNext tpl := by
      show a.expand numFields tpl = _
      rw [expand, if_pos (hnum.trans hcap.symm), if_pos hnum]
    have hslots := slots_addNext (a := a.init numFields 1) tpl (by
      show 0 + 1 < 2 ^ 16
      decide)
    rw [hrun]
    exact ⟨hslots, rfl, rfl, rfl, rfl, rfl⟩

omit [Inhabited α] in
/-- **An operation on a full array with tuples** leaves another number of tuples than it should. -/
theorem exec_of_full (numFields : ℕ) (op : ArrayOp α) (hfull : a.cap = a.numTuples)
    (hpos : 0 < a.numTuples) (hlen : a.numTuples + (added op).length < 2 ^ 16) :
    (exec numFields a op).numTuples ≠ a.numTuples + (added op).length := by
  cases op with
  | axioms tpls =>
    have hlt : tpls.length < 2 ^ 16 := Nat.lt_of_le_of_lt (Nat.le_add_left _ _) hlen
    have hnum := (foldl_addNext (a := a.init numFields tpls.length) tpls (Nat.two_pow_pos 16)).1
    show (tpls.foldl _ (a.init numFields tpls.length)).numTuples ≠ _ + tpls.length
    rw [hnum]
    show (0 + tpls.length) % 2 ^ 16 ≠ _
    rw [Nat.zero_add, Nat.mod_eq_of_lt hlt]
    omega
  | derive tpl =>
    have hnum : (exec numFields a (.derive tpl)).numTuples = 1 := by
      show (a.expand numFields tpl).numTuples = 1
      rw [expand, if_pos hfull.symm, if_neg (Nat.ne_of_gt hpos)]
      unfold deleteBuffer
      dsimp only
      split <;> rfl
    rw [hnum]
    show 1 ≠ a.numTuples + 1
    omega

/-! ## Sequences -/

variable {numFields} {ops : List (ArrayOp α)} {op : ArrayOp α}

theorem run_concat (ops : List (ArrayOp α)) (op : ArrayOp α) :
    run numFields (ops ++ [op]) = exec numFields (run numFields ops) op := by
  rw [run, List.foldl_append]
  rfl

/-- Operations that add nothing are empty blocks. -/
theorem run_of_added_nil (numFields : ℕ) (h : ∀ op ∈ ops, added op = []) :
    (run numFields ops).numTuples = 0 ∧ (run numFields ops).cap = 0 := by
  induction ops using List.reverseRecOn with
  | nil => exact ⟨rfl, rfl⟩
  | append_singleton ops op ih =>
    have hop := h op (List.mem_append_right _ (List.mem_singleton_self op))
    obtain ⟨hnum, hcap⟩ := ih fun op hop => h op (List.mem_append_left _ hop)
    obtain ⟨-, hnum', hcap', -⟩ :=
      exec_of_zero numFields op hnum hcap (hop ▸ Nat.two_pow_pos 16)
    rw [run_concat]
    rw [hop] at hnum' hcap'
    exact ⟨hnum', hcap'⟩

omit [Inhabited α] in
theorem flatMap_added_nil (h : ∀ op ∈ ops, added op = []) : ops.flatMap added = [] :=
  List.flatMap_eq_nil_iff.2 h

omit [Inhabited α] in
theorem flatMap_added_concat (h : ∀ op ∈ ops, added op = []) (op : ArrayOp α) :
    (ops ++ [op]).flatMap added = added op := by
  rw [List.flatMap_append, flatMap_added_nil h, List.nil_append, List.flatMap_singleton]

/-- If only the last operation adds tuples, they are kept. -/
theorem kept_concat (ops : List (ArrayOp α)) (h : ∀ op ∈ ops, added op = [])
    (hop : (added op).length < 2 ^ 16) :
    Kept numFields (ops ++ [op]) := by
  obtain ⟨hnum, hcap⟩ := run_of_added_nil numFields h
  obtain ⟨hslots, hnum', -⟩ := exec_of_zero numFields op hnum hcap hop
  unfold Kept
  rw [run_concat, flatMap_added_concat h, ← hnum']
  exact ⟨hslots, fun _ => rfl⟩

/-- If an operation behind tuples adds others, or none, the tuples are not kept. -/
theorem not_kept_concat (ops : List (ArrayOp α)) {op' : ArrayOp α}
    (h : ∀ op ∈ ops, added op = []) (hop : added op ≠ [])
    (hlen : (added op).length + (added op').length < 2 ^ 16) :
    ¬ Kept numFields (ops ++ [op] ++ [op']) := by
  obtain ⟨hnum, hcap⟩ := run_of_added_nil numFields h
  obtain ⟨-, hnum', hcap', -⟩ :=
    exec_of_zero numFields op hnum hcap (by omega)
  rw [← run_concat] at hnum' hcap'
  have hpos : 0 < (run numFields (ops ++ [op])).numTuples := by
    rw [hnum']
    exact List.length_pos_iff.2 hop
  have hne := exec_of_full numFields op' (hcap'.trans hnum'.symm) hpos (by omega)
  rintro ⟨-, hsize⟩
  rw [List.flatMap_append, flatMap_added_concat h, List.flatMap_singleton, List.length_append,
    run_concat] at hsize
  exact hne (by rw [hsize hlen, hnum'])

/-- **The tuples of an array are kept**, in a sequence that adds fewer than `2 ^ 16`, exactly if
only its last operation adds any. -/
theorem forall_kept_iff (hlen : (ops.flatMap added).length < 2 ^ 16) :
    (∀ p, p <+: ops → Kept numFields p) ↔ ∀ op ∈ ops.dropLast, added op = [] := by
  constructor
  · intro h
    suffices hgen : ∀ (rest done : List (ArrayOp α)), (∀ op ∈ done, added op = []) →
        done ++ rest <+: ops → ∀ op ∈ rest.dropLast, added op = [] from
      hgen ops [] (fun _ hmem => absurd hmem List.not_mem_nil) (List.prefix_refl _)
    intro rest
    induction rest with
    | nil => exact fun _ _ _ _ hmem => absurd hmem List.not_mem_nil
    | cons op rest ih =>
      intro done hdone hpre
      cases rest with
      | nil => exact fun _ hmem => absurd hmem List.not_mem_nil
      | cons op' rest =>
        have htwo : done ++ [op] ++ [op'] <+: ops := by
          refine List.IsPrefix.trans ⟨rest, ?_⟩ hpre
          rw [List.append_assoc, List.append_assoc]
          rfl
        have hop : added op = [] := by
          by_contra hop
          refine not_kept_concat _ hdone hop ?_ (h _ htwo)
          obtain ⟨later, rfl⟩ := htwo
          simp only [List.flatMap_append, List.flatMap_singleton, List.length_append] at hlen
          omega
        have hrest := ih (done ++ [op]) (by
          intro op₁ hop₁
          rcases List.mem_append.1 hop₁ with hop₁ | hop₁
          · exact hdone op₁ hop₁
          · rw [List.mem_singleton.1 hop₁, hop]) (by rwa [List.append_assoc])
        rw [List.dropLast_cons_cons]
        exact List.forall_mem_cons.2 ⟨hop, hrest⟩
  · rintro h p ⟨later, rfl⟩
    rcases List.eq_nil_or_concat p with rfl | ⟨done, op, rfl⟩
    · exact ⟨rfl, fun _ => rfl⟩
    · rw [List.concat_eq_append] at h hlen ⊢
      refine kept_concat _ (fun op₁ hop₁ => h op₁ ?_) ?_
      · cases later with
        | nil => rwa [List.append_nil, List.dropLast_concat]
        | cons op₂ later =>
          rw [List.dropLast_append_of_ne_nil (List.cons_ne_nil _ _)]
          exact List.mem_append_left _ (List.mem_append_left _ hop₁)
      · simp only [List.flatMap_append, List.flatMap_singleton, List.length_append] at hlen
        omega

/-! ## Buffers -/

/-- The array after one operation. -/
theorem run_singleton (numFields : ℕ) (hop : (added op).length < 2 ^ 16) :
    let b := run numFields [op]
    b.numTuples = (added op).length ∧ b.cap = (added op).length ∧ b.data = 1 ∧
      b.obtained = [⟨1, computeSize numFields (added op).length, .node⟩] ∧ b.returned = [] :=
  (exec_of_zero (a := empty) numFields op rfl rfl hop).2

theorem balanced_singleton (hop : (added op).length < 16) : Balanced numFields [op] := by
  obtain ⟨-, hcap, hdata, hobtained, hreturned⟩ :=
    run_singleton numFields (Nat.lt_trans hop (by decide))
  unfold Balanced wipeout
  rw [if_neg (by rw [hdata]; decide), deleteBuffer, hcap, if_pos hop, hobtained, hdata]
  show List.Perm (_ :: (run numFields [op]).returned) _
  rw [hreturned]

/-- A block of axioms is released as it was obtained only if it has fewer than 16 tuples. -/
theorem lt_of_balanced_axioms {tpls : List α} (hf : numFields ≠ 0)
    (h : Balanced numFields [.axioms tpls]) : tpls.length < 16 := by
  obtain ⟨-, hcap, hdata, hobtained, hreturned⟩ :=
    foldl_addNext (a := init numFields tpls.length empty) tpls (Nat.two_pow_pos 16)
  have hcap' : (run numFields [.axioms tpls]).cap = tpls.length % 2 ^ 16 := hcap
  have hdata' : (run numFields [.axioms tpls]).data = 1 := hdata
  have hobtained' : (run numFields [.axioms tpls]).obtained =
      [⟨1, computeSize numFields tpls.length, .node⟩] := hobtained
  have hreturned' : (run numFields [.axioms tpls]).returned = [] := hreturned
  unfold Balanced wipeout at h
  rw [if_neg (by rw [hdata']; decide), deleteBuffer, hcap', hobtained', hdata'] at h
  split at h
  · next hlt =>
    change List.Perm (_ :: (run numFields [.axioms tpls]).returned) _ at h
    rw [hreturned', List.perm_singleton] at h
    have hsize : computeSize numFields (tpls.length % 2 ^ 16) = computeSize numFields tpls.length :=
      congrArg BufferRequest.size (List.head_eq_of_cons_eq h)
    unfold computeSize at hsize
    have hsame : tpls.length % 2 ^ 16 = tpls.length :=
      Nat.eq_of_mul_eq_mul_left (Nat.pos_of_ne_zero hf)
        (Nat.eq_of_mul_eq_mul_right (by decide) hsize)
    omega
  · change List.Perm (_ :: (run numFields [.axioms tpls]).returned) _ at h
    rw [hreturned', List.perm_singleton] at h
    have halloc := congrArg BufferRequest.alloc (List.head_eq_of_cons_eq h)
    exact ArrayAllocator.noConfusion halloc

/-- A second buffer, while the first was not released. -/
theorem not_balanced_of_length {p : List (ArrayOp α)}
    (hobtained : (run numFields p).obtained.length = 2)
    (hreturned : (run numFields p).returned = []) : ¬ Balanced numFields p := by
  intro h
  have hlen := h.length_eq
  have hone : ((run numFields p).wipeout numFields).returned.length ≤ 1 := by
    unfold wipeout deleteBuffer
    split
    · rw [hreturned]
      exact Nat.zero_le _
    · dsimp only
      split <;> exact Nat.le_of_eq (congrArg (fun l => l.length + 1) hreturned)
  omega

/-- **Two operations** do not keep the tuples, or lose a buffer. -/
theorem not_kept_balanced_two {op' : ArrayOp α} (hop : (added op).length < 16)
    (hkept : Kept numFields [op, op']) : ¬ Balanced numFields [op, op'] := by
  obtain ⟨hnum, hcap, -, hobtained, hreturned⟩ :=
    run_singleton numFields (Nat.lt_trans hop (by decide))
  have hrun : run numFields [op, op'] = exec numFields (run numFields [op]) op' := rfl
  cases op' with
  | axioms tpls =>
    obtain ⟨-, -, -, hobtained', hreturned'⟩ :=
      foldl_addNext (a := (run numFields [op]).init numFields tpls.length) tpls (Nat.two_pow_pos 16)
    refine not_balanced_of_length (congrArg List.length hobtained' |>.trans ?_)
      (hreturned'.trans hreturned)
    exact congrArg (fun l => l.length + 1) hobtained
  | derive tpl =>
    have hempty : added op = [] := by
      by_contra hne
      refine not_kept_concat [] (fun _ hmem => absurd hmem List.not_mem_nil) hne ?_ hkept
      show _ + 1 < 2 ^ 16
      omega
    rw [hempty] at hnum hcap
    obtain ⟨-, -, -, -, hobtained', hreturned'⟩ :=
      exec_of_zero numFields (.derive tpl) hnum hcap (by
        show 1 < 2 ^ 16
        decide)
    refine not_balanced_of_length ?_ (hreturned'.trans hreturned)
    rw [hrun, hobtained', hobtained]
    rfl

/-- **A compact array.**  In every sequence of blocks of axioms and derived tuples that adds fewer
than `2 ^ 16` tuples, the tuples are kept after each operation exactly if only the last one adds
any.  After each operation the tuples are kept and the buffers are released as they were obtained
if there is one operation at most and it adds fewer than 16 tuples; and only then, if the predicate
has a field. -/
theorem compact_array_iff (numFields : ℕ) (ops : List (ArrayOp α)) :
    ((ops.flatMap added).length < 2 ^ 16 →
      ((∀ p, p <+: ops → Kept numFields p) ↔ ∀ op ∈ ops.dropLast, added op = [])) ∧
    ((ops.length ≤ 1 ∧ ∀ op ∈ ops, (added op).length < 16) →
      ∀ p, p <+: ops → Kept numFields p ∧ Balanced numFields p) ∧
    (numFields ≠ 0 → (∀ p, p <+: ops → Kept numFields p ∧ Balanced numFields p) →
      ops.length ≤ 1 ∧ ∀ op ∈ ops, (added op).length < 16) := by
  refine ⟨forall_kept_iff, ?_, ?_⟩
  · rintro ⟨hlen, hsmall⟩ p ⟨later, rfl⟩
    rw [List.length_append] at hlen
    match p with
    | [] => exact ⟨⟨rfl, fun _ => rfl⟩, List.Perm.refl _⟩
    | [op] =>
      have hop := hsmall op (List.mem_append_left _ (List.mem_singleton_self op))
      exact ⟨kept_concat [] (fun _ hmem => absurd hmem List.not_mem_nil) (by omega),
        balanced_singleton hop⟩
    | _ :: _ :: _ =>
      simp only [List.length_cons] at hlen
      omega
  · intro hf h
    match ops with
    | [] => exact ⟨Nat.zero_le _, fun _ hmem => absurd hmem List.not_mem_nil⟩
    | op :: rest =>
      have hop : (added op).length < 16 := by
        cases op with
        | axioms tpls => exact lt_of_balanced_axioms hf (h [.axioms tpls] ⟨rest, rfl⟩).2
        | derive tpl => exact (by decide : 1 < 16)
      cases rest with
      | nil => exact ⟨Nat.le_refl _, List.forall_mem_singleton.2 hop⟩
      | cons op' rest =>
        obtain ⟨hkept, hbalanced⟩ := h [op, op'] ⟨rest, rfl⟩
        exact absurd hbalanced (not_kept_balanced_two hop hkept)

/-- A block of three tuples. -/
theorem compact_array_three : Kept 2 [.axioms [5, 6, 7]] ∧ Balanced 2 [.axioms [5, 6, 7]] :=
  (compact_array_iff 2 [.axioms [5, 6, 7]]).2.1
    ⟨Nat.le_refl _, List.forall_mem_singleton.2 (by decide)⟩ _ (List.prefix_refl _)

/-- **A second block** takes the place of the first, and so does a tuple derived behind a block; and
16 tuples are released by an allocator they are not from. -/
theorem compact_array_fails :
    ((run 1 [.axioms [5, 6], .axioms [7]]).slots = [7] ∧ ¬ Kept 1 [.axioms [5, 6], .axioms [7]]) ∧
    ((run 1 [.axioms [5, 6], .derive 7]).slots = [7] ∧ ¬ Kept 1 [.axioms [5, 6], .derive 7]) ∧
    ¬ Balanced 1 [.axioms (List.replicate 16 5)] := by
  unfold Kept Balanced
  decide

end ArrayBuffer

end Meld
