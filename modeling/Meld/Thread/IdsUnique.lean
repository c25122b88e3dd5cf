import Meld.Lib.Handout
import Meld.Thread.IdsLists

/-!
# The nodes in use have identifiers of their own

The identifiers of a node and its translated identifiers are two systems of numbers handed out in
blocks.  A thread owns what is left of its block; both blocks of a thread have the same length,
which is why the code keeps an end for the first only.

* `Counters`: both systems are sound, and a thread that is about to make a new node has a number
  left.
* `step_inv`: every step keeps this and the lists.
* `distinct_of_reach`: **in every run the nodes in use have identifiers of their own.**
-/

namespace Meld

open NodeMem

variable {τ : Type*}

namespace IdsState

/-- The first number above a maximum, where `-1` stands for no value. -/
def limit (max : BitVec 64) : ℕ := (max + 1).toNat

/-- The identifiers reserved for thread `t`. -/
def idBlock (s : IdsState τ) (t : τ) : Set ℕ :=
  {k | ∃ i, s.ids t = some i ∧ i.nextAvailableId.toNat ≤ k ∧ k < i.endAvailableId.toNat}

/-- The translated identifiers reserved for thread `t`. -/
def translationBlock (s : IdsState τ) (t : τ) : Set ℕ :=
  {k | ∃ i, s.ids t = some i ∧ i.nextTranslatedId.toNat ≤ k ∧
    k < i.nextTranslatedId.toNat + (i.endAvailableId.toNat - i.nextAvailableId.toNat)}

/-- The identifiers of the nodes in memory. -/
def heldId (s : IdsState τ) (a : ℕ) : Option ℕ := (s.mem a).map fun c => c.id.toNat

/-- The translated identifiers of the nodes in memory. -/
def heldTranslation (s : IdsState τ) (a : ℕ) : Option ℕ :=
  (s.mem a).map fun c => c.translation.toNat

/-- The identifiers of the initial nodes. -/
def initialIds (db : NodeDatabase) : Set ℕ := {k | ∃ f u, db.nodes f = some u ∧ f.toNat = k}

/-- The translated identifiers of the initial nodes. -/
def initialTranslations (db : NodeDatabase) : Set ℕ :=
  {k | ∃ f u, db.nodes f = some u ∧ u.toNat = k}

/-- **The identifiers in use and the blocks are apart.** -/
structure Counters (s : IdsState τ) : Prop where
  ids : Handout (limit s.db.maxNodeId) s.idBlock s.heldId (initialIds s.db)
  translations : Handout (limit s.db.maxTranslatedId) s.translationBlock s.heldTranslation
    (initialTranslations s.db)
  order : ∀ t i, s.ids t = some i →
    i.nextAvailableId.toNat ≤ i.endAvailableId.toNat ∧ 0 < i.nextAllocation.toNat
  fresh : ∀ t i, s.ids t = some i → s.pc t = .fresh → i.nextAvailableId ≠ i.endAvailableId

/-- Two objects with the same block. -/
def SameBlock (i i' : Ids) : Prop :=
  i'.nextAvailableId = i.nextAvailableId ∧ i'.endAvailableId = i.endAvailableId ∧
    i'.nextTranslatedId = i.nextTranslatedId ∧ i'.nextAllocation = i.nextAllocation

variable {s s' : IdsState τ}

/-- Steps that take no identifier from a block. -/
theorem Counters.mono (h : s.Counters) (hdb : s'.db = s.db)
    (hids : ∀ u i', s'.ids u = some i' → ∃ i, s.ids u = some i ∧ SameBlock i i')
    (hmem : ∀ a c', s'.mem a = some c' →
      ∃ c, s.mem a = some c ∧ c'.id = c.id ∧ c'.translation = c.translation)
    (hpc : ∀ u i', s'.ids u = some i' → s'.pc u = .fresh →
      s.pc u = .fresh ∨ i'.nextAvailableId ≠ i'.endAvailableId) : s'.Counters := by
  refine ⟨?_, ?_, ?_, ?_⟩
  · rw [hdb]
    refine h.ids.mono ?_ ?_
    · rintro t k ⟨i', hi', hk⟩
      obtain ⟨i, hi, hnext, hend, -, -⟩ := hids t i' hi'
      rw [hnext, hend] at hk
      exact ⟨i, hi, hk⟩
    · intro a k hk
      rw [heldId, Option.map_eq_some_iff] at hk
      obtain ⟨c', hc', rfl⟩ := hk
      obtain ⟨c, hc, hid, -⟩ := hmem a c' hc'
      rw [heldId, hc, Option.map_some, hid]
  · rw [hdb]
    refine h.translations.mono ?_ ?_
    · rintro t k ⟨i', hi', hk⟩
      obtain ⟨i, hi, hnext, hend, htr, -⟩ := hids t i' hi'
      rw [hnext, hend, htr] at hk
      exact ⟨i, hi, hk⟩
    · intro a k hk
      rw [heldTranslation, Option.map_eq_some_iff] at hk
      obtain ⟨c', hc', rfl⟩ := hk
      obtain ⟨c, hc, -, htr⟩ := hmem a c' hc'
      rw [heldTranslation, hc, Option.map_some, htr]
  · intro t i' hi'
    obtain ⟨i, hi, hnext, hend, -, hsize⟩ := hids t i' hi'
    rw [hnext, hend, hsize]
    exact h.order t i hi
  · intro t i' hi' hfresh
    rcases hpc t i' hi' hfresh with hold | hne
    · obtain ⟨i, hi, hnext, hend, -, -⟩ := hids t i' hi'
      rw [hnext, hend]
      exact h.fresh t i hi hold
    · exact hne

/-! ## Reserving a block -/

theorem limit_add {max size : BitVec 64} (h : limit max + size.toNat < 2 ^ 64) :
    limit (max + size) = limit max + size.toNat := by
  have heq : max + size + 1 = max + 1 + size := by
    rw [BitVec.add_assoc, BitVec.add_comm size 1, ← BitVec.add_assoc]
  rw [limit, heq, BitVec.toNat_add]
  exact Nat.mod_eq_of_lt h

variable [DecidableEq τ]

/-- Only one thread gets another `ids` object. -/
theorem ids_update {t : τ} {i : Ids} (hids : s'.ids = Function.update s.ids t (some i)) :
    (∀ i', s'.ids t = some i' → i' = i) ∧ ∀ u, u ≠ t → s'.ids u = s.ids u := by
  refine ⟨fun i' hi' => ?_, fun u hu => ?_⟩
  · rw [hids, Function.update_self] at hi'
    exact (Option.some.inj hi').symm
  · rw [hids, Function.update_of_ne hu]

/-- **`allocate_more_ids`** gives the thread a block above everything in use. -/
theorem Counters.reserve (h : s.Counters) {t : τ} {i : Ids} (hroom : Room s.db i.nextAllocation.toNat)
    (hsize : 0 < i.nextAllocation.toNat)
    (hids : s'.ids = Function.update s.ids t (some (i.allocateMoreIds s.db).1))
    (hdb : s'.db = (i.allocateMoreIds s.db).2) (hmem : s'.mem = s.mem)
    (hpc : ∀ u, u ≠ t → s'.pc u = s.pc u) : s'.Counters := by
  obtain ⟨hroom₁, hroom₂⟩ := hroom
  have hstop : ((s.db.maxNodeId + 1) + i.nextAllocation).toNat =
      limit s.db.maxNodeId + i.nextAllocation.toNat := by
    rw [BitVec.toNat_add]
    exact Nat.mod_eq_of_lt hroom₁
  obtain ⟨hself, hother⟩ := ids_update hids
  have hheld : s'.heldId = s.heldId := by
    funext a
    rw [heldId, heldId, hmem]
  have hheld' : s'.heldTranslation = s.heldTranslation := by
    funext a
    rw [heldTranslation, heldTranslation, hmem]
  refine ⟨?_, ?_, ?_, ?_⟩
  · rw [hheld, hdb]
    show Handout (limit (s.db.maxNodeId + i.nextAllocation)) s'.idBlock s.heldId
      (initialIds s.db)
    rw [limit_add hroom₁]
    refine h.ids.reserve t (Nat.le_add_right _ _) ?_ fun u hu => ?_
    · rintro k ⟨i', hi', hle, hlt⟩
      rw [hself i' hi'] at hle hlt
      have hlt' : k < ((s.db.maxNodeId + 1) + i.nextAllocation).toNat := hlt
      rw [hstop] at hlt'
      exact ⟨hle, hlt'⟩
    · ext k
      rw [idBlock, idBlock, hother u hu]
  · rw [hheld', hdb]
    show Handout (limit (s.db.maxTranslatedId + i.nextAllocation)) s'.translationBlock
      s.heldTranslation (initialTranslations s.db)
    rw [limit_add hroom₂]
    refine h.translations.reserve t (Nat.le_add_right _ _) ?_ fun u hu => ?_
    · rintro k ⟨i', hi', hle, hlt⟩
      rw [hself i' hi'] at hle hlt
      have hlt' : k < limit s.db.maxTranslatedId +
          (((s.db.maxNodeId + 1) + i.nextAllocation).toNat - limit s.db.maxNodeId) := hlt
      rw [hstop, Nat.add_sub_cancel_left] at hlt'
      exact ⟨hle, hlt'⟩
    · ext k
      rw [translationBlock, translationBlock, hother u hu]
  · intro u i' hi'
    by_cases hu : u = t
    · subst hu
      rw [hself i' hi']
      refine ⟨?_, hsize⟩
      show limit s.db.maxNodeId ≤ ((s.db.maxNodeId + 1) + i.nextAllocation).toNat
      rw [hstop]
      exact Nat.le_add_right _ _
    · rw [hother u hu] at hi'
      exact h.order u i' hi'
  · intro u i' hi' hfresh
    by_cases hu : u = t
    · subst hu
      rw [hself i' hi']
      intro heq
      have hnat : limit s.db.maxNodeId = ((s.db.maxNodeId + 1) + i.nextAllocation).toNat :=
        congrArg BitVec.toNat heq
      rw [hstop] at hnat
      omega
    · rw [hother u hu] at hi'
      rw [hpc u hu] at hfresh
      exact h.fresh u i' hi' hfresh

/-! ## Handing out an identifier -/

omit [DecidableEq τ] in
/-- `add_allocated_node` keeps the identifiers of all nodes. -/
theorem ids_addAllocatedNode {i : Ids} {mem : NodeMem τ} {t : τ} {n a : ℕ} {β : Type*}
    (f : BitVec 64 → BitVec 64 → β) :
    ((i.addAllocatedNode mem t n).2 a).map (fun c => f c.id c.translation) =
      (mem a).map fun c => f c.id c.translation := by
  have hcore := congrArg (Option.map fun k : BitVec 64 × BitVec 64 × Option τ => f k.1 k.2.1)
    (core_setNext.trans core_setPrev :
      ((i.addAllocatedNode mem t n).2 a).map core = (mem.setCreator n (some t) a).map core)
  rw [Option.map_map, Option.map_map] at hcore
  refine hcore.trans ?_
  rw [setCreator]
  by_cases ha : a = n
  · subst ha
    rw [Function.update_self, Option.map_map]
    rfl
  · rw [Function.update_of_ne ha]
    rfl

omit [DecidableEq τ] in
/-- A node of `add_allocated_node` was there before, with its identifiers. -/
theorem exists_addAllocatedNode {i : Ids} {mem : NodeMem τ} {t : τ} {n a : ℕ} {c' : DynNode τ}
    (hc' : (i.addAllocatedNode mem t n).2 a = some c') :
    ∃ c, mem a = some c ∧ c'.id = c.id ∧ c'.translation = c.translation := by
  have hids : ((i.addAllocatedNode mem t n).2 a).map (fun c => (c.id, c.translation)) = _ :=
    ids_addAllocatedNode Prod.mk
  rw [hc', Option.map_some, eq_comm, Option.map_eq_some_iff] at hids
  obtain ⟨c, hc, heq⟩ := hids
  exact ⟨c, hc, (Prod.mk.inj heq).1.symm, (Prod.mk.inj heq).2.symm⟩

/-- **A new node** takes the next identifiers of the block of its thread. -/
theorem Counters.give (h : s.Counters) {t : τ} {i : Ids} {n : ℕ} (ht : s.ids t = some i)
    (hfresh : s.pc t = .fresh)
    (hids : s'.ids = Function.update s.ids t (some (i.createFresh s.mem t n).1))
    (hdb : s'.db = s.db) (hmem : s'.mem = (i.createFresh s.mem t n).2)
    (hpc : s'.pc = Function.update s.pc t .idle) : s'.Counters := by
  have hne := h.fresh t i ht hfresh
  obtain ⟨hle, hsize⟩ := h.order t i ht
  have hlt : i.nextAvailableId.toNat < i.endAvailableId.toNat := by
    refine lt_of_le_of_ne hle fun heq => hne (BitVec.eq_of_toNat_eq heq)
  have hid : i.nextAvailableId.toNat ∈ s.idBlock t := ⟨i, ht, le_refl _, hlt⟩
  have htr : i.nextTranslatedId.toNat ∈ s.translationBlock t :=
    ⟨i, ht, le_refl _, Nat.lt_add_of_pos_right (Nat.sub_pos_of_lt hlt)⟩
  have hsucc : (i.nextAvailableId + 1).toNat = i.nextAvailableId.toNat + 1 := by
    rw [BitVec.toNat_add]
    refine Nat.mod_eq_of_lt ?_
    have hbound := i.endAvailableId.isLt
    show i.nextAvailableId.toNat + 1 < 2 ^ 64
    omega
  have hsucc' : (i.nextTranslatedId + 1).toNat = i.nextTranslatedId.toNat + 1 := by
    rw [BitVec.toNat_add]
    refine Nat.mod_eq_of_lt ?_
    have hbound := h.translations.block_lt t _ htr
    have hlimit : limit s.db.maxTranslatedId < 2 ^ 64 := (s.db.maxTranslatedId + 1).isLt
    show i.nextTranslatedId.toNat + 1 < 2 ^ 64
    omega
  obtain ⟨hself, hother⟩ := ids_update hids
  -- the numbers that are held are the old ones and the new pair
  have hheld : s'.heldId = Function.update s.heldId n (some i.nextAvailableId.toNat) := by
    funext a
    rw [heldId, hmem]
    refine (ids_addAllocatedNode fun x _ => x.toNat).trans ?_
    by_cases ha : a = n
    · subst ha
      rw [Function.update_self, Function.update_self]
      rfl
    · rw [Function.update_of_ne ha, Function.update_of_ne ha]
      rfl
  have hheld' : s'.heldTranslation =
      Function.update s.heldTranslation n (some i.nextTranslatedId.toNat) := by
    funext a
    rw [heldTranslation, hmem]
    refine (ids_addAllocatedNode fun _ y => y.toNat).trans ?_
    by_cases ha : a = n
    · subst ha
      rw [Function.update_self, Function.update_self]
      rfl
    · rw [Function.update_of_ne ha, Function.update_of_ne ha]
      rfl
  refine ⟨?_, ?_, ?_, ?_⟩
  · rw [hheld, hdb]
    refine h.ids.give hid n ?_ fun u hu => ?_
    · rintro k ⟨i', hi', hk, hk'⟩
      rw [hself i' hi'] at hk hk'
      have hge : i.nextAvailableId.toNat + 1 ≤ k := hsucc ▸ hk
      exact ⟨⟨i, ht, by omega, hk'⟩, by omega⟩
    · ext k
      rw [idBlock, idBlock, hother u hu]
  · rw [hheld', hdb]
    refine h.translations.give htr n ?_ fun u hu => ?_
    · rintro k ⟨i', hi', hk, hk'⟩
      rw [hself i' hi'] at hk hk'
      have hge : i.nextTranslatedId.toNat + 1 ≤ k := hsucc' ▸ hk
      have hlt' : k < (i.nextTranslatedId + 1).toNat +
          (i.endAvailableId.toNat - (i.nextAvailableId + 1).toNat) := hk'
      rw [hsucc, hsucc'] at hlt'
      exact ⟨⟨i, ht, by omega, by omega⟩, by omega⟩
    · ext k
      rw [translationBlock, translationBlock, hother u hu]
  · intro u i' hi'
    by_cases hu : u = t
    · subst hu
      rw [hself i' hi']
      refine ⟨?_, hsize⟩
      show (i.nextAvailableId + 1).toNat ≤ i.endAvailableId.toNat
      rw [hsucc]
      omega
    · rw [hother u hu] at hi'
      exact h.order u i' hi'
  · intro u i' hi' hf
    rw [hpc] at hf
    by_cases hu : u = t
    · subst hu
      rw [Function.update_self] at hf
      exact absurd hf (by simp)
    · rw [hother u hu] at hi'
      rw [Function.update_of_ne hu] at hf
      exact h.fresh u i' hi' hf

/-! ## Reading the database -/

/-- Reading an identifier raises the limit above it. -/
theorem limit_raiseMax {m id : BitVec 64} (hid : id ≠ -1) :
    limit (raiseMax m id) = max (limit m) (id.toNat + 1) := by
  have hsucc : ∀ x : BitVec 64, x ≠ -1 → limit x = x.toNat + 1 := by
    intro x hx
    have hlt : x.toNat ≠ 2 ^ 64 - 1 := fun heq => hx (BitVec.eq_of_toNat_eq heq)
    have hbound := x.isLt
    rw [limit, BitVec.toNat_add]
    refine Nat.mod_eq_of_lt ?_
    show x.toNat + 1 < 2 ^ 64
    omega
  rw [raiseMax]
  by_cases hm : m = -1
  · subst hm
    have hzero : limit (-1) = 0 := by decide
    rw [if_pos (Or.inr rfl), hsucc id hid, hzero, Nat.max_eq_right (Nat.zero_le _)]
  · rw [hsucc m hm]
    by_cases hgt : id > m
    · have hnat : m.toNat < id.toNat := hgt
      rw [if_pos (Or.inl hgt), hsucc id hid, Nat.max_eq_right (by omega)]
    · have hnat : ¬ m.toNat < id.toNat := hgt
      rw [if_neg fun h => h.elim hgt hm, hsucc m hm, Nat.max_eq_left (by omega)]

/-- All identifiers that were read lie below the limits. -/
def Below (db : NodeDatabase) : Prop :=
  ∀ f u, db.nodes f = some u → f.toNat < limit db.maxNodeId ∧ u.toNat < limit db.maxTranslatedId

/-- One round of the constructor. -/
theorem below_readNode {db : NodeDatabase} (h : Below db) {f u : BitVec 64} (hf : f ≠ -1)
    (hu : u ≠ -1) : Below (db.readNode f u) := by
  intro f' u' hnode
  change Function.update db.nodes f (some u) f' = some u' at hnode
  show f'.toNat < limit (raiseMax db.maxNodeId f) ∧ u'.toNat < limit (raiseMax db.maxTranslatedId u)
  rw [limit_raiseMax hf, limit_raiseMax hu]
  by_cases hff : f' = f
  · subst hff
    rw [Function.update_self] at hnode
    obtain rfl := Option.some.inj hnode
    exact ⟨lt_of_lt_of_le (Nat.lt_succ_self _) (Nat.le_max_right _ _),
      lt_of_lt_of_le (Nat.lt_succ_self _) (Nat.le_max_right _ _)⟩
  · rw [Function.update_of_ne hff] at hnode
    obtain ⟨hlt, hlt'⟩ := h f' u' hnode
    exact ⟨lt_of_lt_of_le hlt (Nat.le_max_left _ _), lt_of_lt_of_le hlt' (Nat.le_max_left _ _)⟩

/-- The constructor of `database`. -/
theorem below_read {pairs : List (BitVec 64 × BitVec 64)} (h : ReadNoWrap pairs) :
    Below (NodeDatabase.read pairs) := by
  -- by induction on the pairs still to read, for any database read so far
  have hfold : ∀ (l : List (BitVec 64 × BitVec 64)) (db : NodeDatabase), ReadNoWrap l → Below db →
      Below (l.foldl (fun db p => db.readNode p.1 p.2) db) := by
    intro l
    induction l with
    | nil => exact fun db _ hdb => hdb
    | cons p l ih =>
      intro db hl hdb
      obtain ⟨hf, hu⟩ := hl p List.mem_cons_self
      exact ih _ (fun q hq => hl q (List.mem_cons_of_mem p hq)) (below_readNode hdb hf hu)
  exact hfold pairs _ h fun f u hnode => absurd hnode (by simp)

/-! ## The steps -/

/-- The lists and the identifiers are in order. -/
structure Inv (s : IdsState τ) : Prop where
  lists : ∃ al fl, s.Lists al fl
  counters : s.Counters

omit [DecidableEq τ] in
theorem inv_init {pairs : List (BitVec 64 × BitVec 64)} (h : ReadNoWrap pairs) :
    Inv (init pairs : IdsState τ) := by
  have hbelow := below_read h
  refine ⟨⟨fun _ => [], fun _ => [], rfl, ?_, fun _ _ => ⟨rfl, rfl⟩, ?_, ?_, List.nodup_nil, ?_⟩,
    ?_, ?_, ?_, ?_⟩
  · intro t i hi
    exact absurd hi (by simp [init])
  · intro t u a ha
    exact absurd ha (by simp)
  · intro a ha
    exact absurd ha (by simp [init])
  · intro t p hp
    exact absurd hp (by simp [init])
  · refine Handout.start ?_ (fun t => ?_) fun a => rfl
    · rintro k ⟨f, u, hnode, rfl⟩
      exact (hbelow f u hnode).1
    · rw [Set.eq_empty_iff_forall_notMem]
      rintro k ⟨i, hi, -⟩
      exact absurd hi (by simp [init])
  · refine Handout.start ?_ (fun t => ?_) fun a => rfl
    · rintro k ⟨f, u, hnode, rfl⟩
      exact (hbelow f u hnode).2
    · rw [Set.eq_empty_iff_forall_notMem]
      rintro k ⟨i, hi, -⟩
      exact absurd hi (by simp [init])
  · intro t i hi
    exact absurd hi (by simp [init])
  · intro t i hi
    exact absurd hi (by simp [init])

variable {t : τ} {i : Ids}

/-- The identifiers after a step of thread `t` that takes none from its block. -/
theorem Counters.put (h : s.Counters) (ht : s.ids t = some i) {i' : Ids} {pc : IdsPc τ}
    (hids : s'.ids = Function.update s.ids t (some i')) (hblock : SameBlock i i')
    (hdb : s'.db = s.db)
    (hmem : ∀ a c', s'.mem a = some c' →
      ∃ c, s.mem a = some c ∧ c'.id = c.id ∧ c'.translation = c.translation)
    (hpc : s'.pc = Function.update s.pc t pc)
    (hfresh : pc = .fresh → i.nextAvailableId ≠ i.endAvailableId) : s'.Counters := by
  refine h.mono hdb ?_ hmem ?_
  · intro u j hj
    rw [hids] at hj
    by_cases hu : u = t
    · subst hu
      rw [Function.update_self, Option.some_inj] at hj
      exact ⟨i, ht, hj ▸ hblock⟩
    · rw [Function.update_of_ne hu] at hj
      exact ⟨j, hj, rfl, rfl, rfl, rfl⟩
  · intro u j hj hf
    rw [hpc] at hf
    by_cases hu : u = t
    · subst hu
      rw [hids, Function.update_self, Option.some_inj] at hj
      rw [Function.update_self] at hf
      rw [← hj, hblock.1, hblock.2.1]
      exact Or.inr (hfresh hf)
    · rw [Function.update_of_ne hu] at hf
      exact Or.inl hf

/-- A step of thread `t` that only changes where the thread is. -/
theorem Inv.put_pc (h : s.Inv) (ht : s.ids t = some i) {pc : IdsPc τ}
    (hfreeing : ∀ al fl, s.Lists al fl → ∀ p, pc = .freeing p → p = 0 ∨ p ∈ al t)
    (hfresh : pc = .fresh → i.nextAvailableId ≠ i.endAvailableId) :
    (s.put t i s.mem pc).Inv := by
  obtain ⟨⟨al, fl, hl⟩, hc⟩ := h
  exact ⟨⟨al, fl, hl.update_pc ht rfl rfl rfl rfl rfl rfl (hfreeing al fl hl)⟩,
    hc.put ht rfl ⟨rfl, rfl, rfl, rfl⟩ rfl (fun a c' hc' => ⟨c', hc', rfl, rfl⟩) rfl hfresh⟩

/-- The constructor of `ids`. -/
theorem Inv.start (h : s.Inv) (ht : s.ids t = none) (hroom : Room s.db (16 * 1024)) :
    Inv { s.put t (Ids.create s.db).1 s.mem .idle with db := (Ids.create s.db).2 } := by
  obtain ⟨⟨al, fl, hl⟩, hc⟩ := h
  obtain ⟨hal, hfl⟩ := hl.off t ht
  have howned : Owned s.mem t (Ids.create s.db).1 [] [] :=
    ⟨trivial, rfl, rfl, List.nodup_nil, by simp⟩
  refine ⟨⟨_, _, hl.update rfl rfl hl.null howned ?_ (fun _ _ _ _ => rfl) ?_ hl.nodup ?_⟩, ?_⟩
  · simp
  · intro a ha
    refine Or.inl ⟨ha, ?_⟩
    rw [hal]
    simp
  · simp
  · refine Counters.reserve (i := ⟨0, 0, 0, 0, 0, 0, 0, 0, 16 * 1024⟩) hc hroom (by decide) rfl rfl
      rfl fun u hu => Function.update_of_ne hu _ _

omit [DecidableEq τ] in
/-- Removing a node keeps the block of the thread. -/
theorem sameBlock_remove {mem : NodeMem τ} {n : ℕ} {c : DynNode τ} :
    SameBlock i (i.removeNodeFromAllocated mem n c).1 := by
  rw [Ids.removeNodeFromAllocated]
  split <;> exact ⟨rfl, rfl, rfl, rfl⟩

omit [DecidableEq τ] in
/-- Removing a node changes no identifier. -/
theorem ids_remove {mem : NodeMem τ} {n a : ℕ} {c c' : DynNode τ}
    (hc' : (i.removeNodeFromAllocated mem n c).2.1 a = some c') :
    ∃ c, mem a = some c ∧ c'.id = c.id ∧ c'.translation = c.translation := by
  have hcore : ∃ c, mem a = some c ∧ core c' = core c := by
    by_cases ha : a = n
    · subst ha
      exact Ids.core_remove_self hc'
    · exact exists_of_core (Ids.core_remove ha) hc'
  obtain ⟨c₀, hc₀, heq⟩ := hcore
  exact ⟨c₀, hc₀, congrArg (fun k => k.1) heq, congrArg (fun k => k.2.1) heq⟩

/-- A round of `free_destroyed_nodes`. -/
theorem Inv.freeRound (h : s.Inv) (ht : s.ids t = some i) {p : ℕ} (hpc : s.pc t = .freeing p)
    (hstep : s.freeRound t i p = some s') : s'.Inv := by
  rw [IdsState.freeRound] at hstep
  split at hstep
  · obtain rfl := Option.some.inj hstep
    exact h.put_pc ht (fun _ _ _ _ hp => absurd hp (by simp)) fun hp => absurd hp (by simp)
  case isFalse hp0 =>
  obtain ⟨c, hc, hs'⟩ := Option.bind_eq_some_iff.mp hstep
  split at hs'
  · next hnone =>
    obtain rfl := Option.some.inj (Option.ite_none_right_eq_some.mp hs').2
    obtain ⟨⟨al, fl, hl⟩, hcount⟩ := h
    have hmem := (hl.freeing t p hpc).resolve_left hp0
    refine ⟨⟨_, _, hl.remove ht hmem hc rfl rfl rfl rfl ?_ hl.nodup ?_⟩,
      hcount.put ht rfl sameBlock_remove rfl (fun a c' => ids_remove) rfl fun hp =>
        absurd hp (by simp)⟩
    · -- the node was deleted by another thread, so it is not in use
      intro a ha
      refine ⟨ha, ?_⟩
      rintro rfl
      obtain ⟨u, c', -, hc', hcr⟩ := hl.live a ha
      rw [hc, Option.some_inj] at hc'
      rw [hc', hcr] at hnone
      exact absurd hnone (by simp)
    · intro q hq
      exact (IdsPc.freeing.inj hq).symm
  · obtain rfl := Option.some.inj hs'
    refine h.put_pc ht ?_ fun hp => absurd hp (by simp)
    intro al fl hl q hq
    obtain rfl := IdsPc.freeing.inj hq
    have hmem := (hl.freeing t p hpc).resolve_left hp0
    exact ((hl.owned t i ht).unlink hl.null hmem hc
      (rfl : ({ i with allocatedNodes := if p = i.allocatedNodes then c.dynNext
        else i.allocatedNodes } : Ids).allocatedNodes = _) rfl).2.1.imp_right
      List.mem_of_mem_erase

/-- `create_node` with a freed node. -/
theorem Inv.recycle (h : s.Inv) (ht : s.ids t = some i) (hne : i.freedNodes ≠ 0) {c : DynNode τ}
    (hc : s.mem i.freedNodes = some c) :
    Inv { s.put t (i.recycle s.mem t i.freedNodes c).1 (i.recycle s.mem t i.freedNodes c).2 .idle
      with live := i.freedNodes :: s.live } := by
  obtain ⟨⟨al, fl, hl⟩, hcount⟩ := h
  have howned := hl.owned t i ht
  obtain ⟨fl', hfl, hpop⟩ := howned.pop hne hc (some ⟨c.id, c.translation, 0, 0, none⟩)
    (rfl : ({ i with freedNodes := c.dynNext, totalFreed := i.totalFreed - 1 } : Ids).allocatedNodes
      = _) rfl
  have hin : i.freedNodes ∈ fl t := by
    rw [hfl]
    exact List.mem_cons_self
  have hnd := howned.nodup
  rw [hfl, List.nodup_middle, List.nodup_cons] at hnd
  refine ⟨⟨_, _, hl.insert hpop ?_ hne hnd.1 ?_ (hl.notMem_live ht hin)
    (fun a ha => Function.update_of_ne ha _ _) (Function.update_self _ _ _) rfl rfl rfl rfl rfl rfl
    rfl⟩, hcount.put ht rfl ⟨rfl, rfl, rfl, rfl⟩ rfl ?_ rfl fun hp => absurd hp (by simp)⟩
  · intro a ha
    rw [hfl]
    exact List.mem_cons_of_mem _ ha
  · intro u hu hmem
    exact hu (hl.apart u t _ hmem (List.mem_append_right _ hin))
  · intro a c' hc'
    have hadd : ((({ i with freedNodes := c.dynNext, totalFreed := i.totalFreed - 1 } :
      Ids)).addAllocatedNode (Function.update s.mem i.freedNodes
        (some ⟨c.id, c.translation, 0, 0, none⟩)) t i.freedNodes).2 a = some c' := hc'
    obtain ⟨c₁, hc₁, hid, htr⟩ := exists_addAllocatedNode hadd
    by_cases ha : a = i.freedNodes
    · subst ha
      rw [Function.update_self, Option.some_inj] at hc₁
      subst hc₁
      exact ⟨c, hc, hid, htr⟩
    · rw [Function.update_of_ne ha] at hc₁
      exact ⟨c₁, hc₁, hid, htr⟩

/-- The second part of `create_node`. -/
theorem Inv.createRound (h : s.Inv) (ht : s.ids t = some i)
    (hroom : i.freedNodes = 0 → i.nextAvailableId = i.endAvailableId →
      Room s.db (i.nextAllocation.toNat * 4))
    (hstep : s.createRound t i = some s') : s'.Inv := by
  rw [IdsState.createRound] at hstep
  split at hstep
  · next hne =>
    obtain ⟨c, hc, hs'⟩ := Option.bind_eq_some_iff.mp hstep
    obtain rfl := Option.some.inj (Option.ite_none_right_eq_some.mp hs').2
    exact h.recycle ht hne hc
  case isFalse hzero =>
  split at hstep
  · next hend =>
    obtain rfl := Option.some.inj hstep
    obtain ⟨⟨al, fl, hl⟩, hcount⟩ := h
    have hsize := (hcount.order t i ht).2
    have hroom' := hroom (by simpa using hzero) hend
    -- the size of the next block does not wrap around either
    have hmul : (i.nextAllocation * 4).toNat = i.nextAllocation.toNat * 4 := by
      rw [BitVec.toNat_mul]
      refine Nat.mod_eq_of_lt ?_
      have hlt := hroom'.1
      show i.nextAllocation.toNat * 4 < 2 ^ 64
      omega
    refine ⟨⟨al, fl, hl.update_pc ht rfl rfl rfl rfl rfl rfl (by simp)⟩, ?_⟩
    refine hcount.reserve ?_ ?_ rfl rfl rfl fun u hu => Function.update_of_ne hu _ _
    · show Room s.db (i.nextAllocation * 4).toNat
      rw [hmul]
      exact hroom'
    · show 0 < (i.nextAllocation * 4).toNat
      rw [hmul]
      omega
  · next hend =>
    obtain rfl := Option.some.inj hstep
    exact h.put_pc ht (fun _ _ _ _ hp => absurd hp (by simp)) fun _ => hend

/-- `create_node` with a new node. -/
theorem Inv.createFresh (h : s.Inv) (ht : s.ids t = some i) (hpc : s.pc t = .fresh) {n : ℕ}
    (hn0 : n ≠ 0) (hn : s.mem n = none) :
    Inv { s.put t (i.createFresh s.mem t n).1 (i.createFresh s.mem t n).2 .idle
      with live := n :: s.live } := by
  obtain ⟨⟨al, fl, hl⟩, hcount⟩ := h
  have hout := hl.notMem_of_none hn
  have hwrite := (hl.owned t i ht).write (hout t)
    (some ⟨i.nextAvailableId, i.nextTranslatedId, 0, 0, none⟩) rfl rfl
  refine ⟨⟨_, _, hl.insert hwrite (fun _ ha => ha) hn0 (hout t) (fun u _ => hout u) ?_
    (fun a ha => Function.update_of_ne ha _ _) (Function.update_self _ _ _) rfl rfl rfl rfl rfl rfl
    rfl⟩, hcount.give ht hpc rfl rfl rfl rfl⟩
  intro hlive
  obtain ⟨u, c, -, hc, -⟩ := hl.live n hlive
  rw [hn] at hc
  exact absurd hc (by simp)

/-- `delete_node`. -/
theorem Inv.deleteNode (h : s.Inv) (ht : s.ids t = some i) {n : ℕ} (hn : n ∈ s.live)
    (hstep : s.deleteNode t i n = some s') : s'.Inv := by
  obtain ⟨⟨al, fl, hl⟩, hcount⟩ := h
  obtain ⟨c, hc, hmap⟩ := Option.bind_eq_some_iff.mp hstep
  obtain ⟨u, hu, hs'⟩ := Option.bind_eq_some_iff.mp hmap
  have hlive : ∀ a ∈ s.live.erase n, a ∈ s.live ∧ a ≠ n := by
    intro a ha
    obtain ⟨hne, hmem⟩ := (hl.nodup.mem_erase_iff).mp ha
    exact ⟨hmem, hne⟩
  have hnodup : (s.live.erase n).Nodup := hl.nodup.erase n
  -- a node in use is an allocated node of its creator
  obtain ⟨v, c', hv, hc', hcr⟩ := hl.live n hn
  rw [hc, Option.some_inj] at hc'
  subst hc'
  rw [hu, Option.some_inj] at hcr
  subst hcr
  split at hs'
  · next heq =>
    subst heq
    obtain rfl := Option.some.inj (Option.ite_none_right_eq_some.mp hs').2
    exact ⟨⟨_, _, hl.remove ht hv hc rfl rfl rfl rfl hlive hnodup (by simp)⟩,
      hcount.put ht rfl sameBlock_remove rfl (fun a c' => ids_remove) rfl fun hp =>
        absurd hp (by simp)⟩
  · obtain rfl := Option.some.inj hs'
    refine ⟨⟨al, fl, hl.clear ?_ rfl rfl hlive hnodup (by simp)⟩,
      hcount.put ht rfl ⟨rfl, rfl, rfl, rfl⟩ rfl ?_ rfl fun hp => absurd hp (by simp)⟩
    · show Function.update s.ids t (some i) = s.ids
      rw [← ht, Function.update_eq_self]
    · intro a c' hc'
      change (Function.update s.mem n ((s.mem n).map fun c => { c with creator := none })) a =
        some c' at hc'
      by_cases ha : a = n
      · subst ha
        rw [Function.update_self, hc] at hc'
        obtain rfl := Option.some.inj hc'
        exact ⟨c, hc, rfl, rfl⟩
      · rw [Function.update_of_ne ha] at hc'
        exact ⟨c', hc', rfl, rfl⟩

/-- `creator->deleted_by_others++`. -/
theorem Inv.count (h : s.Inv) {u : τ} (hu : s.ids u = some i) :
    Inv { s with
      ids := Function.update s.ids u (some { i with deletedByOthers := i.deletedByOthers + 1 })
      pc := Function.update s.pc t .idle } := by
  obtain ⟨⟨al, fl, hl⟩, hcount⟩ := h
  have hids : ∀ v i', Function.update s.ids u
      (some { i with deletedByOthers := i.deletedByOthers + 1 }) v = some i' →
      ∃ j, s.ids v = some j ∧ i' = { j with deletedByOthers := i'.deletedByOthers } := by
    intro v i' hv
    by_cases hvu : v = u
    · subst hvu
      rw [Function.update_self, Option.some_inj] at hv
      exact ⟨i, hu, hv ▸ rfl⟩
    · rw [Function.update_of_ne hvu] at hv
      exact ⟨i', hv, rfl⟩
  have hpc : ∀ v pc, pc ≠ .idle → Function.update s.pc t .idle v = pc → s.pc v = pc := by
    intro v pc hne hv
    by_cases hvt : v = t
    · subst hvt
      rw [Function.update_self] at hv
      exact absurd hv.symm hne
    · rwa [Function.update_of_ne hvt] at hv
  refine ⟨⟨al, fl, hl.congr rfl rfl ?_ ?_ ?_⟩, hcount.mono rfl ?_ ?_ ?_⟩
  · intro v i' hv
    obtain ⟨j, hj, heq⟩ := hids v i' hv
    rw [heq]
    exact ⟨j, hj, rfl, rfl⟩
  · intro v hv
    change Function.update s.ids u _ v = none at hv
    by_cases hvu : v = u
    · subst hvu
      rw [Function.update_self] at hv
      exact absurd hv (by simp)
    · rwa [Function.update_of_ne hvu] at hv
  · intro v p hp
    exact Or.inl (hpc v _ (by simp) hp)
  · intro v i' hv
    obtain ⟨j, hj, heq⟩ := hids v i' hv
    rw [heq]
    exact ⟨j, hj, rfl, rfl, rfl, rfl⟩
  · exact fun a c' hc' => ⟨c', hc', rfl, rfl⟩
  · intro v _ _ hp
    exact Or.inl (hpc v _ (by simp) hp)

/-- **Every step keeps the lists and the identifiers in order.** -/
theorem step_inv (h : s.Inv) {e : IdsEvent τ} (hwrap : s.NoWrap e) (hstep : s.step e = some s') :
    s'.Inv := by
  cases e with
  | start t =>
    rw [step] at hstep
    split at hstep
    · next ht =>
      obtain rfl := Option.some.inj hstep
      exact h.start ht hwrap
    · exact absurd hstep (by simp)
  | create t =>
    rw [step] at hstep
    split at hstep
    · next i ht hpc =>
      obtain rfl := Option.some.inj hstep
      refine h.put_pc ht (fun al fl hl p hp => ?_) fun hp => ?_
      · split at hp
        · obtain rfl := IdsPc.freeing.inj hp
          exact (hl.owned t i ht).allocatedNodes_mem
        · exact absurd hp (by simp)
      · split at hp <;> exact absurd hp (by simp)
    · exact absurd hstep (by simp)
  | next t =>
    rw [step] at hstep
    split at hstep
    · next i p ht hpc => exact h.freeRound ht hpc hstep
    · next i ht hpc => exact h.createRound ht (hwrap i ht) hstep
    · exact absurd hstep (by simp)
  | fresh t n =>
    rw [step] at hstep
    split at hstep
    · next i ht hpc hn =>
      split at hstep
      · exact absurd hstep (by simp)
      · next hn0 =>
        obtain rfl := Option.some.inj (Option.ite_none_right_eq_some.mp hstep).2
        exact h.createFresh ht hpc hn0 hn
    · exact absurd hstep (by simp)
  | delete t n =>
    rw [step] at hstep
    split at hstep
    · next i ht hpc =>
      split at hstep
      · next hn => exact h.deleteNode ht hn hstep
      · exact absurd hstep (by simp)
    · exact absurd hstep (by simp)
  | count t =>
    rw [step] at hstep
    split at hstep
    · next u hpc =>
      obtain ⟨i, hu, rfl⟩ := Option.map_eq_some_iff.mp hstep
      exact h.count hu
    · exact absurd hstep (by simp)

theorem Reach.inv {pairs : List (BitVec 64 × BitVec 64)} (hread : ReadNoWrap pairs)
    (h : Reach pairs s) : s.Inv := by
  induction h with
  | init => exact inv_init hread
  | step e _ hwrap hstep ih => exact step_inv ih hwrap hstep

/-! ## The nodes in use -/

omit [DecidableEq τ] in
/-- Nodes that hold different numbers, read off a list without repetitions. -/
theorem nodup_map_of_held {f : ℕ → Option (BitVec 64)} {l : List ℕ} (hnd : l.Nodup)
    (hsome : ∀ a ∈ l, (f a).isSome)
    (hinj : ∀ a b k, (f a).map BitVec.toNat = some k → (f b).map BitVec.toNat = some k → a = b) :
    (l.map f).Nodup := by
  refine hnd.map_on ?_
  intro a ha b _ heq
  obtain ⟨x, hx⟩ := Option.isSome_iff_exists.mp (hsome a ha)
  refine hinj a b x.toNat ?_ ?_
  · rw [hx, Option.map_some]
  · rw [← heq, hx, Option.map_some]

omit [DecidableEq τ] in
theorem Inv.distinct (h : s.Inv) : s.Distinct := by
  obtain ⟨⟨al, fl, hl⟩, hc⟩ := h
  have hsome : ∀ n ∈ s.live, ∃ c, s.mem n = some c := by
    intro n hn
    obtain ⟨-, c, -, hc, -⟩ := hl.live n hn
    exact ⟨c, hc⟩
  refine ⟨hsome, nodup_map_of_held hl.nodup ?_ ?_, nodup_map_of_held hl.nodup ?_ ?_, ?_⟩
  · intro a ha
    obtain ⟨c, hc⟩ := hsome a ha
    rw [hc]
    rfl
  · intro a b k ha hb
    rw [Option.map_map] at ha hb
    exact hc.ids.held_held a b k ha hb
  · intro a ha
    obtain ⟨c, hc⟩ := hsome a ha
    rw [hc]
    rfl
  · intro a b k ha hb
    rw [Option.map_map] at ha hb
    exact hc.translations.held_held a b k ha hb
  · intro n hn c hcn f u hnode
    constructor
    · intro heq
      refine hc.ids.held_fixed n c.id.toNat ?_ ⟨f, u, hnode, by rw [heq]⟩
      rw [heldId, hcn, Option.map_some]
    · intro heq
      refine hc.translations.held_fixed n c.translation.toNat ?_ ⟨f, u, hnode, by rw [heq]⟩
      rw [heldTranslation, hcn, Option.map_some]

/-- **In every run the nodes in use have identifiers of their own.** -/
theorem distinct_of_reach {pairs : List (BitVec 64 × BitVec 64)} (hread : ReadNoWrap pairs)
    (h : Reach pairs s) : s.Distinct :=
  (h.inv hread).distinct

/-! ## A run with a node that is created again -/

instance (db : NodeDatabase) (size : ℕ) : Decidable (Room db size) :=
  inferInstanceAs (Decidable (_ ∧ _))

instance (s : IdsState τ) : DecidablePred s.NoWrap
  | .start _ => inferInstanceAs (Decidable (Room s.db (16 * 1024)))
  | .next t =>
    match ht : s.ids t with
    | none => isTrue fun i hi => absurd (ht.symm.trans hi) (by simp)
    | some i =>
      decidable_of_iff (i.freedNodes = 0 → i.nextAvailableId = i.endAvailableId →
        Room s.db (i.nextAllocation.toNat * 4))
        ⟨fun h j hj => (Option.some.inj (ht.symm.trans hj)) ▸ h, fun h => h i ht⟩
  | .create _ | .fresh _ _ | .delete _ _ | .count _ => isTrue trivial

/-- The state after some steps, if they can be made and no counter wraps around. -/
def run (s : IdsState τ) : List (IdsEvent τ) → Option (IdsState τ)
  | [] => some s
  | e :: l => if s.NoWrap e then (s.step e).bind fun s' => s'.run l else none

theorem Reach.run {pairs : List (BitVec 64 × BitVec 64)} (h : Reach pairs s)
    {l : List (IdsEvent τ)} (hrun : s.run l = some s') : Reach pairs s' := by
  induction l generalizing s with
  | nil => exact Option.some.inj hrun ▸ h
  | cons e l ih =>
    rw [IdsState.run] at hrun
    split at hrun
    · next hwrap =>
      obtain ⟨s₁, hs₁, hrest⟩ := Option.bind_eq_some_iff.mp hrun
      exact ih (h.step e hwrap hs₁) hrest
    · exact absurd hrun (by simp)

/-- Two threads: a node is created, deleted by the other thread, freed by its creator, and created
again. -/
def recycledRun : List (IdsEvent Bool) :=
  [.start false, .start true, .create false, .next false, .fresh false 1, .delete true 1,
    .count true, .create false, .next false, .next false, .next false, .create true, .next true,
    .fresh true 2]

/-- The node that was created again and the node of the other thread have different identifiers. -/
theorem distinct_recycledRun : ∃ s : IdsState Bool,
    (init [(3, 7)]).run recycledRun = some s ∧ s.live = [2, 1] ∧ s.Distinct := by
  have hlive : ((init [(3, 7)]).run recycledRun).map IdsState.live = some [2, 1] := by
    decide +kernel
  obtain ⟨s, hs, hs'⟩ := Option.map_eq_some_iff.mp hlive
  exact ⟨s, hs, hs', distinct_of_reach (by simp [ReadNoWrap]) (Reach.init.run hs)⟩

end IdsState

end Meld
