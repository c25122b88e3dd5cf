import Meld.Vm.TuplePackBytes

/-!
# A packed tuple comes back

`roundTrip_iff` says when a tuple can be packed into a buffer of the size computed for it and comes
back equal, with the references to its elements counted.  Besides the assertion on empty lists one
slip limits this: `tuple::load` gives `cons::unpack` the type of the list where the type of its
elements is meant, so that every word of the list that is not zero is taken for the address of an
object.

* `Effect`: the cells a piece of code allocates and the references it adds.
* `Chain`: the words of a list in the memory.
* `loadValues_effect`, `exists_loadValues`: what loading a tuple does, and when it can.
-/

namespace Meld

namespace Packing

open Bytes

variable {initial : BitVec 64 → Bool} {m m' m₁ m₂ m₃ : Memory} {a p w : BitVec 64}
  {used used' incs incs' words : List (BitVec 64)}

/-! ## The memory -/

namespace Memory

/-- There is an object at the address. -/
def Live (m : Memory) (a : BitVec 64) : Prop := (m.objects a).isSome

/-- The references to an object. -/
def refs (m : Memory) (a : BitVec 64) : ℕ := ((m.objects a).map RefObject.refs).getD 0

/-- The head and the tail in a cell. -/
def cell (m : Memory) (a : BitVec 64) : Option (BitVec 64 × BitVec 64) :=
  (m.objects a).bind RefObject.cell

theorem live_of_cell {c : BitVec 64 × BitVec 64} (h : m.cell a = some c) : m.Live a := by
  obtain ⟨o, ho, -⟩ := Option.bind_eq_some_iff.1 h
  rw [Live, ho]
  rfl

/-- What the allocator gives out is not in use. -/
structure Fresh (m : Memory) : Prop where
  nodup : m.free.Nodup
  ne_zero : ∀ a ∈ m.free, a ≠ 0
  dead : ∀ a ∈ m.free, ¬ m.Live a

/-- What happened to a memory: the addresses in `used` were allocated, and a reference was added for
each of `incs`. -/
structure Effect (m m' : Memory) (used incs : List (BitVec 64)) : Prop where
  free : m.free = used ++ m'.free
  live : ∀ a, m'.Live a ↔ m.Live a ∨ a ∈ used
  refs : ∀ a, m'.refs a = m.refs a + incs.count a
  counted : ∀ a ∈ incs, m'.Live a

theorem Effect.refl (m : Memory) : Effect m m [] [] where
  free := rfl
  live a := by simp
  refs a := rfl
  counted := nofun

theorem Effect.trans (h : Effect m m₁ used incs) (h' : Effect m₁ m₂ used' incs') :
    Effect m m₂ (used ++ used') (incs ++ incs') where
  free := by rw [h.free, h'.free, List.append_assoc]
  live a := by rw [h'.live, h.live, List.mem_append, or_assoc]
  refs a := by rw [h'.refs, h.refs, List.count_append, Nat.add_assoc]
  counted a ha := by
    rcases List.mem_append.1 ha with ha | ha
    · exact (h'.live a).2 (Or.inl (h.counted a ha))
    · exact h'.counted a ha

theorem Effect.perm (h : Effect m m' used incs) (hperm : incs.Perm incs') :
    Effect m m' used incs' where
  free := h.free
  live := h.live
  refs a := by rw [h.refs, hperm.count_eq]
  counted a ha := h.counted a (hperm.mem_iff.2 ha)

theorem Effect.fresh (h : Effect m m' used incs) (hm : m.Fresh) : m'.Fresh := by
  have hfree := h.free
  have hnodup := hm.nodup
  rw [hfree] at hnodup
  refine ⟨(List.nodup_append.1 hnodup).2.1, fun a ha => hm.ne_zero a ?_, fun a ha hlive => ?_⟩
  · rw [hfree]
    exact List.mem_append_right _ ha
  · rcases (h.live a).1 hlive with hlive | hused
    · exact hm.dead a (by rw [hfree]; exact List.mem_append_right _ ha) hlive
    · exact (List.nodup_append.1 hnodup).2.2 a hused a ha rfl

theorem Effect.live_of_live (h : Effect m m' used incs) (ha : m.Live a) : m'.Live a :=
  (h.live a).2 (Or.inl ha)

/-! ## The operations -/

theorem inc_effect (h : m.inc p = some m') :
    Effect m m' [] [p] ∧ ∀ a, m'.cell a = m.cell a := by
  obtain ⟨o, ho, rfl⟩ := Option.map_eq_some_iff.1 h
  have hp : m.Live p := by
    rw [Live, ho]
    rfl
  refine ⟨⟨rfl, fun a => ?_, fun a => ?_, fun a ha => ?_⟩, fun a => ?_⟩
  · by_cases hap : a = p
    · subst hap
      simp [Live, ho]
    · simp [Live, hap]
  · by_cases hap : a = p
    · subst hap
      simp [refs, ho]
    · simp [refs, hap, Ne.symm hap]
  · obtain rfl := List.mem_singleton.1 ha
    simp [Live]
  · by_cases hap : a = p
    · subst hap
      simp [cell, ho]
    · simp [cell, hap]

theorem exists_inc (h : m.Live p) : ∃ m', m.inc p = some m' := by
  obtain ⟨o, ho⟩ := Option.isSome_iff_exists.1 h
  exact ⟨_, by rw [inc, ho]; rfl⟩

/-- The change of a cell's tail, before the new tail is counted. -/
theorem setTail_effect {tail : BitVec 64} (htail : tail ≠ 0) (h : m.setTail p tail = some m') :
    Effect m m' [] [tail] ∧
      (∃ head old, m.cell p = some (head, old) ∧ m'.cell p = some (head, tail)) ∧
        ∀ a, a ≠ p → m'.cell a = m.cell a := by
  rw [setTail] at h
  split at h
  · rename_i refs head old ho
    rw [incCons, if_neg htail] at h
    obtain ⟨heffect, hcells⟩ := inc_effect h
    refine ⟨?_, ⟨head, old, by rw [cell, ho]; rfl, ?_⟩, fun a ha => ?_⟩
    · refine ⟨heffect.free, fun a => ?_, fun a => ?_, heffect.counted⟩
      · rw [heffect.live]
        by_cases hap : a = p
        · subst hap
          simp [Live, ho]
        · simp [Live, hap]
      · rw [heffect.refs]
        by_cases hap : a = p
        · subst hap
          simp [Memory.refs, ho]
        · simp [Memory.refs, hap]
    · rw [hcells]
      simp [cell]
    · rw [hcells]
      simp [cell, ha]
  · cases h

theorem exists_setTail {head old tail : BitVec 64} (hcell : m.cell p = some (head, old))
    (htail : m.Live tail) : ∃ m', m.setTail p tail = some m' := by
  obtain ⟨⟨refs, _⟩, ho, rfl⟩ := Option.bind_eq_some_iff.1 hcell
  rw [setTail, ho]
  simp only [incCons]
  split
  · exact ⟨_, rfl⟩
  · refine exists_inc ?_
    by_cases hap : tail = p
    · simp [Live, hap]
    · simpa [Live, hap] using htail

/-- The references that `increment_runtime_data` adds for a word if it is told that the word is a
list. -/
def asObjects (words : List (BitVec 64)) : List (BitVec 64) := words.filter (· ≠ 0)

theorem asObjects_cons_of_ne (hw : w ≠ 0) : asObjects (w :: words) = w :: asObjects words :=
  List.filter_cons_of_pos (decide_eq_true hw)

theorem asObjects_cons_zero : asObjects (0 :: words) = asObjects words :=
  List.filter_cons_of_neg (by simp)

theorem asObjects_cons (w : BitVec 64) (words : List (BitVec 64)) :
    asObjects (w :: words) = asObjects [w] ++ asObjects words :=
  List.filter_append [w] words

theorem incrementRuntimeData_list (t : FieldType) :
    m.incrementRuntimeData initial w (.list t) = if w = 0 then some m else m.inc w := rfl

theorem incrementRuntimeData_effect {t : FieldType}
    (h : m.incrementRuntimeData initial w (.list t) = some m') :
    Effect m m' [] (asObjects [w]) ∧ ∀ a, m'.cell a = m.cell a := by
  rw [incrementRuntimeData_list] at h
  by_cases hw : w = 0
  · rw [if_pos hw] at h
    obtain rfl := Option.some.inj h
    rw [hw, asObjects_cons_zero]
    exact ⟨.refl m, fun a => rfl⟩
  · rw [if_neg hw] at h
    rw [asObjects_cons_of_ne hw]
    exact inc_effect h

theorem exists_incrementRuntimeData {t : FieldType} (h : w ≠ 0 → m.Live w) :
    ∃ m', m.incrementRuntimeData initial w (.list t) = some m' := by
  rw [incrementRuntimeData_list]
  by_cases hw : w = 0
  · exact ⟨m, if_pos hw⟩
  · rw [if_neg hw]
    exact exists_inc (h hw)

/-- A memory in which a cell was allocated. -/
def withCell (m : Memory) (c w : BitVec 64) (free : List (BitVec 64)) : Memory :=
  ⟨Function.update m.objects c (some ⟨0, some (w, 0)⟩), free⟩

theorem withCell_effect {c : BitVec 64} {free : List (BitVec 64)} (hfree : m.free = c :: free)
    (hm : m.Fresh) : Effect m (m.withCell c w free) [c] [] ∧
      (m.withCell c w free).cell c = some (w, 0) ∧
        ∀ a, a ≠ c → (m.withCell c w free).cell a = m.cell a := by
  have hdead : m.objects c = none := by
    have hc := hm.dead c (by rw [hfree]; exact List.mem_cons_self)
    rwa [Live, Option.not_isSome_iff_eq_none] at hc
  refine ⟨⟨hfree, fun a => ?_, fun a => ?_, nofun⟩, ?_, fun a ha => ?_⟩
  · by_cases hac : a = c
    · simp [Live, withCell, hac]
    · simp [Live, withCell, hac]
  · by_cases hac : a = c
    · simp [refs, withCell, hac, hdead]
    · simp [refs, withCell, hac]
  · simp [cell, withCell]
  · simp [cell, withCell, ha]

theorem createCons_eq {c : BitVec 64} {free : List (BitVec 64)} {t : FieldType}
    (hfree : m.free = c :: free) :
    m.createCons initial 0 w t =
      ((m.withCell c w free).incrementRuntimeData initial w t).map fun m' => (c, m') := by
  have htail : (m.withCell c w free).setTail c 0 = some (m.withCell c w free) := by
    simp [setTail, withCell, incCons]
  rw [createCons, hfree]
  change ((m.withCell c w free).setTail c 0).bind _ = _
  rw [htail, Option.bind_some]
  cases (m.withCell c w free).incrementRuntimeData initial w t <;> rfl

/-- A new cell for a word. -/
theorem createCons_effect {c : BitVec 64} {t : FieldType} (hm : m.Fresh)
    (h : m.createCons initial 0 w (.list t) = some (c, m')) :
    Effect m m' [c] (asObjects [w]) ∧ m'.cell c = some (w, 0) ∧
      ∀ a, a ≠ c → m'.cell a = m.cell a := by
  cases hfree : m.free with
  | nil =>
    rw [createCons, hfree] at h
    cases h
  | cons c' free =>
    rw [createCons_eq hfree] at h
    obtain ⟨m₁, hm₁, heq⟩ := Option.map_eq_some_iff.1 h
    obtain ⟨rfl, rfl⟩ := Prod.mk.inj heq
    obtain ⟨heffect, hcell, hcells⟩ := withCell_effect (w := w) hfree hm
    obtain ⟨heffect', hcells'⟩ := incrementRuntimeData_effect hm₁
    refine ⟨heffect.trans heffect', ?_, fun a ha => ?_⟩
    · rw [hcells', hcell]
    · rw [hcells', hcells a ha]

theorem exists_createCons {t : FieldType} (hm : m.Fresh) (hroom : m.free ≠ [])
    (h : w ≠ 0 → m.Live w) :
    ∃ c m', m.createCons initial 0 w (.list t) = some (c, m') := by
  obtain ⟨c, free, hfree⟩ := List.exists_cons_of_ne_nil hroom
  obtain ⟨heffect, -⟩ := withCell_effect (w := w) hfree hm
  obtain ⟨m', hm'⟩ := @exists_incrementRuntimeData initial _ _ t
    fun hw => heffect.live_of_live (h hw)
  exact ⟨c, m', by rw [createCons_eq hfree, hm']; rfl⟩

/-- The words of the list at an address. -/
def Chain (m : Memory) : BitVec 64 → List (BitVec 64) → Prop
  | p, [] => p = 0
  | p, w :: words => p ≠ 0 ∧ ∃ tail, m.cell p = some (w, tail) ∧ Chain m tail words

theorem Chain.of_cells (h : m.Chain p words) (hcells : ∀ a, m.Live a → m'.cell a = m.cell a) :
    m'.Chain p words := by
  induction words generalizing p with
  | nil => exact h
  | cons w words ih =>
    obtain ⟨hp, tail, hcell, htail⟩ := h
    exact ⟨hp, tail, (hcells p (live_of_cell hcell)).trans hcell, ih htail⟩

end Memory

open Packing.Memory

/-- The loop of `cons::unpack` after the first cell: the cells are appended to the last one. -/
theorem loadCells_effect {t : FieldType} {prev init head : BitVec 64} (hm : m.Fresh)
    (hprev : prev ≠ 0) (hcell : m.cell prev = some (head, 0))
    (h : loadCells initial (.list t) words prev init m = some (p, m')) :
    p = init ∧ ∃ used, used.length = words.length ∧ Effect m m' used (asObjects words ++ used) ∧
      (∃ tail, m'.cell prev = some (head, tail) ∧ m'.Chain tail words) ∧
        ∀ a, a ≠ prev → m.Live a → m'.cell a = m.cell a := by
  induction words generalizing prev head m with
  | nil =>
    obtain ⟨rfl, rfl⟩ := Prod.mk.inj (Option.some.inj h)
    exact ⟨rfl, [], rfl, .refl m, ⟨0, hcell, rfl⟩, fun a _ _ => rfl⟩
  | cons w words ih =>
    obtain ⟨⟨c, m₁⟩, hcons, hrest⟩ := Option.bind_eq_some_iff.1 h
    simp only [if_neg hprev] at hrest
    obtain ⟨m₂, hm₂, hloop⟩ := Option.bind_eq_some_iff.1 hrest
    obtain ⟨heffect₁, hcell₁, hcells₁⟩ := createCons_effect hm hcons
    have hc : c ∈ m.free := by
      rw [heffect₁.free]
      exact List.mem_append_left _ List.mem_cons_self
    have hlivePrev := live_of_cell hcell
    have hcprev : prev ≠ c := fun heq => hm.dead c hc (heq ▸ hlivePrev)
    obtain ⟨heffect₂, ⟨head', old, hold, hnew⟩, hcells₂⟩ := setTail_effect (hm.ne_zero c hc) hm₂
    rw [hcells₁ prev hcprev, hcell] at hold
    obtain ⟨rfl, rfl⟩ := Prod.mk.inj (Option.some.inj hold)
    have hcellc : m₂.cell c = some (w, 0) := by rw [hcells₂ c (Ne.symm hcprev), hcell₁]
    obtain ⟨rfl, used, hlen, heffect, ⟨tail, htail, hchain⟩, hcells⟩ :=
      ih (heffect₂.fresh (heffect₁.fresh hm)) (hm.ne_zero c hc) hcellc hloop
    refine ⟨rfl, c :: used, congrArg (· + 1) hlen, ?_,
      ⟨c, ?_, hm.ne_zero c hc, tail, htail, hchain⟩, fun a ha hlive => ?_⟩
    · refine ((heffect₁.trans heffect₂).trans heffect).perm ?_
      rw [asObjects_cons w words, List.append_assoc, List.append_assoc]
      refine List.Perm.append_left _ ?_
      show (c :: (asObjects words ++ used)).Perm (asObjects words ++ c :: used)
      exact List.perm_middle.symm
    · rw [hcells prev hcprev (heffect₂.live_of_live (heffect₁.live_of_live hlivePrev)), hnew]
    · have hac : a ≠ c := fun heq => hm.dead c hc (heq ▸ hlive)
      rw [hcells a hac (heffect₂.live_of_live (heffect₁.live_of_live hlive)), hcells₂ a ha,
        hcells₁ a hac]

/-- The loop of `cons::unpack`: the list, of which the first cell is not counted yet. -/
theorem loadList_effect {t : FieldType} (hm : m.Fresh)
    (h : loadCells initial (.list t) words 0 0 m = some (p, m')) :
    m'.Chain p words ∧ (∀ a, m.Live a → m'.cell a = m.cell a) ∧
      (p = 0 ∧ m' = m ∧ words = [] ∨
        p ≠ 0 ∧ ∃ used, (p :: used).length = words.length ∧
          Effect m m' (p :: used) (asObjects words ++ used)) := by
  cases words with
  | nil =>
    obtain ⟨rfl, rfl⟩ := Prod.mk.inj (Option.some.inj h)
    exact ⟨rfl, fun a _ => rfl, Or.inl ⟨rfl, rfl, rfl⟩⟩
  | cons w words =>
    obtain ⟨⟨c, m₁⟩, hcons, hloop⟩ := Option.bind_eq_some_iff.1 h
    simp only [if_pos] at hloop
    obtain ⟨heffect₁, hcell₁, hcells₁⟩ := createCons_effect hm hcons
    have hc : c ∈ m.free := by
      rw [heffect₁.free]
      exact List.mem_append_left _ List.mem_cons_self
    have hc0 := hm.ne_zero c hc
    obtain ⟨rfl, used, hlen, heffect₂, ⟨tail, htail, hchain⟩, hcells₂⟩ :=
      loadCells_effect (heffect₁.fresh hm) hc0 hcell₁ hloop
    refine ⟨⟨hc0, tail, htail, hchain⟩, fun a hlive => ?_,
      Or.inr ⟨hc0, used, congrArg (· + 1) hlen, ?_⟩⟩
    · have hac : a ≠ p := fun heq => hm.dead p hc (heq ▸ hlive)
      rw [hcells₂ a hac (heffect₁.live_of_live hlive), hcells₁ a hac]
    · rw [asObjects_cons w words, List.append_assoc]
      exact heffect₁.trans heffect₂

theorem exists_loadCells (t : FieldType) (prev init : BitVec 64) (hm : m.Fresh)
    (hprev : prev ≠ 0 → ∃ head tail, m.cell prev = some (head, tail))
    (hroom : words.length ≤ m.free.length) (hlive : ∀ w ∈ words, w ≠ 0 → m.Live w) :
    ∃ p m', loadCells initial (.list t) words prev init m = some (p, m') := by
  induction words generalizing prev init m with
  | nil => exact ⟨init, m, rfl⟩
  | cons w words ih =>
    have hne : m.free ≠ [] := by
      rintro hnil
      rw [hnil] at hroom
      exact absurd hroom (Nat.not_succ_le_zero _)
    obtain ⟨c, m₁, hcons⟩ := @exists_createCons initial _ _ t hm hne
      (hlive w List.mem_cons_self)
    obtain ⟨heffect₁, hcell₁, hcells₁⟩ := createCons_effect hm hcons
    have hc : c ∈ m.free := by
      rw [heffect₁.free]
      exact List.mem_append_left _ List.mem_cons_self
    have hroom₁ : words.length ≤ m₁.free.length := by
      rw [heffect₁.free] at hroom
      simpa using hroom
    have hlive₁ : ∀ w' ∈ words, w' ≠ 0 → m₁.Live w' := fun w' hw' h0 =>
      heffect₁.live_of_live (hlive w' (List.mem_cons_of_mem _ hw') h0)
    by_cases h0 : prev = 0
    · obtain ⟨p, m', hloop⟩ := ih c c (heffect₁.fresh hm)
        (fun _ => ⟨w, 0, hcell₁⟩) hroom₁ hlive₁
      refine ⟨p, m', ?_⟩
      rw [loadCells, hcons]
      simp only [Option.bind_eq_bind, Option.bind_some, if_pos h0]
      exact hloop
    · obtain ⟨head, tail, hcell⟩ := hprev h0
      have hcprev : prev ≠ c := by
        rintro rfl
        exact hm.dead prev hc (live_of_cell hcell)
      obtain ⟨m₂, hm₂⟩ := exists_setTail ((hcells₁ prev hcprev).trans hcell) (live_of_cell hcell₁)
      obtain ⟨heffect₂, -, hcells₂⟩ := setTail_effect (hm.ne_zero c hc) hm₂
      obtain ⟨p, m', hloop⟩ := ih c init (heffect₂.fresh (heffect₁.fresh hm))
        (fun _ => ⟨w, 0, (hcells₂ c (Ne.symm hcprev)).trans hcell₁⟩)
        (by rw [heffect₂.free] at hroom₁; simpa using hroom₁)
        fun w' hw' h0 => heffect₂.live_of_live (hlive₁ w' hw' h0)
      refine ⟨p, m', ?_⟩
      rw [loadCells, hcons]
      simp only [Option.bind_eq_bind, Option.bind_some, if_neg h0, hm₂]
      exact hloop

/-! ## Fields -/

/-- The word of a field has the content. -/
def Holds (m : Memory) : BitVec 64 → PackValue → Prop
  | w, .int i => w.setWidth 32 = i
  | w, .float f => w = f
  | w, .node n => w = n
  | p, .list words => m.Chain p words

/-- The references that loading a field adds, apart from those to its cells. -/
def counted (initial : BitVec 64 → Bool) : PackValue → List (BitVec 64)
  | .node n => if initial n then [] else [n]
  | .list words => asObjects words
  | _ => []

/-- The cells of a field. -/
def cells : PackValue → ℕ
  | .list words => words.length
  | _ => 0

theorem Holds.of_cells {v : PackValue} (h : Holds m w v)
    (hcells : ∀ a, m.Live a → m'.cell a = m.cell a) : Holds m' w v := by
  cases v with
  | int i => exact h
  | float f => exact h
  | node n => exact h
  | list words => exact Chain.of_cells h hcells

theorem loadValue_effect {v : PackValue} {t : FieldType} (hv : v.HasType t) (hm : m.Fresh)
    (h : loadValue initial m t v = some (w, m')) :
    Holds m' w v ∧
      (∃ used, used.length = cells v ∧ Effect m m' used (counted initial v ++ used)) ∧
      ∀ a, m.Live a → m'.cell a = m.cell a := by
  cases hv with
  | int i =>
    obtain ⟨rfl, rfl⟩ := Prod.mk.inj (Option.some.inj h)
    exact ⟨BitVec.setWidth_setWidth_of_le i (by decide), ⟨[], rfl, .refl m⟩, fun a _ => rfl⟩
  | float f =>
    obtain ⟨rfl, rfl⟩ := Prod.mk.inj (Option.some.inj h)
    exact ⟨rfl, ⟨[], rfl, .refl m⟩, fun a _ => rfl⟩
  | node n =>
    obtain ⟨m₁, hm₁, heq⟩ := Option.map_eq_some_iff.1 h
    obtain ⟨rfl, rfl⟩ := Prod.mk.inj heq
    rw [setNode] at hm₁
    rw [counted]
    split at hm₁
    · obtain rfl := Option.some.inj hm₁
      exact ⟨rfl, ⟨[], rfl, by rw [if_pos ‹_›]; exact .refl m⟩, fun a _ => rfl⟩
    · obtain ⟨heffect, hcells⟩ := inc_effect hm₁
      exact ⟨rfl, ⟨[], rfl, by rw [if_neg ‹_›]; exact heffect⟩, fun a _ => hcells a⟩
  | list words t =>
    obtain ⟨⟨p, m₁⟩, hload, hrest⟩ := Option.bind_eq_some_iff.1 h
    obtain ⟨m₂, hm₂, heq⟩ := Option.bind_eq_some_iff.1 hrest
    obtain ⟨rfl, rfl⟩ := Prod.mk.inj (Option.some.inj heq)
    obtain ⟨hchain, hcells, ⟨rfl, rfl, rfl⟩ | ⟨hp, used, hlen, heffect⟩⟩ := loadList_effect hm hload
    · rw [incCons, if_pos rfl] at hm₂
      obtain rfl := Option.some.inj hm₂
      exact ⟨rfl, ⟨[], rfl, .refl m₁⟩, fun a _ => rfl⟩
    · rw [incCons, if_neg hp] at hm₂
      obtain ⟨heffect₂, hcells₂⟩ := inc_effect hm₂
      refine ⟨hchain.of_cells fun a _ => hcells₂ a, ⟨p :: used, hlen, ?_⟩, fun a hlive => ?_⟩
      · have htotal := heffect.trans heffect₂
        rw [List.append_nil, List.append_assoc] at htotal
        exact htotal.perm (List.Perm.append_left _ (List.perm_append_singleton p used))
      · rw [hcells₂, hcells a hlive]

theorem exists_loadValue {v : PackValue} {t : FieldType} (hv : v.HasType t) (hm : m.Fresh)
    (hroom : cells v ≤ m.free.length) (hlive : ∀ a ∈ counted initial v, m.Live a) :
    ∃ w m', loadValue initial m t v = some (w, m') := by
  cases hv with
  | int i => exact ⟨_, _, rfl⟩
  | float f => exact ⟨_, _, rfl⟩
  | node n =>
    have hset : ∃ m', m.setNode initial n = some m' := by
      rw [setNode]
      rw [counted] at hlive
      split
      · exact ⟨m, rfl⟩
      · rw [if_neg ‹_›] at hlive
        exact exists_inc (hlive n List.mem_cons_self)
    obtain ⟨m', hm'⟩ := hset
    exact ⟨n, m', by rw [loadValue, hm']; rfl⟩
  | list words t =>
    have hwords : ∀ w ∈ words, w ≠ 0 → m.Live w := fun w hw h0 =>
      hlive w (List.mem_filter.2 ⟨hw, decide_eq_true h0⟩)
    obtain ⟨p, m₁, hload⟩ := exists_loadCells t 0 0 hm (fun h => absurd rfl h) hroom hwords
    have hinc : ∃ m', m₁.incCons p = some m' := by
      rw [incCons]
      by_cases hp : p = 0
      · exact ⟨m₁, if_pos hp⟩
      · rw [if_neg hp]
        obtain ⟨-, -, ⟨rfl, -⟩ | ⟨-, used, -, heffect⟩⟩ := loadList_effect hm hload
        · exact absurd rfl hp
        · exact exists_inc ((heffect.live p).2 (Or.inr List.mem_cons_self))
    obtain ⟨m', hm'⟩ := hinc
    exact ⟨p, m', by rw [loadValue, hload]; simp only [Option.bind_eq_bind, Option.bind_some, hm']; rfl⟩

/-- **What loading does to the memory**: the tuple is there, and a reference was added for every
node that is not an initial one, for every new cell and for every word of a list that is not
zero. -/
theorem loadValues_effect {tpl : List PackValue} {fields : List FieldType} {ws : List (BitVec 64)}
    (htpl : List.Forall₂ PackValue.HasType tpl fields) (hm : m.Fresh)
    (h : loadValues initial fields tpl m = some (ws, m')) :
    List.Forall₂ (Holds m') ws tpl ∧
      (∃ used, Effect m m' used (tpl.flatMap (counted initial) ++ used)) ∧
        ∀ a, m.Live a → m'.cell a = m.cell a := by
  induction htpl generalizing m ws with
  | nil =>
    obtain ⟨rfl, rfl⟩ := Prod.mk.inj (Option.some.inj h)
    exact ⟨.nil, ⟨[], .refl m⟩, fun a _ => rfl⟩
  | @cons v t tpl fields hv htpl ih =>
    obtain ⟨⟨w, m₁⟩, hv₁, hrest⟩ := Option.bind_eq_some_iff.1 h
    obtain ⟨⟨ws', m₂⟩, htl, heq⟩ := Option.bind_eq_some_iff.1 hrest
    obtain ⟨rfl, rfl⟩ := Prod.mk.inj (Option.some.inj heq)
    obtain ⟨hholds, ⟨used₁, -, heffect₁⟩, hcells₁⟩ := loadValue_effect hv hm hv₁
    obtain ⟨hall, ⟨used₂, heffect₂⟩, hcells₂⟩ := ih (heffect₁.fresh hm) htl
    refine ⟨.cons (hholds.of_cells hcells₂) hall, ⟨used₁ ++ used₂, ?_⟩, fun a hlive => ?_⟩
    · refine (heffect₁.trans heffect₂).perm ?_
      rw [List.flatMap_cons, List.append_assoc, List.append_assoc]
      refine List.Perm.append_left _ ?_
      rw [← List.append_assoc, ← List.append_assoc]
      exact List.Perm.append_right _ List.perm_append_comm
    · rw [hcells₂ a (heffect₁.live_of_live hlive), hcells₁ a hlive]

theorem exists_loadValues {tpl : List PackValue} {fields : List FieldType}
    (htpl : List.Forall₂ PackValue.HasType tpl fields) (hm : m.Fresh)
    (hroom : (tpl.map cells).sum ≤ m.free.length)
    (hlive : ∀ a ∈ tpl.flatMap (counted initial), m.Live a) :
    ∃ ws m', loadValues initial fields tpl m = some (ws, m') := by
  induction htpl generalizing m with
  | nil => exact ⟨_, _, rfl⟩
  | @cons v t tpl fields hv htpl ih =>
    rw [List.map_cons, List.sum_cons] at hroom
    obtain ⟨w, m₁, hv₁⟩ := exists_loadValue hv hm (by omega) fun a ha =>
      hlive a (List.mem_append_left _ ha)
    obtain ⟨-, ⟨used, hlen, heffect⟩, -⟩ := loadValue_effect hv hm hv₁
    have hroom₁ : (tpl.map cells).sum ≤ m₁.free.length := by
      rw [heffect.free, List.length_append, hlen] at hroom
      omega
    obtain ⟨ws, m', hrest⟩ := ih (heffect.fresh hm) hroom₁ fun a ha =>
      heffect.live_of_live (hlive a (List.mem_append_right _ ha))
    refine ⟨w :: ws, m', ?_⟩
    rw [loadValues, hv₁]
    simp only [Option.bind_eq_bind, Option.bind_some, hrest]
    rfl

/-! ## The round trip -/

/-- The references of a field, apart from those to its cells: to a node, and to the elements of a
list if they are of a reference type. -/
def references (initial : BitVec 64 → Bool) : FieldType → PackValue → List (BitVec 64)
  | _, .node n => if initial n then [] else [n]
  | .list t, .list words => if t.referenceType then asObjects words else []
  | _, _ => []

/-- The words of a list that are not zero, and no references. -/
def strays : FieldType → PackValue → List (BitVec 64)
  | .list t, .list words => if t.referenceType then [] else asObjects words
  | _, _ => []

/-- The tuple fits the memory: there is room for its lists, and what it refers to is there. -/
structure Ready (m : Memory) (fields : List FieldType) (tpl : List PackValue) : Prop where
  fresh : m.Fresh
  room : (tpl.map cells).sum ≤ m.free.length
  nodes : ∀ n, PackValue.node n ∈ tpl → m.Live n
  elements : ∀ t words, (FieldType.list t, PackValue.list words) ∈ fields.zip tpl →
    t.referenceType = true → ∀ w ∈ words, w = 0 ∨ m.Live w

/-- The result of unpacking: all bytes are consumed, the tuple is equal, and every object is counted
once more for each reference of the tuple to it, every new cell once. -/
structure Unpacked (initial : BitVec 64 → Bool) (m : Memory) (fields : List FieldType)
    (tpl : List PackValue) (size : ℕ) (ws : List (BitVec 64)) (pos : ℤ) (m' : Memory) : Prop where
  consumed : pos = size
  equal : List.Forall₂ (Holds m') ws tpl
  cells : ∀ a, m.Live a → m'.cell a = m.cell a
  counted : ∀ a, m.Live a → m'.Live a ∧ m'.refs a =
    m.refs a + (List.zipWith (references initial) fields tpl).flatten.count a
  fresh : ∀ a, ¬ m.Live a → m'.Live a → m'.refs a = 1

/-- `tuple::pack` and `tuple::unpack`: a buffer of the size that is computed is filled, whatever was
in it, and the tuple comes back. -/
def RoundTrip (initial : BitVec 64 → Bool) (prog : BitVec 8 → List FieldType) (m : Memory)
    (id : BitVec 8) (tpl : List PackValue) : Prop :=
  ∃ bytes, bytes.length = getStorageSize tpl ∧
    (∀ buf : List (BitVec 8), buf.length = getStorageSize tpl →
      packTuple id tpl ⟨buf, 0⟩ = some ⟨bytes, getStorageSize tpl⟩) ∧
    ∃ ws pos m', unpackTuple initial prog bytes 0 m = some (id, ws, pos, m') ∧
      Unpacked initial m (prog id) tpl (getStorageSize tpl) ws pos m'

/-- `full_tuple::pack` and `full_tuple::unpack`. -/
def FullRoundTrip (initial : BitVec 64 → Bool) (prog : BitVec 8 → List FieldType) (m : Memory)
    (dir : Direction) (depth : BitVec 32) (id : BitVec 8) (tpl : List PackValue) : Prop :=
  ∃ bytes, bytes.length = storageSize tpl ∧
    (∀ buf : List (BitVec 8), buf.length = storageSize tpl →
      packFull dir depth id tpl ⟨buf, 0⟩ = some ⟨bytes, storageSize tpl⟩) ∧
    ∃ ws pos m', unpackFull initial prog bytes 0 m = some (dir, depth, id, ws, pos, m') ∧
      Unpacked initial m (prog id) tpl (storageSize tpl) ws pos m'

/-- The tuples that come back, when `size` bytes are packed: these are less than `2 ^ 31`, the last
field is not an empty list, and the words of a list whose elements are no references are all
zero. -/
structure Sendable (fields : List FieldType) (tpl : List PackValue) (size : ℕ) : Prop where
  size_lt : size < 2 ^ 31
  last : tpl.getLast? ≠ some (.list [])
  zero : ∀ t words, (FieldType.list t, PackValue.list words) ∈ fields.zip tpl →
    t.referenceType = false → ∀ w ∈ words, w = 0

variable {fields : List FieldType} {tpl : List PackValue} {prog : BitVec 8 → List FieldType}
  {id : BitVec 8}

/-- What loading counts are the references and the strays. -/
theorem counted_perm (htpl : List.Forall₂ PackValue.HasType tpl fields) :
    (tpl.flatMap (counted initial)).Perm
      ((List.zipWith (references initial) fields tpl).flatten ++
        (List.zipWith strays fields tpl).flatten) := by
  induction htpl with
  | nil => exact .refl _
  | @cons v t tpl fields hv htpl ih =>
    have hfield : counted initial v = references initial t v ++ strays t v := by
      cases hv with
      | int i => rfl
      | float f => rfl
      | node n => exact (List.append_nil _).symm
      | list words t =>
        rw [counted, references, strays]
        split
        · exact (List.append_nil _).symm
        · rfl
    rw [List.flatMap_cons, hfield, List.zipWith_cons_cons, List.zipWith_cons_cons,
      List.flatten_cons, List.flatten_cons, List.append_assoc, List.append_assoc]
    refine List.Perm.append_left _ ((List.Perm.append_left _ ih).trans ?_)
    rw [← List.append_assoc, ← List.append_assoc]
    exact List.Perm.append_right _ List.perm_append_comm

theorem strays_eq_nil_iff :
    (List.zipWith strays fields tpl).flatten = [] ↔
      ∀ t words, (FieldType.list t, PackValue.list words) ∈ fields.zip tpl →
        t.referenceType = false → ∀ w ∈ words, w = 0 := by
  have hlist : ∀ (t : FieldType) (v : PackValue), strays t v = [] ↔
      ∀ s words, t = .list s → v = .list words → s.referenceType = false → ∀ w ∈ words, w = 0 := by
    intro t v
    unfold strays
    split
    · rename_i t words
      split
      · refine iff_of_true rfl ?_
        rintro s words' ⟨⟩ - hs
        simp_all
      · rw [asObjects, List.filter_eq_nil_iff]
        simp_all
    · refine iff_of_true rfl ?_
      rintro s words rfl rfl
      simp_all
  rw [← List.map_uncurry_zip_eq_zipWith, List.flatten_eq_nil_iff, List.forall_mem_map]
  constructor
  · intro h t words hmem
    exact (hlist _ _).1 (h _ hmem) t words rfl rfl
  · rintro h ⟨t, v⟩ hmem
    refine (hlist t v).2 ?_
    rintro s words rfl rfl
    exact h s words hmem

/-- What the tuple refers to is there. -/
theorem Ready.live_of_mem (hm : Ready m fields tpl)
    (ha : a ∈ (List.zipWith (references initial) fields tpl).flatten) : m.Live a := by
  rw [← List.map_uncurry_zip_eq_zipWith] at ha
  obtain ⟨l, hl, hal⟩ := List.mem_flatten.1 ha
  obtain ⟨⟨t, v⟩, hmem, rfl⟩ := List.mem_map.1 hl
  have hv : v ∈ tpl := (List.of_mem_zip hmem).2
  rw [Function.uncurry_apply_pair] at hal
  unfold references at hal
  split at hal
  · rename_i n
    split at hal
    · cases hal
    · rw [List.mem_singleton.1 hal]
      exact hm.nodes n hv
  · rename_i s words
    split at hal
    · obtain ⟨hw, h0⟩ := List.mem_filter.1 hal
      exact (hm.elements s words hmem ‹_› a hw).resolve_left (of_decide_eq_true h0)
    · cases hal
  · cases hal

/-- Loading gives the tuple back if and only if there are no strays. -/
theorem load_unpacked_iff (htpl : List.Forall₂ PackValue.HasType tpl fields)
    (hm : Ready m fields tpl) (done : List (BitVec 8))
    (hsize : (done ++ fieldsBytes tpl).length < 2 ^ 31) :
    (∃ ws pos m', load initial (done ++ fieldsBytes tpl) fields done.length m = some (ws, pos, m') ∧
      Unpacked initial m fields tpl (done ++ fieldsBytes tpl).length ws pos m') ↔
      (List.zipWith strays fields tpl).flatten = [] := by
  have hload := @load_eq initial _ _ htpl m done [] (by simpa using hsize)
  rw [List.append_nil] at hload
  rw [hload]
  constructor
  · rintro ⟨ws, pos, m', heq, hunpacked⟩
    obtain ⟨⟨ws', m''⟩, hvalues, heq'⟩ := Option.map_eq_some_iff.1 heq
    obtain ⟨rfl, hrest⟩ := Prod.mk.inj heq'
    obtain ⟨-, rfl⟩ := Prod.mk.inj hrest
    obtain ⟨-, ⟨used, heffect⟩, -⟩ := loadValues_effect htpl hm.fresh hvalues
    refine List.eq_nil_iff_forall_not_mem.2 fun w hw => ?_
    have hcount : 0 < (List.zipWith strays fields tpl).flatten.count w := List.count_pos_iff.2 hw
    have hrefs := heffect.refs w
    rw [List.count_append, (counted_perm htpl).count_eq, List.count_append] at hrefs
    by_cases hlive : m.Live w
    · have hexpected := (hunpacked.counted w hlive).2
      simp only at hrefs hexpected
      omega
    · have hlive' : m''.Live w := heffect.counted w (List.mem_append_left _
        ((counted_perm htpl).mem_iff.2 (List.mem_append_right _ hw)))
      have hused : 0 < used.count w :=
        List.count_pos_iff.2 (((heffect.live w).1 hlive').resolve_left hlive)
      have hexpected := hunpacked.fresh w hlive hlive'
      simp only at hrefs hexpected
      omega
  · intro hstrays
    have hperm := @counted_perm initial _ _ htpl
    rw [hstrays, List.append_nil] at hperm
    have hlive : ∀ a ∈ tpl.flatMap (counted initial), m.Live a := fun a ha =>
      hm.live_of_mem (hperm.mem_iff.1 ha)
    obtain ⟨ws, m', hvalues⟩ := exists_loadValues htpl hm.fresh hm.room hlive
    obtain ⟨hequal, ⟨used, heffect⟩, hcells⟩ := loadValues_effect htpl hm.fresh hvalues
    have hnodup := hm.fresh.nodup
    rw [heffect.free] at hnodup
    have hdead : ∀ a ∈ used, ¬ m.Live a := fun a ha =>
      hm.fresh.dead a (by rw [heffect.free]; exact List.mem_append_left _ ha)
    refine ⟨ws, _, m', by rw [hvalues]; rfl, rfl, hequal, hcells, fun a ha => ?_, fun a ha ha' => ?_⟩
    · refine ⟨heffect.live_of_live ha, ?_⟩
      rw [heffect.refs, List.count_append, hperm.count_eq,
        List.count_eq_zero.2 fun hused => hdead a hused ha, Nat.add_zero]
    · have hused : a ∈ used := ((heffect.live a).1 ha').resolve_left ha
      have hrefs : m.refs a = 0 := by
        rw [Live, Option.not_isSome_iff_eq_none] at ha
        rw [refs, ha]
        rfl
      rw [heffect.refs, List.count_append, List.count_eq_zero.2 fun hmem => ha (hlive a hmem), hrefs,
        (List.nodup_append.1 hnodup).1.count, if_pos hused]

theorem unpackTuple_eq (done : List (BitVec 8)) (m : Memory)
    (hsize : (done ++ tupleBytes id tpl).length < 2 ^ 31) :
    unpackTuple initial prog (done ++ tupleBytes id tpl) done.length m =
      (load initial ((done ++ toBytes 1 id.toNat) ++ fieldsBytes tpl) (prog id)
        (done ++ toBytes 1 id.toNat).length m).map fun r => (id, r) := by
  rw [tupleBytes] at hsize ⊢
  rw [unpackTuple, unpack_toBytes done _ 1 _ hsize]
  simp only [Option.bind_eq_bind, Option.bind_some, ofNat_ofBytes_toBytes (k := 1) id,
    ← List.append_assoc]
  cases load initial (done ++ toBytes 1 id.toNat ++ fieldsBytes tpl) (prog id)
    (done ++ toBytes 1 id.toNat).length m <;> rfl

/-- Unpacking gives the tuple back if and only if there are no strays. -/
theorem unpackTuple_unpacked_iff (htpl : List.Forall₂ PackValue.HasType tpl (prog id))
    (hm : Ready m (prog id) tpl) (done : List (BitVec 8))
    (hsize : (done ++ tupleBytes id tpl).length < 2 ^ 31) :
    (∃ ws pos m', unpackTuple initial prog (done ++ tupleBytes id tpl) done.length m =
        some (id, ws, pos, m') ∧
      Unpacked initial m (prog id) tpl (done ++ tupleBytes id tpl).length ws pos m') ↔
      (List.zipWith strays (prog id) tpl).flatten = [] := by
  have hbytes : done ++ tupleBytes id tpl = (done ++ toBytes 1 id.toNat) ++ fieldsBytes tpl := by
    rw [tupleBytes, List.append_assoc]
  rw [unpackTuple_eq done m hsize, hbytes]
  rw [hbytes] at hsize
  refine Iff.trans ?_ (@load_unpacked_iff initial _ _ _ htpl hm _ hsize)
  simp only [Option.map_eq_some_iff, Prod.mk.injEq, true_and]
  constructor
  · rintro ⟨ws, pos, m', ⟨r, hr, rfl⟩, h⟩
    exact ⟨ws, pos, m', hr, h⟩
  · rintro ⟨ws, pos, m', hr, h⟩
    exact ⟨ws, pos, m', ⟨_, hr, rfl⟩, h⟩

/-- A full tuple is packed behind its direction and depth. -/
theorem packFull_eq (dir : Direction) (depth : BitVec 32) {buf : List (BitVec 8)}
    (hsize : 8 + packedSize tpl < 2 ^ 31) (hbuf : buf.length = 8 + packedSize tpl) :
    packFull dir depth id tpl ⟨buf, 0⟩ =
      if tpl.getLast? = some (.list []) then none
      else some ⟨fullBytes dir depth id tpl, (fullBytes dir depth id tpl).length⟩ := by
  have h₁ := pack_append [] buf (toBytes 4 (directionCode dir))
    (by simp only [List.length_nil]; omega) (by rw [length_toBytes]; omega)
  have h₂ := pack_append (toBytes 4 (directionCode dir)) (buf.drop 4) (toBytes 4 depth.toNat)
    (by rw [length_toBytes, List.length_drop]; omega)
    (by rw [length_toBytes, List.length_drop]; omega)
  have h₃ := packTuple_eq id tpl (toBytes 4 (directionCode dir) ++ toBytes 4 depth.toNat)
    ((buf.drop 4).drop 4)
    (by simp only [List.length_append, length_toBytes, List.length_drop]; omega)
    (by simp only [List.length_drop]; omega)
  rw [length_toBytes, List.nil_append, List.nil_append] at h₁
  rw [length_toBytes 4 depth.toNat] at h₂
  rw [packFull]
  change (PackBuffer.pack _ ⟨buf, (List.length (α := BitVec 8) [] : ℤ)⟩).bind _ = _
  rw [h₁, Option.bind_some, h₂, Option.bind_eq_bind, Option.bind_some, h₃]
  rfl

/-- A full tuple that can be packed has less than `2 ^ 31` bytes. -/
theorem packFull_lt {dir : Direction} {depth : BitVec 32} {buf : List (BitVec 8)} {b' : PackBuffer}
    (hbuf : buf.length = (8 + packedSize tpl) % 2 ^ 64)
    (h : packFull dir depth id tpl ⟨buf, 0⟩ = some b') : 8 + packedSize tpl < 2 ^ 31 := by
  obtain ⟨b₁, hb₁, hrest⟩ := Option.bind_eq_some_iff.1 h
  obtain ⟨b₂, hb₂, htuple⟩ := Option.bind_eq_some_iff.1 hrest
  have hat : PackBuffer.At ⟨buf, 0⟩ 0 := ⟨rfl, by decide⟩
  obtain ⟨hat₁, hlen₁⟩ := pack_at hat hb₁ (by simp)
  obtain ⟨hat₂, hlen₂⟩ := pack_at hat₁ hb₂ (by simp)
  rw [length_toBytes, length_toBytes] at hat₂
  exact packTuple_lt hat₂ (by decide) (by rw [hlen₂, hlen₁]; exact hbuf) htuple

/-- A full tuple is unpacked from behind its direction and depth. -/
theorem unpackFull_eq (dir : Direction) (depth : BitVec 32) (m : Memory)
    (hsize : (fullBytes dir depth id tpl).length < 2 ^ 31) :
    unpackFull initial prog (fullBytes dir depth id tpl) 0 m =
      (unpackTuple initial prog (fullBytes dir depth id tpl)
        (toBytes 4 (directionCode dir) ++ toBytes 4 depth.toNat).length m).map fun r =>
          (dir, depth, r) := by
  have hdir : directionOf (ofBytes (toBytes 4 (directionCode dir))) = some dir := by
    cases dir <;> rfl
  have hdepth : ofBytes (toBytes 4 depth.toNat) = depth.toNat := ofBytes_toBytes depth.isLt
  rw [fullBytes] at hsize ⊢
  rw [List.append_assoc] at hsize
  have h₁ := unpack_toBytes [] (toBytes 4 depth.toNat ++ tupleBytes id tpl) 4 (directionCode dir)
    (by rw [List.nil_append]; exact hsize)
  have h₂ := unpack_toBytes (toBytes 4 (directionCode dir)) (tupleBytes id tpl) 4 depth.toNat hsize
  rw [List.nil_append, List.nil_append] at h₁
  rw [unpackFull, List.append_assoc]
  change (unpack 4 _ (List.length (α := BitVec 8) [] : ℤ)).bind _ = _
  rw [h₁, Option.bind_some]
  simp only [hdir, Option.bind_eq_bind, Option.bind_some, h₂, hdepth, BitVec.ofNat_toNat,
    BitVec.setWidth_eq]
  cases unpackTuple initial prog
    (toBytes 4 (directionCode dir) ++ (toBytes 4 depth.toNat ++ tupleBytes id tpl))
    (toBytes 4 (directionCode dir) ++ toBytes 4 depth.toNat).length m <;> rfl

/-- When something that is packed into a buffer and unpacked again comes back. -/
theorem sendable_iff (pack : PackBuffer → Option PackBuffer) (back : List (BitVec 8) → ℕ → Prop)
    {size storage : ℕ} {bytes₀ : List (BitVec 8)} (hstorage : storage = size % 2 ^ 64)
    (hlen : bytes₀.length = size)
    (hlt : ∀ (buf : List (BitVec 8)) b', buf.length = storage → pack ⟨buf, 0⟩ = some b' →
      size < 2 ^ 31)
    (hpack : ∀ buf : List (BitVec 8), size < 2 ^ 31 → buf.length = size →
      pack ⟨buf, 0⟩ = if tpl.getLast? = some (.list []) then none else some ⟨bytes₀, size⟩)
    (hback : size < 2 ^ 31 →
      (back bytes₀ size ↔ (List.zipWith strays fields tpl).flatten = [])) :
    (∃ bytes, bytes.length = storage ∧
      (∀ buf : List (BitVec 8), buf.length = storage → pack ⟨buf, 0⟩ = some ⟨bytes, storage⟩) ∧
        back bytes storage) ↔ Sendable fields tpl size := by
  constructor
  · rintro ⟨bytes, -, hall, hunpack⟩
    have hzeros := hall (List.replicate storage 0) List.length_replicate
    have hsize := hlt _ _ List.length_replicate hzeros
    rw [Nat.mod_eq_of_lt (by omega)] at hstorage
    subst hstorage
    rw [hpack _ hsize List.length_replicate] at hzeros
    split at hzeros
    · cases hzeros
    · obtain ⟨rfl, -⟩ := PackBuffer.mk.inj (Option.some.inj hzeros)
      exact ⟨hsize, ‹_›, strays_eq_nil_iff.1 ((hback hsize).1 hunpack)⟩
  · rintro ⟨hsize, hlast, hzero⟩
    rw [Nat.mod_eq_of_lt (by omega)] at hstorage
    subst hstorage
    refine ⟨bytes₀, hlen, fun buf hbuf => ?_, (hback hsize).2 (strays_eq_nil_iff.2 hzero)⟩
    rw [hpack buf hsize hbuf, if_neg hlast]

/-- **The round trip.**  For every predicate, every tuple of it and every memory with what it refers
to: a tuple can be packed into a buffer of the size computed for it and comes back, if and only if
it is sendable; and so does the full tuple, which has eight bytes more. -/
theorem roundTrip_iff (htpl : List.Forall₂ PackValue.HasType tpl (prog id))
    (hm : Ready m (prog id) tpl) (dir : Direction) (depth : BitVec 32) :
    (RoundTrip initial prog m id tpl ↔ Sendable (prog id) tpl (packedSize tpl)) ∧
      (FullRoundTrip initial prog m dir depth id tpl ↔
        Sendable (prog id) tpl (8 + packedSize tpl)) := by
  constructor
  · refine sendable_iff (packTuple id tpl)
      (fun bytes size => ∃ ws pos m', unpackTuple initial prog bytes 0 m = some (id, ws, pos, m') ∧
        Unpacked initial m (prog id) tpl size ws pos m')
      (getStorageSize_eq tpl) (length_tupleBytes id tpl) (fun buf b' hbuf hb' => ?_)
      (fun buf hsize hbuf => ?_) fun hsize => ?_
    · have hlt := packTuple_lt (n := 0) ⟨rfl, by decide⟩ (by decide)
        (by rw [Nat.zero_add, ← getStorageSize_eq]; exact hbuf) hb'
      rwa [Nat.zero_add] at hlt
    · have heq := packTuple_eq id tpl [] buf (by rw [List.length_nil]; omega) hbuf
      rw [List.nil_append, List.nil_append, length_tupleBytes] at heq
      exact heq
    · have hback := @unpackTuple_unpacked_iff initial _ _ _ _ htpl hm []
        (by rw [List.nil_append, length_tupleBytes]; exact hsize)
      rw [List.nil_append, length_tupleBytes] at hback
      exact hback
  · refine sendable_iff (packFull dir depth id tpl)
      (fun bytes size => ∃ ws pos m',
        unpackFull initial prog bytes 0 m = some (dir, depth, id, ws, pos, m') ∧
          Unpacked initial m (prog id) tpl size ws pos m')
      (storageSize_eq tpl) (length_fullBytes dir depth id tpl)
      (fun buf b' hbuf hb' => packFull_lt (by rw [← storageSize_eq]; exact hbuf) hb')
      (fun buf hsize hbuf => ?_) fun hsize => ?_
    · rw [packFull_eq dir depth hsize hbuf, length_fullBytes]
    · have hsize' : (fullBytes dir depth id tpl).length < 2 ^ 31 := by
        rw [length_fullBytes]
        exact hsize
      have hback := @unpackTuple_unpacked_iff initial _ _ _ _ htpl hm _ hsize'
      rw [← fullBytes, length_fullBytes] at hback
      simp only [unpackFull_eq dir depth m hsize', Option.map_eq_some_iff, Prod.mk.injEq, true_and]
      refine Iff.trans ⟨?_, ?_⟩ hback
      · rintro ⟨ws, pos, m', ⟨r, hr, rfl⟩, h⟩
        exact ⟨ws, pos, m', hr, h⟩
      · rintro ⟨ws, pos, m', hr, h⟩
        exact ⟨ws, pos, m', ⟨_, hr, rfl⟩, h⟩

/-- A memory with one node, at the address five, and room for one cell. -/
def oneNode : Memory := ⟨fun a => if a = 5 then some ⟨0, none⟩ else none, [8]⟩

theorem fresh_oneNode : oneNode.Fresh := by
  refine ⟨List.pairwise_singleton _ 8, fun a ha => ?_, fun a ha => ?_⟩
  · rw [List.mem_singleton.1 ha]
    decide
  · rw [List.mem_singleton.1 ha]
    exact Bool.false_ne_true

/-- A list with the node, and an integer. -/
theorem roundTrip_iff_five :
    RoundTrip (fun _ => false) (fun _ => [.list .node, .int]) oneNode 3 [.list [5], .int 7] ∧
      FullRoundTrip (fun _ => false) (fun _ => [.list .node, .int]) oneNode .negative 2 3
        [.list [5], .int 7] := by
  have hready : Ready oneNode [.list .node, .int] [.list [5], .int 7] := by
    refine ⟨fresh_oneNode, by decide, fun n hn => ?_, ?_⟩
    · rcases List.mem_cons.1 hn with hn | hn
      · cases hn
      · cases List.mem_singleton.1 hn
    · intro t words hmem ht w hw
      rcases List.mem_cons.1 hmem with heq | hmem
      · obtain ⟨-, hwords⟩ := Prod.mk.inj heq
        obtain rfl := PackValue.list.inj hwords
        rw [List.mem_singleton.1 hw]
        exact Or.inr rfl
      · cases (Prod.mk.inj (List.mem_singleton.1 hmem)).1
  have hsend : ∀ size, size < 2 ^ 31 →
      Sendable [.list .node, .int] [.list [5], .int 7] size := by
    intro size hsize
    refine ⟨hsize, by decide, fun t words hmem ht => ?_⟩
    rcases List.mem_cons.1 hmem with heq | hmem
    · obtain ⟨hlist, -⟩ := Prod.mk.inj heq
      obtain rfl := FieldType.list.inj hlist
      cases ht
    · cases (Prod.mk.inj (List.mem_singleton.1 hmem)).1
  have hiff := @roundTrip_iff (fun _ => false) oneNode [.list [5], .int 7]
    (fun _ => [.list .node, .int]) 3 (.cons (.list [5] .node) (.cons (.int 7) .nil)) hready
    .negative 2
  exact ⟨hiff.1.2 (hsend _ (by decide)), hiff.2.2 (hsend _ (by decide))⟩

/-- **Not every tuple can be packed**: for an empty list at the end the assertion of `cons::pack`
fails. -/
theorem not_forall_roundTrip :
    ¬ ∀ (prog : BitVec 8 → List FieldType) (m : Memory) (id : BitVec 8) (tpl : List PackValue),
      List.Forall₂ PackValue.HasType tpl (prog id) → Ready m (prog id) tpl →
        RoundTrip (fun _ => false) prog m id tpl := by
  intro hall
  have hready : Ready oneNode [.list .int] [.list []] := by
    refine ⟨fresh_oneNode, by decide, fun n hn => ?_, ?_⟩
    · cases List.mem_singleton.1 hn
    · intro t words hmem ht
      cases List.mem_singleton.1 hmem
      cases ht
  obtain ⟨bytes, -, hpack, -⟩ := hall (fun _ => [.list .int]) oneNode 3 [.list []]
    (.cons (.list [] .int) .nil) hready
  have hnone : packTuple 3 [.list []] ⟨[0, 0, 0, 0, 0], 0⟩ = none := by decide
  cases hnone.symm.trans (hpack [0, 0, 0, 0, 0] rfl)

end Packing

end Meld
