import Meld.Lib.Linked
import Meld.Thread.Ids

/-!
# The lists of allocated and of freed nodes

A thread keeps its allocated nodes in a doubly linked list and its freed nodes in a list that is
only followed forwards: the `dyn_prev` of a freed node may point anywhere, and is reset when the
node is constructed again.

* `Owned mem t i al fl`: the lists of thread `t` are `al` and `fl`.
* `Owned.remove`, `Owned.pop`, `Owned.add`: what the operations do to them.
* `Lists s al fl`: every node is in at most one list, and a node in use is in the list of allocated
  nodes of its creator.
* `Lists.remove`, `Lists.insert`, `Lists.clear`: the steps that change the lists.
-/

namespace Meld

open Linked

variable {τ : Type*}

namespace NodeMem

variable {mem mem' : NodeMem τ} {p n a : ℕ}

/-- The fields of a node that the lists do not use. -/
def core (c : DynNode τ) : BitVec 64 × BitVec 64 × Option τ := (c.id, c.translation, c.creator)

/-- The pointers of the nodes, as a heap of linked cells. -/
def links (mem : NodeMem τ) : Links := fun a => (mem a).map fun c => (c.dynPrev, c.dynNext)

theorem setNext_apply : mem.setNext p n a =
    if a = p ∧ p ≠ 0 then (mem a).map fun c => { c with dynNext := n } else mem a := by
  rw [setNext]
  by_cases hp : p = 0
  · simp [hp]
  · by_cases ha : a = p
    · subst ha
      simp [hp]
    · simp [hp, ha]

theorem setPrev_apply : mem.setPrev p n a =
    if a = p ∧ p ≠ 0 then (mem a).map fun c => { c with dynPrev := n } else mem a := by
  rw [setPrev]
  by_cases hp : p = 0
  · simp [hp]
  · by_cases ha : a = p
    · subst ha
      simp [hp]
    · simp [hp, ha]

@[simp] theorem core_setNext : (mem.setNext p n a).map core = (mem a).map core := by
  rw [setNext_apply]
  split
  · cases mem a <;> rfl
  · rfl

@[simp] theorem core_setPrev : (mem.setPrev p n a).map core = (mem a).map core := by
  rw [setPrev_apply]
  split
  · cases mem a <;> rfl
  · rfl

/-- A node with the same core was there before. -/
theorem exists_of_core (h : (mem' a).map core = (mem a).map core) {c' : DynNode τ}
    (hc' : mem' a = some c') : ∃ c, mem a = some c ∧ core c' = core c := by
  rw [hc', Option.map_some, eq_comm, Option.map_eq_some_iff] at h
  obtain ⟨c, hc, heq⟩ := h
  exact ⟨c, hc, heq.symm⟩

theorem setNext_of_ne (ha : a ≠ p) : mem.setNext p n a = mem a := by
  simp [setNext_apply, ha]

theorem setPrev_of_ne (ha : a ≠ p) : mem.setPrev p n a = mem a := by
  simp [setPrev_apply, ha]

/-- The two writes that make `p` and `n` neighbours. -/
theorem links_join (h0 : mem 0 = none) :
    links ((mem.setNext p n).setPrev n p) = join (links mem) p n := by
  funext a
  rw [links, join, links, setPrev_apply, setNext_apply]
  by_cases ha : a = 0
  · subst ha
    simp [h0]
  · by_cases hp : a = p
    · by_cases hn : a = n
      · subst hp
        subst hn
        cases mem a <;> simp [ha]
      · subst hp
        cases mem a <;> simp [ha, hn]
    · by_cases hn : a = n
      · subst hn
        cases mem a <;> simp [ha, hp]
      · cases mem a <;> simp [hp, hn]

/-- The nodes met from `a` on are the nodes of the list. -/
def Freed (mem : NodeMem τ) : ℕ → List ℕ → Prop
  | a, [] => a = 0
  | a, x :: l => a = x ∧ a ≠ 0 ∧ ∃ c, mem a = some c ∧ Freed mem c.dynNext l

/-- A list of freed nodes is a fact about the `dyn_next` of its nodes. -/
theorem Freed.congr {l : List ℕ} (h : mem.Freed a l)
    (heq : ∀ x ∈ l, (mem' x).map DynNode.dynNext = (mem x).map DynNode.dynNext) :
    mem'.Freed a l := by
  induction l generalizing a with
  | nil => exact h
  | cons x l ih =>
    obtain ⟨rfl, hne, c, hc, hl⟩ := h
    have hx := heq a List.mem_cons_self
    rw [hc, Option.map_some, Option.map_eq_some_iff] at hx
    obtain ⟨c', hc', hnext⟩ := hx
    refine ⟨rfl, hne, c', hc', ?_⟩
    rw [hnext]
    exact ih hl fun y hy => heq y (List.mem_cons_of_mem a hy)

theorem Freed.ne_zero {l : List ℕ} (h : mem.Freed a l) : 0 ∉ l := by
  induction l generalizing a with
  | nil => simp
  | cons x l ih =>
    obtain ⟨rfl, hne, c, -, hl⟩ := h
    rw [List.mem_cons, not_or]
    exact ⟨hne.symm, ih hl⟩

theorem Freed.isSome_of_mem {l : List ℕ} (h : mem.Freed a l) {x : ℕ} (hx : x ∈ l) :
    ∃ c, mem x = some c := by
  induction l generalizing a with
  | nil => simp at hx
  | cons y l ih =>
    obtain ⟨rfl, -, c, hc, hl⟩ := h
    rcases List.mem_cons.mp hx with rfl | hx
    · exact ⟨c, hc⟩
    · exact ih hl hx

/-- The list starts at the pointer to it. -/
theorem Freed.headD {l : List ℕ} (h : mem.Freed a l) : a = l.headD 0 := by
  cases l with
  | nil => exact h
  | cons x l => exact h.1

end NodeMem

open NodeMem

/-- The lists of one thread: `al` are the allocated nodes, `fl` the freed ones. -/
structure Owned (mem : NodeMem τ) (t : τ) (i : Ids) (al fl : List ℕ) : Prop where
  seg : Seg (links mem) 0 al 0
  head : i.allocatedNodes = al.headD 0
  freed : mem.Freed i.freedNodes fl
  nodup : (al ++ fl).Nodup
  creator : ∀ a ∈ al, ∀ c, mem a = some c → c.creator = some t ∨ c.creator = none

namespace Owned

variable {mem mem' : NodeMem τ} {t : τ} {i i' : Ids} {al fl : List ℕ} {n : ℕ} {c : DynNode τ}

/-- Every node of the lists is in memory. -/
theorem notMem_of_none (h : Owned mem t i al fl) {a : ℕ} (ha : mem a = none) : a ∉ al ++ fl := by
  rw [List.mem_append, not_or]
  constructor
  · intro hmem
    obtain ⟨xs, ys, rfl⟩ := List.append_of_mem hmem
    have hlink := (seg_append.mp h.seg).2.1
    rw [links, ha] at hlink
    exact absurd hlink (by simp)
  · intro hmem
    obtain ⟨c, hc⟩ := h.freed.isSome_of_mem hmem
    rw [ha] at hc
    exact absurd hc (by simp)

theorem zero_notMem (h : Owned mem t i al fl) (h0 : mem 0 = none) : 0 ∉ al :=
  fun hmem => h.notMem_of_none h0 (List.mem_append_left fl hmem)

/-- One can write to the nodes of the lists. -/
theorem valid (h : Owned mem t i al fl) {ps : List ℕ} (hps : ∀ p ∈ ps, p = 0 ∨ p ∈ al ++ fl) :
    mem.Valid ps := fun p hp => (hps p hp).imp_right fun hmem =>
  Option.isSome_iff_ne_none.2 fun hnone => h.notMem_of_none hnone hmem

/-- The lists stay as long as the pointers of their nodes do; a creator may be cleared. -/
theorem congr (h : Owned mem t i al fl) (halloc : i'.allocatedNodes = i.allocatedNodes)
    (hfreed : i'.freedNodes = i.freedNodes)
    (hlink : ∀ a ∈ al ++ fl, links mem' a = links mem a)
    (hcreator : ∀ a ∈ al, ∀ c', mem' a = some c' →
      c'.creator = none ∨ ∃ c, mem a = some c ∧ c'.creator = c.creator) :
    Owned mem' t i' al fl := by
  refine ⟨seg_congr (fun a ha => hlink a (List.mem_append_left fl ha)) h.seg, halloc.trans h.head,
    ?_, h.nodup, ?_⟩
  · rw [hfreed]
    refine h.freed.congr fun x hx => ?_
    have heq := congrArg (Option.map Prod.snd) (hlink x (List.mem_append_right al hx))
    rw [links, links, Option.map_map, Option.map_map] at heq
    exact heq
  · intro a ha c' hc'
    rcases hcreator a ha c' hc' with hnone | ⟨c, hc, heq⟩
    · exact Or.inr hnone
    · rw [heq]
      exact h.creator a ha c hc

/-- The list of allocated nodes without the node `n` that `remove_node_from_allocated` unlinks. -/
theorem unlink (h : Owned mem t i al fl) (h0 : mem 0 = none) (hn : n ∈ al) (hc : mem n = some c)
    {i' : Ids} (hhead : i'.allocatedNodes = if n = i.allocatedNodes then c.dynNext
      else i.allocatedNodes) (hfreed : i'.freedNodes = i.freedNodes) :
    Owned ((mem.setNext c.dynPrev c.dynNext).setPrev c.dynNext c.dynPrev) t i' (al.erase n) fl ∧
      (c.dynNext = 0 ∨ c.dynNext ∈ al.erase n) ∧ (c.dynPrev = 0 ∨ c.dynPrev ∈ al.erase n) := by
  have hzero := h.zero_notMem h0
  have hal := h.nodup.of_append_left
  obtain ⟨xs, ys, rfl⟩ := List.append_of_mem hn
  have hnx : n ∉ xs := fun hmem => (List.nodup_append'.mp hal).2.2 hmem (by simp)
  have herase : (xs ++ n :: ys).erase n = xs ++ ys := by
    rw [List.erase_append_right _ hnx, List.erase_cons_head]
  obtain ⟨hxs, hlink, hys⟩ := seg_append.mp h.seg
  rw [links, hc, Option.map_some, Option.some_inj, Prod.mk.injEq] at hlink
  obtain ⟨hprev, hnext⟩ := hlink
  have hnd : (xs ++ ys).Nodup :=
    hal.sublist ((List.Sublist.refl xs).append (List.sublist_cons_self n ys))
  have h0' : 0 ∉ xs ++ ys := fun hmem =>
    hzero (((List.Sublist.refl xs).append (List.sublist_cons_self n ys)).subset hmem)
  rw [herase]
  refine ⟨⟨?_, ?_, ?_, ?_, ?_⟩, ?_, ?_⟩
  · rw [links_join h0, hprev, hnext]
    exact seg_join hnd h0' hxs hys
  · rw [hhead, h.head, hnext]
    cases xs with
    | nil => simp
    | cons x xs =>
      have hne : n ≠ x := fun he => hnx (he ▸ List.mem_cons_self)
      simp [hne]
  · rw [hfreed]
    refine h.freed.congr fun a ha => ?_
    -- the neighbours of `n` are allocated, so no freed node is written
    have hnot : a ∉ xs ++ n :: ys := fun hmem => (List.nodup_append'.mp h.nodup).2.2 hmem ha
    have hap : a ≠ c.dynPrev := by
      intro he
      rw [he, hprev] at ha hnot
      by_cases hx : xs = []
      · subst hx
        exact h.freed.ne_zero ha
      · exact hnot (List.mem_append_left _ (getLastD_mem hx))
    have han : a ≠ c.dynNext := by
      intro he
      rw [he, hnext] at ha hnot
      by_cases hy : ys = []
      · subst hy
        exact h.freed.ne_zero ha
      · exact hnot (List.mem_append_right _ (List.mem_cons_of_mem n (headD_mem hy)))
    rw [setPrev_of_ne han, setNext_of_ne hap]
  · refine h.nodup.sublist (List.Sublist.append ?_ (List.Sublist.refl fl))
    exact (List.Sublist.refl xs).append (List.sublist_cons_self n ys)
  · intro a ha c' hc'
    obtain ⟨c'', hc'', heq⟩ := exists_of_core (core_setPrev.trans core_setNext) hc'
    have hmem : a ∈ xs ++ n :: ys :=
      ((List.Sublist.refl xs).append (List.sublist_cons_self n ys)).subset ha
    have hcr : c'.creator = c''.creator := congrArg (fun k => k.2.2) heq
    rw [hcr]
    exact h.creator a hmem c'' hc''
  · rw [hnext]
    by_cases hy : ys = []
    · subst hy
      exact Or.inl rfl
    · exact Or.inr (List.mem_append_right xs (headD_mem hy))
  · rw [hprev]
    by_cases hx : xs = []
    · subst hx
      exact Or.inl rfl
    · exact Or.inr (List.mem_append_left ys (getLastD_mem hx))

/-- A node outside of the lists is put in front of the freed nodes. -/
theorem free (h : Owned mem t i al fl) (hn0 : n ≠ 0) (hn : n ∉ al ++ fl) (hc : mem n = some c)
    (halloc : i'.allocatedNodes = i.allocatedNodes) (hfreed : i'.freedNodes = n) :
    Owned (((mem.setPrev n 0).setNext n i.freedNodes).setPrev i.freedNodes n) t i' al
      (n :: fl) := by
  have hhead := h.freed.headD
  -- the allocated nodes are not written
  have hsame : ∀ a ∈ al, ((mem.setPrev n 0).setNext n i.freedNodes).setPrev i.freedNodes n a =
      mem a := by
    intro a ha
    have han : a ≠ n := by
      rintro rfl
      exact hn (List.mem_append_left fl ha)
    by_cases hf : i.freedNodes = 0
    · rw [setPrev, if_pos hf, setNext_of_ne han, setPrev_of_ne han]
    · have haf : a ≠ i.freedNodes := by
        rintro rfl
        have hmem : i.freedNodes ∈ fl := by
          rw [hhead]
          refine headD_mem ?_
          rintro rfl
          exact hf hhead
        exact (List.nodup_append'.mp h.nodup).2.2 ha hmem
      rw [setPrev_of_ne haf, setNext_of_ne han, setPrev_of_ne han]
  refine ⟨seg_congr (fun a ha => ?_) h.seg, halloc.trans h.head, ?_, ?_, ?_⟩
  · rw [links, links, hsame a ha]
  · rw [hfreed]
    have hnf : n ≠ i.freedNodes := by
      rintro rfl
      refine hn (List.mem_append_right al ?_)
      rw [hhead]
      refine headD_mem ?_
      rintro rfl
      exact hn0 hhead
    refine ⟨rfl, hn0, { c with dynPrev := 0, dynNext := i.freedNodes }, ?_, ?_⟩
    · rw [setPrev_of_ne hnf, setNext_apply, if_pos ⟨rfl, hn0⟩, setPrev_apply, if_pos ⟨rfl, hn0⟩, hc]
      rfl
    · refine h.freed.congr fun a ha => ?_
      have han : a ≠ n := by
        rintro rfl
        exact hn (List.mem_append_right al ha)
      rw [setPrev_apply, setNext_of_ne han, setPrev_of_ne han]
      split
      · rw [Option.map_map]
        rfl
      · rfl
  · have hperm : (al ++ n :: fl).Perm (n :: (al ++ fl)) := List.perm_middle
    exact hperm.nodup_iff.mpr (List.nodup_cons.mpr ⟨hn, h.nodup⟩)
  · intro a ha c' hc'
    rw [hsame a ha] at hc'
    exact h.creator a ha c' hc'

/-- A node outside of the lists is written, or returned to the allocator. -/
theorem write (h : Owned mem t i al fl) (hn : n ∉ al ++ fl) (v : Option (DynNode τ))
    (halloc : i'.allocatedNodes = i.allocatedNodes) (hfreed : i'.freedNodes = i.freedNodes) :
    Owned (Function.update mem n v) t i' al fl := by
  have hne : ∀ a ∈ al ++ fl, a ≠ n := by
    rintro a ha rfl
    exact hn ha
  refine h.congr halloc hfreed (fun a ha => ?_) fun a ha c' hc' => ?_
  · rw [links, links, Function.update_of_ne (hne a ha)]
  · rw [Function.update_of_ne (hne a (List.mem_append_left fl ha))] at hc'
    exact Or.inr ⟨c', hc', rfl⟩

/-- The freed nodes after `remove_node_from_allocated`. -/
def freedAfter (i : Ids) (n : ℕ) (fl : List ℕ) : List ℕ :=
  if i.totalFreed = 32 then fl else n :: fl

theorem mem_freedAfter {a : ℕ} (ha : a ∈ freedAfter i n fl) : a = n ∨ a ∈ fl := by
  rw [freedAfter] at ha
  split at ha
  · exact Or.inr ha
  · exact List.mem_cons.mp ha

/-- **`remove_node_from_allocated`** takes the node out of the allocated ones; it is freed or
returned to the allocator. -/
theorem remove (h : Owned mem t i al fl) (h0 : mem 0 = none) (hn : n ∈ al) (hc : mem n = some c)
    {r : Ids × NodeMem τ × ℕ} (hr : r = i.removeNodeFromAllocated mem n c) :
    Owned r.2.1 t r.1 (al.erase n) (freedAfter i n fl) ∧ (r.2.2 = 0 ∨ r.2.2 ∈ al.erase n) := by
  have hn0 : n ≠ 0 := by
    rintro rfl
    exact h.zero_notMem h0 hn
  have hal := h.nodup.of_append_left
  have hout : n ∉ al.erase n ++ fl := by
    rw [List.mem_append, not_or]
    exact ⟨hal.not_mem_erase, fun hmem => (List.nodup_append'.mp h.nodup).2.2 hn hmem⟩
  have hcn : ∃ c', ((mem.setNext c.dynPrev c.dynNext).setPrev c.dynNext c.dynPrev) n = some c' := by
    have hcore : (((mem.setNext c.dynPrev c.dynNext).setPrev c.dynNext c.dynPrev) n).map core =
        (mem n).map core := by
      rw [core_setPrev, core_setNext]
    rw [hc, Option.map_some, Option.map_eq_some_iff] at hcore
    obtain ⟨c', hc', -⟩ := hcore
    exact ⟨c', hc'⟩
  obtain ⟨c', hc'⟩ := hcn
  obtain ⟨howned, hnext, -⟩ := h.unlink h0 hn hc
    (rfl : ({ i with allocatedNodes := if n = i.allocatedNodes then c.dynNext
      else i.allocatedNodes } : Ids).allocatedNodes = _) rfl
  rw [Ids.removeNodeFromAllocated] at hr
  rw [freedAfter]
  split at hr
  · next hfull =>
    subst hr
    rw [if_pos hfull]
    exact ⟨howned.write hout none rfl rfl, hnext⟩
  · next hfull =>
    subst hr
    rw [if_neg hfull]
    exact ⟨howned.free hn0 hout hc' rfl rfl, hnext⟩

/-- The pointer to the freed nodes. -/
theorem freedNodes_mem (h : Owned mem t i al fl) : i.freedNodes = 0 ∨ i.freedNodes ∈ fl := by
  rw [h.freed.headD]
  by_cases hfl : fl = []
  · subst hfl
    exact Or.inl rfl
  · exact Or.inr (headD_mem hfl)

/-- The pointer to the allocated nodes. -/
theorem allocatedNodes_mem (h : Owned mem t i al fl) :
    i.allocatedNodes = 0 ∨ i.allocatedNodes ∈ al := by
  rw [h.head]
  by_cases hal : al = []
  · subst hal
    exact Or.inl rfl
  · exact Or.inr (headD_mem hal)

/-- `remove_node_from_allocated` writes nothing outside of the lists. -/
theorem remove_frame (h : Owned mem t i al fl) (h0 : mem 0 = none) (hn : n ∈ al)
    (hc : mem n = some c) {a : ℕ} (ha0 : a ≠ 0) (ha : a ∉ al ++ fl) :
    (i.removeNodeFromAllocated mem n c).2.1 a = mem a := by
  rw [List.mem_append, not_or] at ha
  have hne : ∀ p, p = 0 ∨ p ∈ al ++ fl → a ≠ p := by
    rintro p (rfl | hp) rfl
    · exact ha0 rfl
    · rw [List.mem_append] at hp
      exact hp.elim ha.1 ha.2
  obtain ⟨-, hnext, hprev⟩ := h.unlink h0 hn hc
    (rfl : ({ i with allocatedNodes := if n = i.allocatedNodes then c.dynNext
      else i.allocatedNodes } : Ids).allocatedNodes = _) rfl
  have han : a ≠ n := hne n (Or.inr (List.mem_append_left fl hn))
  have hap : a ≠ c.dynPrev :=
    hne _ (hprev.imp_right fun hm => List.mem_append_left fl (List.mem_of_mem_erase hm))
  have hax : a ≠ c.dynNext :=
    hne _ (hnext.imp_right fun hm => List.mem_append_left fl (List.mem_of_mem_erase hm))
  have haf : a ≠ i.freedNodes :=
    hne _ (h.freedNodes_mem.imp_right fun hm => List.mem_append_right al hm)
  rw [Ids.removeNodeFromAllocated]
  split
  · dsimp only
    rw [Function.update_of_ne han, setPrev_of_ne hax, setNext_of_ne hap]
  · dsimp only
    rw [setPrev_of_ne haf, setNext_of_ne han, setPrev_of_ne han, setPrev_of_ne hax,
      setNext_of_ne hap]

theorem valid_allocatedNodes (h : Owned mem t i al fl) : mem.Valid [i.allocatedNodes] :=
  h.valid fun _ hp => List.mem_singleton.1 hp ▸
    h.allocatedNodes_mem.imp_right (List.mem_append_left fl)

theorem valid_neighbours (h : Owned mem t i al fl) (h0 : mem 0 = none) (hn : n ∈ al)
    (hc : mem n = some c) : mem.Valid (i.neighbours c) := by
  obtain ⟨-, hnext, hprev⟩ := h.unlink h0 hn hc (rfl : ({ i with
    allocatedNodes := if n = i.allocatedNodes then c.dynNext
      else i.allocatedNodes } : Ids).allocatedNodes = _) rfl
  refine h.valid fun p hp => ?_
  simp only [Ids.neighbours, List.mem_cons, List.not_mem_nil, or_false] at hp
  rcases hp with rfl | rfl | rfl
  · exact hprev.imp_right fun hm => List.mem_append_left fl (List.mem_of_mem_erase hm)
  · exact hnext.imp_right fun hm => List.mem_append_left fl (List.mem_of_mem_erase hm)
  · exact h.freedNodes_mem.imp_right (List.mem_append_right al)

/-- The first freed node leaves its list; what is written to it does not matter. -/
theorem pop (h : Owned mem t i al fl) (hne : i.freedNodes ≠ 0) (hc : mem i.freedNodes = some c)
    (v : Option (DynNode τ)) {i' : Ids} (halloc : i'.allocatedNodes = i.allocatedNodes)
    (hfreed : i'.freedNodes = c.dynNext) :
    ∃ fl', fl = i.freedNodes :: fl' ∧
      Owned (Function.update mem i.freedNodes v) t i' al fl' := by
  have hf := h.freed
  cases fl with
  | nil => exact absurd hf hne
  | cons x fl' =>
    obtain ⟨rfl, -, c', hc', hrest⟩ := hf
    rw [hc, Option.some_inj] at hc'
    subst hc'
    have hnd := h.nodup
    rw [List.nodup_middle, List.nodup_cons] at hnd
    have hout : ∀ a ∈ al ++ fl', a ≠ i.freedNodes := by
      rintro a ha rfl
      exact hnd.1 ha
    refine ⟨fl', rfl, ?_, halloc.trans h.head, ?_, hnd.2, ?_⟩
    · refine seg_congr (fun a ha => ?_) h.seg
      rw [links, links, Function.update_of_ne (hout a (List.mem_append_left _ ha))]
    · rw [hfreed]
      refine hrest.congr fun a ha => ?_
      rw [Function.update_of_ne (hout a (List.mem_append_right _ ha))]
    · intro a ha c' hc'
      rw [Function.update_of_ne (hout a (List.mem_append_left _ ha))] at hc'
      exact h.creator a ha c' hc'

/-- The node that `add_allocated_node` adds. -/
theorem add_self (h : Owned mem t i al fl) (hn0 : n ≠ 0) (hn : n ∉ al) (hc : mem n = some c) :
    (i.addAllocatedNode mem t n).2 n =
      some { c with creator := some t, dynNext := i.allocatedNodes } := by
  have hhead : n ≠ i.allocatedNodes := by
    rcases h.allocatedNodes_mem with hz | hmem
    · rw [hz]
      exact hn0
    · rintro rfl
      exact hn hmem
  rw [Ids.addAllocatedNode]
  dsimp only
  rw [setNext_apply, if_pos ⟨rfl, hn0⟩, setPrev_of_ne hhead, setCreator, Function.update_self, hc]
  rfl

/-- **`add_allocated_node`** puts a constructed node in front of the allocated ones. -/
theorem add (h : Owned mem t i al fl) (h0 : mem 0 = none) (hn0 : n ≠ 0) (hn : n ∉ al ++ fl)
    (hc : mem n = some c) (hprev : c.dynPrev = 0) :
    Owned (i.addAllocatedNode mem t n).2 t (i.addAllocatedNode mem t n).1 (n :: al) fl := by
  rw [List.mem_append, not_or] at hn
  have hself := h.add_self hn0 hn.1 hc
  have hother : ∀ a, a ≠ n → (i.addAllocatedNode mem t n).2 a =
      mem.setPrev i.allocatedNodes n a := by
    intro a ha
    rw [Ids.addAllocatedNode]
    dsimp only
    rw [setNext_of_ne ha, setPrev_apply, setPrev_apply, setCreator, Function.update_of_ne ha]
  have hne : ∀ a ∈ al, a ≠ n := by
    rintro a ha rfl
    exact hn.1 ha
  refine ⟨⟨?_, ?_⟩, rfl, ?_, ?_, ?_⟩
  · rw [links, hself, Option.map_some, h.head]
    exact congrArg (fun p => some (p, al.headD 0)) hprev
  · have hjoin := seg_join_right h.nodup.of_append_left hn.1 h.seg
    refine seg_congr (fun a ha => ?_) hjoin
    rw [links, hother a (hne a ha), setPrev_apply, join, links, ← h.head]
    by_cases hah : a = i.allocatedNodes
    · have ha0 : i.allocatedNodes ≠ 0 := by
        rintro hz
        rw [hah, hz] at ha
        exact h.zero_notMem h0 ha
      rw [if_pos ⟨hah, ha0⟩]
      have hne' : i.allocatedNodes ≠ n := hah ▸ hne a ha
      cases mem a <;> simp [hah, hne']
    · rw [if_neg fun hh => hah hh.1]
      cases mem a <;> simp [hah, hne a ha]
  · refine h.freed.congr fun a ha => ?_
    have han : a ≠ n := by
      rintro rfl
      exact hn.2 ha
    rw [hother a han, setPrev_apply]
    split
    · rw [Option.map_map]
      rfl
    · rfl
  · rw [List.cons_append, List.nodup_cons, List.mem_append, not_or]
    exact ⟨hn, h.nodup⟩
  · intro a ha c' hc'
    rw [List.mem_cons] at ha
    rcases ha with rfl | ha
    · rw [hself] at hc'
      obtain rfl := Option.some.inj hc'
      exact Or.inl rfl
    · have hcore : ((i.addAllocatedNode mem t n).2 a).map core = (mem a).map core := by
        rw [hother a (hne a ha), core_setPrev]
      obtain ⟨c'', hc'', heq⟩ := exists_of_core hcore hc'
      have hcr : c'.creator = c''.creator := congrArg (fun k => k.2.2) heq
      rw [hcr]
      exact h.creator a ha c'' hc''

end Owned

/-- `remove_node_from_allocated` keeps the identifiers and creators of the other nodes. -/
theorem Ids.core_remove {mem : NodeMem τ} {i : Ids} {n a : ℕ} {c : DynNode τ} (ha : a ≠ n) :
    ((i.removeNodeFromAllocated mem n c).2.1 a).map core = (mem a).map core := by
  rw [Ids.removeNodeFromAllocated]
  split
  · dsimp only
    rw [Function.update_of_ne ha, core_setPrev, core_setNext]
  · dsimp only
    rw [core_setPrev, core_setNext, core_setPrev, core_setPrev, core_setNext]

/-- The node that is removed keeps its identifiers, if it is not returned to the allocator. -/
theorem Ids.core_remove_self {mem : NodeMem τ} {i : Ids} {n : ℕ} {c c' : DynNode τ}
    (hc' : (i.removeNodeFromAllocated mem n c).2.1 n = some c') :
    ∃ c, mem n = some c ∧ core c' = core c := by
  rw [Ids.removeNodeFromAllocated] at hc'
  split at hc'
  · dsimp only at hc'
    rw [Function.update_self] at hc'
    exact absurd hc' (by simp)
  · refine exists_of_core ?_ hc'
    rw [core_setPrev, core_setNext, core_setPrev, core_setPrev, core_setNext]

open Owned

namespace IdsState

/-! ## The lists of all threads -/

/-- **Every node is in one list of one thread**, and the nodes in use are allocated nodes of the
thread that created them. -/
structure Lists (s : IdsState τ) (al fl : τ → List ℕ) : Prop where
  null : s.mem 0 = none
  owned : ∀ t i, s.ids t = some i → Owned s.mem t i (al t) (fl t)
  off : ∀ t, s.ids t = none → al t = [] ∧ fl t = []
  apart : ∀ t u a, a ∈ al t ++ fl t → a ∈ al u ++ fl u → t = u
  live : ∀ a ∈ s.live, ∃ t c, a ∈ al t ∧ s.mem a = some c ∧ c.creator = some t
  nodup : s.live.Nodup
  freeing : ∀ t p, s.pc t = .freeing p → p = 0 ∨ p ∈ al t

variable {s s' : IdsState τ} {al fl : τ → List ℕ}

/-- Every node of a list is in memory. -/
theorem Lists.notMem_of_none (h : s.Lists al fl) {a : ℕ} (ha : s.mem a = none) (u : τ) :
    a ∉ al u ++ fl u := by
  cases hj : s.ids u with
  | none =>
    rw [(h.off u hj).1, (h.off u hj).2]
    simp
  | some j => exact (h.owned u j hj).notMem_of_none ha

variable [DecidableEq τ]

/-- The lists after a step of thread `t` that leaves the lists of the others alone. -/
theorem Lists.update (h : s.Lists al fl) {t : τ} {i : Ids} {pc : IdsPc τ} {al' fl' : List ℕ}
    (hids : s'.ids = Function.update s.ids t (some i))
    (hpc : s'.pc = Function.update s.pc t pc) (hnull : s'.mem 0 = none)
    (howned : Owned s'.mem t i al' fl')
    (hnew : ∀ a ∈ al' ++ fl', ∀ u, u ≠ t → a ∉ al u ++ fl u)
    (hframe : ∀ u, u ≠ t → ∀ a ∈ al u ++ fl u, s'.mem a = s.mem a)
    (hlive : ∀ a ∈ s'.live, (a ∈ s.live ∧ a ∉ al t) ∨
      (a ∈ al' ∧ ∃ c, s'.mem a = some c ∧ c.creator = some t))
    (hnodup : s'.live.Nodup) (hfreeing : ∀ p, pc = .freeing p → p = 0 ∨ p ∈ al') :
    s'.Lists (Function.update al t al') (Function.update fl t fl') := by
  have hself : ∀ u, u ≠ t → Function.update al t al' u = al u ∧
      Function.update fl t fl' u = fl u := fun u hu =>
    ⟨Function.update_of_ne hu _ _, Function.update_of_ne hu _ _⟩
  refine ⟨hnull, ?_, ?_, ?_, ?_, hnodup, ?_⟩
  · intro u j hj
    by_cases hu : u = t
    · subst hu
      rw [hids, Function.update_self, Option.some_inj] at hj
      subst hj
      rw [Function.update_self, Function.update_self]
      exact howned
    · rw [hids, Function.update_of_ne hu] at hj
      rw [(hself u hu).1, (hself u hu).2]
      refine (h.owned u j hj).congr rfl rfl (fun a ha => ?_) fun a ha c' hc' => ?_
      · rw [links, links, hframe u hu a ha]
      · rw [hframe u hu a (List.mem_append_left _ ha)] at hc'
        exact Or.inr ⟨c', hc', rfl⟩
  · intro u hu
    by_cases hut : u = t
    · subst hut
      rw [hids, Function.update_self] at hu
      exact absurd hu (by simp)
    · rw [hids, Function.update_of_ne hut] at hu
      rw [(hself u hut).1, (hself u hut).2]
      exact h.off u hu
  · intro u v a hu hv
    by_cases hut : u = t
    · subst hut
      by_cases hvt : v = u
      · exact hvt.symm
      · rw [Function.update_self, Function.update_self] at hu
        rw [(hself v hvt).1, (hself v hvt).2] at hv
        exact absurd hv (hnew a hu v hvt)
    · rw [(hself u hut).1, (hself u hut).2] at hu
      by_cases hvt : v = t
      · subst hvt
        rw [Function.update_self, Function.update_self] at hv
        exact absurd hu (hnew a hv u hut)
      · rw [(hself v hvt).1, (hself v hvt).2] at hv
        exact h.apart u v a hu hv
  · intro a ha
    rcases hlive a ha with ⟨hold, hnot⟩ | ⟨hmem, c, hc, hcr⟩
    · obtain ⟨u, c, hu, hc, hcr⟩ := h.live a hold
      have hut : u ≠ t := by
        rintro rfl
        exact hnot hu
      refine ⟨u, c, ?_, ?_, hcr⟩
      · rw [(hself u hut).1]
        exact hu
      · rw [hframe u hut a (List.mem_append_left _ hu)]
        exact hc
    · refine ⟨t, c, ?_, hc, hcr⟩
      rw [Function.update_self]
      exact hmem
  · intro u p hp
    by_cases hu : u = t
    · subst hu
      rw [hpc, Function.update_self] at hp
      rw [Function.update_self]
      exact hfreeing p hp
    · rw [hpc, Function.update_of_ne hu] at hp
      rw [(hself u hu).1]
      exact h.freeing u p hp

omit [DecidableEq τ] in
/-- The lists after a step that changes neither memory nor lists. -/
theorem Lists.congr (h : s.Lists al fl) (hmem : s'.mem = s.mem) (hlive : s'.live = s.live)
    (hids : ∀ u i', s'.ids u = some i' → ∃ i, s.ids u = some i ∧
      i'.allocatedNodes = i.allocatedNodes ∧ i'.freedNodes = i.freedNodes)
    (hoff : ∀ u, s'.ids u = none → s.ids u = none)
    (hfreeing : ∀ u p, s'.pc u = .freeing p → s.pc u = .freeing p ∨ p = 0 ∨ p ∈ al u) :
    s'.Lists al fl := by
  refine ⟨?_, ?_, fun u hu => h.off u (hoff u hu), h.apart, ?_, ?_, ?_⟩
  · rw [hmem]
    exact h.null
  · intro u i' hi'
    obtain ⟨i, hi, halloc, hfreed⟩ := hids u i' hi'
    rw [hmem]
    exact (h.owned u i hi).congr halloc hfreed (fun _ _ => rfl) fun a _ c' hc' =>
      Or.inr ⟨c', hc', rfl⟩
  · rw [hlive, hmem]
    exact h.live
  · rw [hlive]
    exact h.nodup
  · intro u p hp
    rcases hfreeing u p hp with hold | hnew
    · exact h.freeing u p hold
    · exact hnew

/-- The lists after a step of thread `t` that changes neither memory nor lists. -/
theorem Lists.update_pc (h : s.Lists al fl) {t : τ} {i i' : Ids} {pc : IdsPc τ}
    (ht : s.ids t = some i) (hids : s'.ids = Function.update s.ids t (some i'))
    (hpc : s'.pc = Function.update s.pc t pc) (hmem : s'.mem = s.mem) (hlive : s'.live = s.live)
    (halloc : i'.allocatedNodes = i.allocatedNodes) (hfreed : i'.freedNodes = i.freedNodes)
    (hfreeing : ∀ p, pc = .freeing p → p = 0 ∨ p ∈ al t) : s'.Lists al fl := by
  refine h.congr hmem hlive ?_ ?_ ?_
  · intro u j hj
    rw [hids] at hj
    by_cases hu : u = t
    · subst hu
      rw [Function.update_self, Option.some_inj] at hj
      subst hj
      exact ⟨i, ht, halloc, hfreed⟩
    · rw [Function.update_of_ne hu] at hj
      exact ⟨j, hj, rfl, rfl⟩
  · intro u hu
    rw [hids] at hu
    by_cases hut : u = t
    · subst hut
      rw [Function.update_self] at hu
      exact absurd hu (by simp)
    · rwa [Function.update_of_ne hut] at hu
  · intro u p hp
    rw [hpc] at hp
    by_cases hu : u = t
    · subst hu
      rw [Function.update_self] at hp
      exact Or.inr (hfreeing p hp)
    · rw [Function.update_of_ne hu] at hp
      exact Or.inl hp

/-- The lists after thread `t` has removed the node `n`. -/
theorem Lists.remove (h : s.Lists al fl) {t : τ} {i : Ids} {pc : IdsPc τ} {n : ℕ} {c : DynNode τ}
    {r : Ids × NodeMem τ × ℕ} (ht : s.ids t = some i) (hn : n ∈ al t) (hc : s.mem n = some c)
    (hr : r = i.removeNodeFromAllocated s.mem n c)
    (hids : s'.ids = Function.update s.ids t (some r.1)) (hmem : s'.mem = r.2.1)
    (hpc : s'.pc = Function.update s.pc t pc) (hlive : ∀ a ∈ s'.live, a ∈ s.live ∧ a ≠ n)
    (hnodup : s'.live.Nodup) (hfreeing : ∀ p, pc = .freeing p → p = r.2.2) :
    s'.Lists (Function.update al t ((al t).erase n))
      (Function.update fl t (freedAfter i n (fl t))) := by
  have howned := h.owned t i ht
  obtain ⟨howned', hnext⟩ := howned.remove h.null hn hc hr
  have hcore : ∀ a, a ≠ n → (s'.mem a).map core = (s.mem a).map core := by
    intro a ha
    rw [hmem, hr, Ids.core_remove ha]
  have hn0 : n ≠ 0 := by
    rintro rfl
    exact howned.zero_notMem h.null hn
  -- the nodes of the new lists were in the lists of `t` before
  have hsub : ∀ a ∈ (al t).erase n ++ freedAfter i n (fl t), a ∈ al t ++ fl t := by
    intro a ha
    rcases List.mem_append.mp ha with ha | ha
    · exact List.mem_append_left _ (List.mem_of_mem_erase ha)
    · rcases mem_freedAfter ha with rfl | ha
      · exact List.mem_append_left _ hn
      · exact List.mem_append_right _ ha
  refine h.update hids hpc ?_ (hmem ▸ howned') ?_ ?_ ?_ hnodup ?_
  · have h0 := hcore 0 hn0.symm
    rwa [h.null, Option.map_none, Option.map_eq_none_iff] at h0
  · intro a ha u hu hau
    exact hu (h.apart u t a hau (hsub a ha))
  · intro u hu a ha
    have ha0 : a ≠ 0 := by
      rintro rfl
      exact h.notMem_of_none h.null u ha
    rw [hmem, hr]
    exact howned.remove_frame h.null hn hc ha0 fun hat => hu (h.apart u t a ha hat)
  · intro a ha
    obtain ⟨hold, hne⟩ := hlive a ha
    by_cases hat : a ∈ al t
    · obtain ⟨u, c', hu, hc', hcr⟩ := h.live a hold
      obtain rfl := h.apart u t a (List.mem_append_left _ hu) (List.mem_append_left _ hat)
      obtain ⟨c'', hc'', heq⟩ := exists_of_core (hcore a hne).symm hc'
      refine Or.inr ⟨(List.mem_erase_of_ne hne).mpr hat, c'', hc'', ?_⟩
      rw [← hcr]
      exact (congrArg (fun k => k.2.2) heq).symm
    · exact Or.inl ⟨hold, hat⟩
  · intro p hp
    rw [hfreeing p hp]
    exact hnext

omit [DecidableEq τ] in
/-- No node in use is freed. -/
theorem Lists.notMem_live (h : s.Lists al fl) {t : τ} {i : Ids} {n : ℕ} (ht : s.ids t = some i)
    (hn : n ∈ fl t) : n ∉ s.live := by
  intro hlive
  obtain ⟨u, c, hu, -, -⟩ := h.live n hlive
  obtain rfl := h.apart u t n (List.mem_append_left _ hu) (List.mem_append_right _ hn)
  exact (List.nodup_append'.mp (h.owned u i ht).nodup).2.2 hu hn

/-- The lists after thread `t` has created the node `n`, from the state `i₁`, `mem₁` in which the
node is constructed. -/
theorem Lists.insert (h : s.Lists al fl) {t : τ} {i₁ : Ids} {mem₁ : NodeMem τ} {fl' : List ℕ}
    {n : ℕ} {c : DynNode τ} {i' : Ids} (howned : Owned mem₁ t i₁ (al t) fl')
    (hsub : ∀ a ∈ fl', a ∈ fl t) (hn0 : n ≠ 0) (hn : n ∉ al t ++ fl')
    (hother : ∀ u, u ≠ t → n ∉ al u ++ fl u) (hnlive : n ∉ s.live)
    (hmem₁ : ∀ a, a ≠ n → mem₁ a = s.mem a) (hc : mem₁ n = some c) (hprev : c.dynPrev = 0)
    (hids : s'.ids = Function.update s.ids t (some i'))
    (halloc : i'.allocatedNodes = n) (hfreed : i'.freedNodes = i₁.freedNodes)
    (hmem : s'.mem = (i₁.addAllocatedNode mem₁ t n).2)
    (hpc : s'.pc = Function.update s.pc t .idle) (hlive : s'.live = n :: s.live) :
    s'.Lists (Function.update al t (n :: al t)) (Function.update fl t fl') := by
  have h0 : mem₁ 0 = none := by
    rw [hmem₁ 0 hn0.symm]
    exact h.null
  have hadd := howned.add h0 hn0 hn hc hprev
  have howned' : Owned s'.mem t i' (n :: al t) fl' := by
    rw [hmem]
    exact hadd.congr halloc hfreed (fun _ _ => rfl) fun a _ c' hc' => Or.inr ⟨c', hc', rfl⟩
  have hcore : ∀ a, a ≠ n → (s'.mem a).map core = (s.mem a).map core := by
    intro a ha
    rw [hmem, Ids.addAllocatedNode]
    dsimp only
    rw [core_setNext, core_setPrev, setCreator, Function.update_of_ne ha, hmem₁ a ha]
  refine h.update hids hpc ?_ howned' ?_ ?_ ?_ ?_ (by simp)
  · have hz := hcore 0 hn0.symm
    rwa [h.null, Option.map_none, Option.map_eq_none_iff] at hz
  · intro a ha u hu hau
    rw [List.cons_append, List.mem_cons, List.mem_append] at ha
    rcases ha with rfl | ha | ha
    · exact hother u hu hau
    · exact hu (h.apart u t a hau (List.mem_append_left _ ha))
    · exact hu (h.apart u t a hau (List.mem_append_right _ (hsub a ha)))
  · intro u hu a ha
    have han : a ≠ n := by
      rintro rfl
      exact hother u hu ha
    have hah : a ≠ i₁.allocatedNodes := by
      rcases howned.allocatedNodes_mem with hz | hmem'
      · rw [hz]
        rintro rfl
        exact h.notMem_of_none h.null u ha
      · rintro rfl
        exact hu (h.apart u t _ ha (List.mem_append_left _ hmem'))
    rw [hmem, Ids.addAllocatedNode]
    dsimp only
    rw [setNext_of_ne han, setPrev_of_ne hah, setCreator, Function.update_of_ne han, hmem₁ a han]
  · intro a ha
    rw [hlive, List.mem_cons] at ha
    by_cases han : a = n
    · subst han
      have hself := howned.add_self hn0 (fun hm => hn (List.mem_append_left _ hm)) hc
      rw [← hmem] at hself
      exact Or.inr ⟨List.mem_cons_self, _, hself, rfl⟩
    · have hold := ha.resolve_left han
      by_cases hat : a ∈ al t
      · obtain ⟨u, c', hu, hc', hcr⟩ := h.live a hold
        obtain rfl := h.apart u t a (List.mem_append_left _ hu) (List.mem_append_left _ hat)
        obtain ⟨c'', hc'', heq⟩ := exists_of_core (hcore a han).symm hc'
        refine Or.inr ⟨List.mem_cons_of_mem n hat, c'', hc'', ?_⟩
        rw [← hcr]
        exact (congrArg (fun k => k.2.2) heq).symm
      · exact Or.inl ⟨hold, hat⟩
  · rw [hlive, List.nodup_cons]
    exact ⟨hnlive, h.nodup⟩

/-- The lists after another thread has cleared the creator of the node `n`. -/
theorem Lists.clear (h : s.Lists al fl) {t : τ} {pc : IdsPc τ} {n : ℕ} (hids : s'.ids = s.ids)
    (hmem : s'.mem = s.mem.setCreator n none) (hpc : s'.pc = Function.update s.pc t pc)
    (hlive : ∀ a ∈ s'.live, a ∈ s.live ∧ a ≠ n) (hnodup : s'.live.Nodup)
    (hfreeing : ∀ p, pc ≠ .freeing p) : s'.Lists al fl := by
  have hother : ∀ a, a ≠ n → s'.mem a = s.mem a := by
    intro a ha
    rw [hmem, setCreator, Function.update_of_ne ha]
  have hself : s'.mem n = (s.mem n).map fun c => { c with creator := none } := by
    rw [hmem, setCreator, Function.update_self]
  refine ⟨?_, ?_, ?_, h.apart, ?_, hnodup, ?_⟩
  · by_cases hn : n = 0
    · subst hn
      rw [hself, h.null]
      rfl
    · rw [hother 0 (Ne.symm hn)]
      exact h.null
  · intro u i hu
    rw [hids] at hu
    refine (h.owned u i hu).congr rfl rfl (fun a _ => ?_) fun a _ c' hc' => ?_
    · by_cases ha : a = n
      · subst ha
        rw [links, links, hself, Option.map_map]
        rfl
      · rw [links, links, hother a ha]
    · by_cases ha : a = n
      · subst ha
        rw [hself, Option.map_eq_some_iff] at hc'
        obtain ⟨c, -, rfl⟩ := hc'
        exact Or.inl rfl
      · rw [hother a ha] at hc'
        exact Or.inr ⟨c', hc', rfl⟩
  · intro u hu
    rw [hids] at hu
    exact h.off u hu
  · intro a ha
    obtain ⟨hold, hne⟩ := hlive a ha
    obtain ⟨u, c, hu, hc, hcr⟩ := h.live a hold
    exact ⟨u, c, hu, (hother a hne).trans hc, hcr⟩
  · intro u p hp
    rw [hpc] at hp
    by_cases hu : u = t
    · subst hu
      rw [Function.update_self] at hp
      exact absurd hp (hfreeing p)
    · rw [Function.update_of_ne hu] at hp
      exact h.freeing u p hp

end IdsState

end Meld
