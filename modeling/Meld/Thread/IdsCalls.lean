import Meld.Lib.Drift
import Meld.Thread.IdsLists

/-!
# Creating and deleting nodes, call by call

Without interleaving, every function of `ids` is one step that goes on until it returns.  The lists
of allocated and of freed nodes, the totals and the uniqueness of the nodes in use are kept by every
call.  Two things are not.

`create_node` resets a pointer when it takes a freed node out of the list, but writes it to the node
that is taken and not to the one that is first then: with a second freed node, `dyn_prev` of that one
goes on pointing to the node that has left.  And `free_destroyed_nodes` takes a number from
`deleted_by_others` that it never counts up: once it has unlinked a node that another thread deleted,
the counter is too large.

* `IdsCall`, `IdsState.call`, `idsMachine`: the calls.
* `Sized`: the lists with their totals.
* `Kept`: all that an object should keep.
* `Harmless`: the calls that run into neither of the two.
* `KeptLists.start`, `KeptLists.remove`, `KeptLists.clear`, `KeptLists.inserted`: what becomes of the
  lists when an object is made, a node is deleted by its creator or by another thread, and a node is
  created.
-/

namespace Meld

open Linked NodeMem Owned

/-- The functions of `ids`.  `create` names the address that the allocator returns if a new node is
needed. -/
inductive IdsCall (τ : Type*) where
  | start (t : τ)
  | create (t : τ) (n : ℕ)
  | delete (t : τ) (n : ℕ)
  | free (t : τ)

namespace IdsState

variable {τ : Type*} [DecidableEq τ]

/-- The loop of `free_destroyed_nodes`. -/
def sweep (t : τ) : ℕ → IdsState τ → Option (IdsState τ)
  | 0, _ => none
  | fuel + 1, s =>
    match s.pc t with
    | .freeing _ => (s.step (.next t)).bind (sweep t fuel)
    | _ => some s

/-- The end of `create_node`, from where it looks at the freed nodes. -/
def finishCreate (s : IdsState τ) (t : τ) (n : ℕ) : Option (IdsState τ) :=
  (s.step (.next t)).bind fun s₃ =>
    match s₃.pc t with
    | .fresh => s₃.step (.fresh t n)
    | _ => some s₃

/-- `create_node` in one step. -/
def createNode (s : IdsState τ) (t : τ) (n : ℕ) : Option (IdsState τ) :=
  (s.ids t).bind fun i =>
    (s.step (.create t)).bind fun s₁ =>
      (sweep t (i.totalAllocated + 2) s₁).bind fun s₂ => s₂.finishCreate t n

/-- `delete_node` in one step. -/
def deleteAndCount (s : IdsState τ) (t : τ) (n : ℕ) : Option (IdsState τ) :=
  (s.step (.delete t n)).bind fun s₁ =>
    match s₁.pc t with
    | .deleting _ => s₁.step (.count t)
    | _ => some s₁

/-- `free_destroyed_nodes` in one step. -/
def freeDestroyedNodes (s : IdsState τ) (t : τ) : Option (IdsState τ) :=
  match s.ids t, s.pc t with
  | some i, .idle =>
    (sweep t (i.totalAllocated + 2) (s.put t i s.mem (.freeing i.allocatedNodes))).map fun s₁ =>
      { s₁ with pc := Function.update s₁.pc t .idle }
  | _, _ => none

/-- One call. -/
def call (s : IdsState τ) : IdsCall τ → Option (IdsState τ)
  | .start t => s.step (.start t)
  | .create t n => s.createNode t n
  | .delete t n => s.deleteAndCount t n
  | .free t => s.freeDestroyedNodes t

/-- Another thread has deleted the node. -/
def orphan (mem : NodeMem τ) (a : ℕ) : Bool := (mem a).any fun c => c.creator.isNone

/-- The lists, and the totals that count them. -/
structure Sized (s : IdsState τ) (al fl : τ → List ℕ) : Prop where
  lists : s.Lists al fl
  totalAllocated : ∀ t i, s.ids t = some i → i.totalAllocated = (al t).length
  totalFreed : ∀ t i, s.ids t = some i → i.totalFreed = (fl t).length

/-- The lists `al` of allocated and `fl` of freed nodes **are well-formed**: linked in both
directions and disjoint, with their totals; a freed node is not in use, and no node is in use
twice; `deleted_by_others` is the number of allocated nodes without a creator. -/
structure KeptLists (s : IdsState τ) (al fl : τ → List ℕ) : Prop extends Sized s al fl where
  freed : ∀ t i, s.ids t = some i → Seg (links s.mem) 0 (fl t) 0
  unused : ∀ t i, s.ids t = some i → ∀ a ∈ fl t, a ∉ s.live
  deletedByOthers : ∀ t i, s.ids t = some i →
    i.deletedByOthers = (al t).countP (orphan s.mem)

/-- **What the objects should keep.** -/
def Kept (s : IdsState τ) : Prop := ∃ al fl, s.KeptLists al fl

/-- **The calls that keep it**: nothing is swept, and the freed node that is taken is the only
one. -/
def Harmless (s : IdsState τ) : IdsCall τ → Prop
  | .create t _ => ∀ i ∈ s.ids t, i.manyDeleted = false ∧ i.totalFreed ≤ 1
  | .free t => ∀ i ∈ s.ids t, i.deletedByOthers = 0
  | _ => True

instance (s : IdsState τ) : DecidablePred s.Harmless
  | .create t _ => inferInstanceAs (Decidable (∀ i ∈ s.ids t, _ ∧ _))
  | .free t => inferInstanceAs (Decidable (∀ i ∈ s.ids t, _ = _))
  | .start _ | .delete _ _ => isTrue trivial

end IdsState

/-- The calls as a machine. -/
def idsMachine (τ : Type*) [DecidableEq τ] : Machine (IdsCall τ) Unit (IdsState τ) :=
  ⟨fun s c => (s.call c).map fun s' => ((), s')⟩

/-! ## Lists -/

section Lists

variable {τ : Type*} {mem mem' : NodeMem τ} {t : τ} {i : Ids} {al fl al' fl' : List ℕ} {a : ℕ}

/-- There is one way to follow the pointers. -/
theorem NodeMem.Freed.unique {l l' : List ℕ} (h : mem.Freed a l) (h' : mem.Freed a l') :
    l = l' := by
  induction l generalizing a l' with
  | nil =>
    cases l' with
    | nil => rfl
    | cons y l' => exact absurd h h'.2.1
  | cons x l ih =>
    obtain ⟨rfl, hne, c, hc, hl⟩ := h
    cases l' with
    | nil => exact absurd h' hne
    | cons y l' =>
      obtain ⟨rfl, -, c', hc', hl'⟩ := h'
      rw [hc, Option.some_inj] at hc'
      subst hc'
      rw [ih hl hl']

/-- A list that is linked in both directions can be followed. -/
theorem freed_of_seg {l : List ℕ} {p : ℕ} (h0 : 0 ∉ l) (h : Seg (links mem) p l 0) :
    mem.Freed (l.headD 0) l := by
  induction l generalizing p with
  | nil => rfl
  | cons x l ih =>
    obtain ⟨hx, hl⟩ := h
    obtain ⟨hx0, hl0⟩ := not_or.mp (mt List.mem_cons.mpr h0)
    obtain ⟨c, hc, hlinks⟩ := Option.map_eq_some_iff.1 hx
    refine ⟨rfl, Ne.symm hx0, c, hc, ?_⟩
    rw [(Prod.mk.inj hlinks).2]
    exact ih hl0 hl

/-- The lists of a thread are determined by its pointers. -/
theorem Owned.unique (h : Owned mem t i al fl) (h' : Owned mem t i al' fl') (h0 : mem 0 = none) :
    al = al' ∧ fl = fl' := by
  have hal := freed_of_seg (h.zero_notMem h0) h.seg
  have hal' := freed_of_seg (h'.zero_notMem h0) h'.seg
  rw [← h.head] at hal
  rw [← h'.head] at hal'
  exact ⟨hal.unique hal', h.freed.unique h'.freed⟩

/-- Unlinking an allocated node writes no freed one. -/
theorem Owned.unlink_freed (h : Owned mem t i al fl) (h0 : mem 0 = none) {n : ℕ} {c : DynNode τ}
    (hn : n ∈ al) (hc : mem n = some c) (ha : a ∈ fl) :
    ((mem.setNext c.dynPrev c.dynNext).setPrev c.dynNext c.dynPrev) a = mem a := by
  obtain ⟨-, hnext, hprev⟩ := h.unlink h0 hn hc
    (rfl : ({ i with allocatedNodes := if n = i.allocatedNodes then c.dynNext
      else i.allocatedNodes } : Ids).allocatedNodes = _) rfl
  have hne : ∀ p, p = 0 ∨ p ∈ al.erase n → a ≠ p := by
    rintro p (rfl | hp) rfl
    · exact h.freed.ne_zero ha
    · exact (List.nodup_append'.mp h.nodup).2.2 (List.mem_of_mem_erase hp) ha
  rw [setPrev_of_ne (hne _ hnext), setNext_of_ne (hne _ hprev)]

/-- The freed nodes stay linked in both directions when a node is removed. -/
theorem Owned.freed_remove (h : Owned mem t i al fl) (h0 : mem 0 = none) {n : ℕ} {c : DynNode τ}
    (hn : n ∈ al) (hc : mem n = some c) (hback : Seg (links mem) 0 fl 0) :
    Seg (links (i.removeNodeFromAllocated mem n c).2.1) 0 (freedAfter i n fl) 0 := by
  have hnfl : n ∉ fl := fun hmem => (List.nodup_append'.mp h.nodup).2.2 hn hmem
  have hn0 : n ≠ 0 := ne_of_mem_of_not_mem hn (h.zero_notMem h0)
  obtain ⟨mem₁, hmem₁⟩ :
      ∃ m, m = (mem.setNext c.dynPrev c.dynNext).setPrev c.dynNext c.dynPrev := ⟨_, rfl⟩
  have hsame : ∀ a ∈ fl, links mem₁ a = links mem a := fun a ha => by
    rw [links, links, hmem₁, h.unlink_freed h0 hn hc ha]
  rw [Ids.removeNodeFromAllocated, freedAfter, ← hmem₁]
  split
  · dsimp only
    refine seg_congr (fun a ha => ?_) hback
    rw [← hsame a ha, links, links, Function.update_of_ne (ne_of_mem_of_not_mem ha hnfl)]
  · -- the node comes to the front of the freed ones
    dsimp only
    have hself : ∃ c₁, mem₁ n = some c₁ := by
      have hcore : (mem₁ n).map core = (mem n).map core := by
        rw [hmem₁, core_setPrev, core_setNext]
      rw [hc, Option.map_some, Option.map_eq_some_iff] at hcore
      obtain ⟨c₁, hc₁, -⟩ := hcore
      exact ⟨c₁, hc₁⟩
    obtain ⟨c₁, hc₁⟩ := hself
    have hhead := h.freed.headD
    have hnhead : n ≠ i.freedNodes := by
      rcases h.freedNodes_mem with hz | hmem
      · rw [hz]
        exact hn0
      · exact (ne_of_mem_of_not_mem hmem hnfl).symm
    constructor
    · rw [links, setPrev_of_ne hnhead, setNext_apply, if_pos ⟨rfl, hn0⟩, setPrev_apply,
        if_pos ⟨rfl, hn0⟩, hc₁, ← hhead]
      rfl
    · have hjoin := seg_join_right (h.nodup.of_append_right) hnfl (seg_congr hsame hback)
      refine seg_congr (fun a ha => ?_) hjoin
      have han : a ≠ n := ne_of_mem_of_not_mem ha hnfl
      have ha0 : a ≠ 0 := ne_of_mem_of_not_mem ha h.freed.ne_zero
      rw [links, join, links, setPrev_apply, setNext_of_ne han, setPrev_of_ne han, ← hhead]
      by_cases hah : a = i.freedNodes
      · rw [if_pos ⟨hah, hah ▸ ha0⟩]
        cases mem₁ a <;> simp [hah, hnhead.symm]
      · rw [if_neg fun hh => hah hh.1]
        cases mem₁ a <;> simp [hah, han]

/-- The creator is all that is read of a node to see who has deleted it. -/
theorem IdsState.orphan_of_core (h : (mem' a).map core = (mem a).map core) :
    IdsState.orphan mem' a = IdsState.orphan mem a := by
  have hcreator : ∀ m : NodeMem τ, IdsState.orphan m a =
      ((m a).map core).any fun k => k.2.2.isNone := by
    intro m
    rw [IdsState.orphan]
    cases m a <;> rfl
  rw [hcreator, hcreator, h]

theorem IdsState.countP_orphan {l : List ℕ}
    (h : ∀ a ∈ l, (mem' a).map core = (mem a).map core) :
    l.countP (IdsState.orphan mem') = l.countP (IdsState.orphan mem) :=
  List.countP_congr fun a ha => by rw [IdsState.orphan_of_core (h a ha)]

end Lists

namespace IdsState

/-! ## Nodes that leave -/

section Remove

variable {τ : Type*} {s s' : IdsState τ} {al fl : τ → List ℕ} {t : τ} {i i' : Ids} {n : ℕ}
  {c : DynNode τ} {r : Ids × NodeMem τ × ℕ} {pc : IdsPc τ} {live : List ℕ}

theorem Sized.setPc (h : s.Sized al fl) {pc : τ → IdsPc τ}
    (hpc : ∀ u p, pc u = .freeing p → s.pc u = .freeing p ∨ p = 0 ∨ p ∈ al u) :
    Sized { s with pc := pc } al fl :=
  ⟨h.lists.congr rfl rfl (fun _ j hj => ⟨j, hj, rfl, rfl⟩) (fun _ hu => hu) hpc,
    h.totalAllocated, h.totalFreed⟩

theorem KeptLists.setPc (h : s.KeptLists al fl) {pc : τ → IdsPc τ}
    (hpc : ∀ u p, pc u = .freeing p → s.pc u = .freeing p ∨ p = 0 ∨ p ∈ al u) :
    KeptLists { s with pc := pc } al fl :=
  ⟨h.toSized.setPc hpc, h.freed, h.unused, h.deletedByOthers⟩

/-- The counters after `remove_node_from_allocated`. -/
theorem totals_remove {mem : NodeMem τ} (hr : r = i.removeNodeFromAllocated mem n c)
    (fl : List ℕ) : r.1.totalAllocated = i.totalAllocated - 1 ∧
      (i.totalFreed = fl.length → r.1.totalFreed = (freedAfter i n fl).length) ∧
      r.1.deletedByOthers = i.deletedByOthers := by
  subst hr
  rw [Ids.removeNodeFromAllocated, freedAfter]
  split
  · exact ⟨rfl, fun h => h, rfl⟩
  · exact ⟨rfl, fun h => congrArg (· + 1) h, rfl⟩

/-- The nodes without a creator, when a node has been removed. -/
theorem Sized.orphans_remove (h : s.Sized al fl) (hn : n ∈ al t)
    (hr : r = i.removeNodeFromAllocated s.mem n c) :
    (∀ u, u ≠ t → (al u).countP (orphan r.2.1) = (al u).countP (orphan s.mem)) ∧
      ((al t).erase n).countP (orphan r.2.1) =
        (al t).countP (orphan s.mem) - if orphan s.mem n then 1 else 0 := by
  subst hr
  have hcore : ∀ l : List ℕ, n ∉ l →
      l.countP (orphan (i.removeNodeFromAllocated s.mem n c).2.1) = l.countP (orphan s.mem) :=
    fun l hl => countP_orphan fun a ha => Ids.core_remove (ne_of_mem_of_not_mem ha hl)
  constructor
  · intro u hu
    refine hcore _ fun hmem => hu ?_
    exact h.lists.apart u t n (List.mem_append_left _ hmem) (List.mem_append_left _ hn)
  · obtain hids | ⟨j, hj⟩ := Option.eq_none_or_eq_some (s.ids t)
    · rw [(h.lists.off t hids).1] at hn
      exact absurd hn List.not_mem_nil
    have hnodup := (h.lists.owned t j hj).nodup.of_append_left
    rw [hcore _ hnodup.not_mem_erase, List.countP_erase]
    simp only [hn, true_and]

variable [DecidableEq τ]

/-- Only where the thread is changes. -/
theorem put_eq (ht : s.ids t = some i) (pc : IdsPc τ) :
    s.put t i s.mem pc = { s with pc := Function.update s.pc t pc } := by
  have hids : Function.update s.ids t (some i) = s.ids := by rw [← ht, Function.update_eq_self]
  rw [put, hids]

/-- One object changes. -/
theorem forall_ids {Q : τ → Ids → Prop} (ht : Q t i')
    (hother : ∀ u j, u ≠ t → s.ids u = some j → Q u j) (u : τ) (j : Ids)
    (hj : Function.update s.ids t (some i') u = some j) : Q u j := by
  by_cases hu : u = t
  · subst hu
    rw [Function.update_self, Option.some_inj] at hj
    exact hj ▸ ht
  · rw [Function.update_of_ne hu] at hj
    exact hother u j hu hj

/-- **A node is removed** from the allocated ones. -/
theorem Sized.remove (h : s.Sized al fl) (ht : s.ids t = some i) (hn : n ∈ al t)
    (hc : s.mem n = some c) (hr : r = i.removeNodeFromAllocated s.mem n c)
    (hlive : ∀ a ∈ live, a ∈ s.live ∧ a ≠ n) (hnodup : live.Nodup)
    (hfreeing : ∀ p, pc = .freeing p → p = r.2.2) :
    Sized { s.put t r.1 r.2.1 pc with live := live }
      (Function.update al t ((al t).erase n))
      (Function.update fl t (freedAfter i n (fl t))) := by
  obtain ⟨halloc, hfreed, -⟩ := totals_remove hr (fl t)
  refine ⟨h.lists.remove ht hn hc hr rfl rfl rfl hlive hnodup hfreeing, ?_, ?_⟩
  · refine forall_ids ?_ fun u j hu hj => ?_
    · rw [Function.update_self, halloc, h.totalAllocated t i ht, List.length_erase_of_mem hn]
    · rw [Function.update_of_ne hu]
      exact h.totalAllocated u j hj
  · refine forall_ids ?_ fun u j hu hj => ?_
    · rw [Function.update_self]
      exact hfreed (h.totalFreed t i ht)
    · rw [Function.update_of_ne hu]
      exact h.totalFreed u j hj

/-- **The creator deletes a node.** -/
theorem KeptLists.remove (h : s.KeptLists al fl) (ht : s.ids t = some i) (hn : n ∈ al t)
    (hc : s.mem n = some c) (hr : r = i.removeNodeFromAllocated s.mem n c)
    (horphan : orphan s.mem n = false)
    (hlive : ∀ a ∈ live, a ∈ s.live ∧ a ≠ n) (hnodup : live.Nodup)
    (hfreeing : ∀ p, pc = .freeing p → p = r.2.2) :
    KeptLists { s.put t r.1 r.2.1 pc with live := live }
      (Function.update al t ((al t).erase n))
      (Function.update fl t (freedAfter i n (fl t))) := by
  have howned := h.lists.owned t i ht
  obtain ⟨-, -, hcount⟩ := totals_remove hr (fl t)
  obtain ⟨hothers, hself⟩ := h.toSized.orphans_remove hn hr
  refine ⟨h.toSized.remove ht hn hc hr hlive hnodup hfreeing, ?_, ?_, ?_⟩
  · refine forall_ids ?_ fun u j hu hj => ?_
    · rw [Function.update_self]
      subst hr
      exact howned.freed_remove h.lists.null hn hc (h.freed t i ht)
    · rw [Function.update_of_ne hu]
      refine seg_congr (fun a ha => ?_) (h.freed u j hj)
      have ha0 : a ≠ 0 := ne_of_mem_of_not_mem ha (h.lists.owned u j hj).freed.ne_zero
      have hframe := howned.remove_frame h.lists.null hn hc ha0 fun hmem =>
        hu (h.lists.apart u t a (List.mem_append_right _ ha) hmem)
      subst hr
      exact congrArg (Option.map fun c : DynNode τ => (c.dynPrev, c.dynNext)) hframe
  · refine forall_ids ?_ fun u j hu hj a ha => ?_
    · rw [Function.update_self]
      intro a ha hmem
      rcases mem_freedAfter ha with rfl | ha
      · exact (hlive a hmem).2 rfl
      · exact h.unused t i ht a ha (hlive a hmem).1
    · rw [Function.update_of_ne hu] at ha
      exact fun hmem => h.unused u j hj a ha (hlive a hmem).1
  · refine forall_ids ?_ fun u j hu hj => ?_
    · rw [Function.update_self, hcount, h.deletedByOthers t i ht]
      refine Eq.trans ?_ hself.symm
      rw [horphan]
      rfl
    · rw [Function.update_of_ne hu, h.deletedByOthers u j hj]
      exact (hothers u hu).symm

/-- The object that the constructor makes. -/
def NewIds (i : Ids) : Prop :=
  i.allocatedNodes = 0 ∧ i.freedNodes = 0 ∧ i.totalAllocated = 0 ∧ i.totalFreed = 0 ∧
    i.deletedByOthers = 0

/-- **The constructor.** -/
theorem Sized.start (h : s.Sized al fl) (ht : s.ids t = none) (db : NodeDatabase)
    (hi : NewIds i) :
    Sized { s.put t i s.mem .idle with db := db } (Function.update al t [])
      (Function.update fl t []) := by
  obtain ⟨halloc, hfreed, htotal, htotalFreed, -⟩ := hi
  obtain ⟨hal, hfl⟩ := h.lists.off t ht
  have howned : Owned s.mem t i [] [] :=
    ⟨trivial, halloc, hfreed, List.nodup_nil, fun a ha => absurd ha List.not_mem_nil⟩
  refine ⟨h.lists.update rfl rfl h.lists.null howned (fun a ha => absurd ha List.not_mem_nil)
    (fun _ _ _ _ => rfl) (fun a ha => Or.inl ⟨ha, hal ▸ List.not_mem_nil⟩) h.lists.nodup nofun,
    ?_, ?_⟩
  · refine forall_ids ?_ fun u j hu hj => ?_
    · rw [Function.update_self]
      exact htotal
    · rw [Function.update_of_ne hu]
      exact h.totalAllocated u j hj
  · refine forall_ids ?_ fun u j hu hj => ?_
    · rw [Function.update_self]
      exact htotalFreed
    · rw [Function.update_of_ne hu]
      exact h.totalFreed u j hj

theorem KeptLists.start (h : s.KeptLists al fl) (ht : s.ids t = none) (db : NodeDatabase)
    (hi : NewIds i) :
    KeptLists { s.put t i s.mem .idle with db := db } (Function.update al t [])
      (Function.update fl t []) := by
  refine ⟨h.toSized.start ht db hi, ?_, ?_, ?_⟩
  · refine forall_ids ?_ fun u j hu hj => ?_
    · rw [Function.update_self]
      trivial
    · rw [Function.update_of_ne hu]
      exact h.freed u j hj
  · refine forall_ids ?_ fun u j hu hj => ?_
    · rw [Function.update_self]
      exact fun a ha => absurd ha List.not_mem_nil
    · rw [Function.update_of_ne hu]
      exact h.unused u j hj
  · refine forall_ids ?_ fun u j hu hj => ?_
    · rw [Function.update_self]
      exact hi.2.2.2.2
    · rw [Function.update_of_ne hu]
      exact h.deletedByOthers u j hj

/-- The state after another thread has deleted the node `n` and counted it at the creator. -/
def cleared (s : IdsState τ) (n : ℕ) (u : τ) (j : Ids) (pc : τ → IdsPc τ) (live : List ℕ) :
    IdsState τ :=
  ⟨s.db, s.mem.setCreator n none,
    Function.update s.ids u (some { j with deletedByOthers := j.deletedByOthers + 1 }), pc, live⟩

/-- **Another thread deletes a node**: first the creator is cleared, then the counter is written. -/
theorem Sized.clear (h : s.Sized al fl) {u : τ} {j : Ids} (hu : s.ids u = some j)
    (hlive : ∀ a ∈ live, a ∈ s.live ∧ a ≠ n) (hnodup : live.Nodup) {pc : τ → IdsPc τ}
    (hidle : ∀ v p, s.pc v ≠ .freeing p) (hpc : ∀ v p, pc v ≠ .freeing p) :
    (s.cleared n u j pc live).Sized al fl := by
  have hcleared : Lists ⟨s.db, s.mem.setCreator n none, s.ids, s.pc, live⟩ al fl :=
    h.lists.clear (t := u) rfl rfl (Function.update_eq_self u s.pc).symm hlive hnodup (hidle u)
  have hlists : (s.cleared n u j pc live).Lists al fl := by
    refine hcleared.congr rfl rfl (forall_ids ⟨j, hu, rfl, rfl⟩ fun v k _ hk => ⟨k, hk, rfl, rfl⟩)
      (fun v hv => ?_) fun v p hp => absurd hp (hpc v p)
    by_cases hvu : v = u
    · subst hvu
      exact absurd ((Function.update_self v _ s.ids).symm.trans hv) nofun
    · exact (Function.update_of_ne hvu _ s.ids).symm.trans hv
  exact ⟨hlists, forall_ids (h.totalAllocated u j hu) fun v k _ hk => h.totalAllocated v k hk,
    forall_ids (h.totalFreed u j hu) fun v k _ hk => h.totalFreed v k hk⟩

theorem KeptLists.clear (h : s.KeptLists al fl) {u : τ} {j : Ids} (hu : s.ids u = some j)
    (hn : n ∈ al u) (horphan : orphan s.mem n = false) (hc : s.mem n = some c)
    (hlive : ∀ a ∈ live, a ∈ s.live ∧ a ≠ n) (hnodup : live.Nodup) {pc : τ → IdsPc τ}
    (hidle : ∀ v p, s.pc v ≠ .freeing p) (hpc : ∀ v p, pc v ≠ .freeing p) :
    (s.cleared n u j pc live).KeptLists al fl := by
  have hlinks : links (s.mem.setCreator n none) = links s.mem := by
    funext a
    rw [links, links, setCreator]
    by_cases ha : a = n
    · subst ha
      rw [Function.update_self, Option.map_map]
      rfl
    · rw [Function.update_of_ne ha]
  have hother : ∀ a, a ≠ n → orphan (s.mem.setCreator n none) a = orphan s.mem a := by
    intro a ha
    rw [orphan, orphan, setCreator, Function.update_of_ne ha]
  have hself : orphan (s.mem.setCreator n none) n = true := by
    rw [orphan, setCreator, Function.update_self, hc]
    rfl
  refine ⟨h.toSized.clear hu hlive hnodup hidle hpc, ?_, ?_, ?_⟩
  · rw [cleared, hlinks]
    exact forall_ids (h.freed u j hu) fun v k _ hk => h.freed v k hk
  · refine forall_ids ?_ fun v k _ hk a ha hmem => h.unused v k hk a ha (hlive a hmem).1
    exact fun a ha hmem => h.unused u j hu a ha (hlive a hmem).1
  · refine forall_ids ?_ fun v k hv hk => ?_
    · have hnd := (h.lists.owned u j hu).nodup.of_append_left
      have hperm := List.perm_cons_erase hn
      have hrest : ((al u).erase n).countP (orphan (s.mem.setCreator n none)) =
          ((al u).erase n).countP (orphan s.mem) :=
        List.countP_congr fun a ha => by
          rw [hother a (ne_of_mem_of_not_mem ha hnd.not_mem_erase)]
      show j.deletedByOthers + 1 = (al u).countP (orphan (s.mem.setCreator n none))
      rw [h.deletedByOthers u j hu, hperm.countP_eq, hperm.countP_eq, List.countP_cons_of_pos hself,
        List.countP_cons_of_neg (by rw [horphan]; exact Bool.false_ne_true), hrest]
    · rw [h.deletedByOthers v k hk]
      refine (List.countP_congr fun a ha => ?_).symm
      have han : a ≠ n := by
        rintro rfl
        exact hv (h.lists.apart v u a (List.mem_append_left _ ha) (List.mem_append_left _ hn))
      rw [cleared, hother a han]

end Remove

/-! ## Nodes that come -/

section Insert

variable {τ : Type*} [DecidableEq τ] {s s' : IdsState τ} {al fl : τ → List ℕ} {t : τ}
  {i i₁ i' : Ids} {mem₁ : NodeMem τ} {n : ℕ} {c : DynNode τ} {fl' : List ℕ}

/-- **A node is created**, and the freed nodes are `fl'` then. -/
structure Inserted (s s' : IdsState τ) (al fl : τ → List ℕ) (t : τ) (n : ℕ) (fl' : List ℕ) :
    Prop where
  sized : s'.Sized (Function.update al t (n :: al t)) (Function.update fl t fl')
  live : s'.live = n :: s.live
  subset : ∀ a ∈ fl', a ∈ fl t
  fresh : ∀ u, n ∉ Function.update fl t fl' u
  deletedByOthers : ∀ u j', s'.ids u = some j' →
    ∃ j, s.ids u = some j ∧ j'.deletedByOthers = j.deletedByOthers
  core : ∀ a, a ≠ n → (s'.mem a).map core = (s.mem a).map core
  creator : orphan s'.mem n = false
  freed : ∀ u, ∀ a ∈ Function.update fl t fl' u, s'.mem a = s.mem a

/-- From the state `i₁`, `mem₁` in which the node is constructed. -/
theorem Sized.insert (h : s.Sized al fl) (ht : s.ids t = some i)
    (howned : Owned mem₁ t i₁ (al t) fl') (hsub : ∀ a ∈ fl', a ∈ fl t) (hn0 : n ≠ 0)
    (hn : n ∉ al t ++ fl') (hother : ∀ u, u ≠ t → n ∉ al u ++ fl u) (hnlive : n ∉ s.live)
    (hmem₁ : ∀ a, a ≠ n → mem₁ a = s.mem a) (hc : mem₁ n = some c) (hprev : c.dynPrev = 0)
    (hs' : s' = { s.put t i' (i₁.addAllocatedNode mem₁ t n).2 .idle with live := n :: s.live })
    (halloc : i'.allocatedNodes = n) (hfreed : i'.freedNodes = i₁.freedNodes)
    (htotal : i'.totalAllocated = i.totalAllocated + 1) (htotalFreed : i'.totalFreed = fl'.length)
    (hdeleted : i'.deletedByOthers = i.deletedByOthers) : Inserted s s' al fl t n fl' := by
  have hself := howned.add_self hn0 (fun hm => hn (List.mem_append_left _ hm)) hc
  have hpos : ∀ a, a ≠ n → (i₁.addAllocatedNode mem₁ t n).2 a =
      s.mem.setPrev i₁.allocatedNodes n a := by
    intro a ha
    rw [Ids.addAllocatedNode]
    dsimp only
    rw [setNext_of_ne ha, setPrev_apply, setPrev_apply, setCreator, Function.update_of_ne ha,
      hmem₁ a ha]
  have hfresh : ∀ u, n ∉ Function.update fl t fl' u := by
    intro u
    by_cases hu : u = t
    · subst hu
      rw [Function.update_self]
      exact fun hm => hn (List.mem_append_right _ hm)
    · rw [Function.update_of_ne hu]
      exact fun hm => hother u hu (List.mem_append_right _ hm)
  subst hs'
  refine ⟨⟨?_, ?_, ?_⟩, rfl, hsub, hfresh, ?_, ?_, ?_, ?_⟩
  · exact h.lists.insert howned hsub hn0 hn hother hnlive hmem₁ hc hprev rfl halloc hfreed rfl rfl
      rfl
  · refine forall_ids ?_ fun u j hu hj => ?_
    · rw [Function.update_self, htotal, h.totalAllocated t i ht]
      rfl
    · rw [Function.update_of_ne hu]
      exact h.totalAllocated u j hj
  · refine forall_ids ?_ fun u j hu hj => ?_
    · rw [Function.update_self]
      exact htotalFreed
    · rw [Function.update_of_ne hu]
      exact h.totalFreed u j hj
  · exact forall_ids ⟨i, ht, hdeleted⟩ fun u j _ hj => ⟨j, hj, rfl⟩
  · intro a ha
    show ((i₁.addAllocatedNode mem₁ t n).2 a).map NodeMem.core = _
    rw [hpos a ha, core_setPrev]
  · show orphan (i₁.addAllocatedNode mem₁ t n).2 n = false
    rw [orphan, hself]
    rfl
  · intro u a ha
    have han : a ≠ n := ne_of_mem_of_not_mem ha (hfresh u)
    have hmem : a ∈ fl u := by
      by_cases hu : u = t
      · subst hu
        rw [Function.update_self] at ha
        exact hsub a ha
      · rwa [Function.update_of_ne hu] at ha
    show (i₁.addAllocatedNode mem₁ t n).2 a = _
    rw [hpos a han]
    refine setPrev_of_ne ?_
    -- the first allocated node is no freed one
    rcases howned.allocatedNodes_mem with hz | hal
    · rw [hz]
      rintro rfl
      exact h.lists.notMem_of_none h.lists.null u (List.mem_append_right _ hmem)
    · rintro rfl
      obtain rfl := h.lists.apart u t _ (List.mem_append_right _ hmem) (List.mem_append_left _ hal)
      exact (List.nodup_append'.mp (h.lists.owned u i ht).nodup).2.2 hal hmem

/-- `create_node` with a freed node. -/
theorem Sized.recycle (h : s.Sized al fl) (ht : s.ids t = some i) (hne : i.freedNodes ≠ 0)
    (hc : s.mem i.freedNodes = some c) :
    ∃ fl', fl t = i.freedNodes :: fl' ∧
      Inserted s { s.put t (i.recycle s.mem t i.freedNodes c).1
        (i.recycle s.mem t i.freedNodes c).2 .idle with live := i.freedNodes :: s.live }
        al fl t i.freedNodes fl' := by
  have howned := h.lists.owned t i ht
  obtain ⟨fl', hfl, hpop⟩ := howned.pop hne hc (some ⟨c.id, c.translation, 0, 0, none⟩)
    (rfl : ({ i with freedNodes := c.dynNext, totalFreed := i.totalFreed - 1 } : Ids).allocatedNodes
      = _) rfl
  have hin : i.freedNodes ∈ fl t := hfl ▸ List.mem_cons_self
  have hnd := howned.nodup
  rw [hfl, List.nodup_middle, List.nodup_cons] at hnd
  refine ⟨fl', hfl, h.insert ht hpop ?_ hne hnd.1 ?_ (h.lists.notMem_live ht hin)
    (fun a ha => Function.update_of_ne ha _ _) (Function.update_self _ _ _) rfl rfl rfl rfl rfl ?_
    rfl⟩
  · exact fun a ha => hfl ▸ List.mem_cons_of_mem _ ha
  · exact fun u hu hmem => hu (h.lists.apart u t _ hmem (List.mem_append_right _ hin))
  · show i.totalFreed - 1 = _
    rw [h.totalFreed t i ht, hfl]
    rfl

/-- `create_node` with a new node. -/
theorem Sized.createFresh (h : s.Sized al fl) (ht : s.ids t = some i) (hn0 : n ≠ 0)
    (hn : s.mem n = none) :
    Inserted s { s.put t (i.createFresh s.mem t n).1 (i.createFresh s.mem t n).2 .idle with
      live := n :: s.live } al fl t n (fl t) := by
  have hout := h.lists.notMem_of_none hn
  have hwrite := (h.lists.owned t i ht).write (hout t)
    (some ⟨i.nextAvailableId, i.nextTranslatedId, 0, 0, none⟩) rfl rfl
  refine h.insert ht hwrite (fun _ ha => ha) hn0 (hout t) (fun u _ => hout u) ?_
    (fun a ha => Function.update_of_ne ha _ _) (Function.update_self _ _ _) rfl rfl rfl rfl rfl
    (h.totalFreed t i ht) rfl
  intro hlive
  obtain ⟨u, c, -, hc, -⟩ := h.lists.live n hlive
  rw [hn] at hc
  exact absurd hc nofun

/-- **After a node was created**, all is kept exactly if the freed nodes that are left are linked in
both directions. -/
theorem KeptLists.inserted (h : s.KeptLists al fl) (ht : s.ids t = some i)
    (ht' : s'.ids t = some i') (hins : Inserted s s' al fl t n fl') :
    s'.KeptLists (Function.update al t (n :: al t)) (Function.update fl t fl') ↔
      Seg (links s.mem) 0 fl' 0 := by
  have hlinks : ∀ u, ∀ a ∈ Function.update fl t fl' u, links s'.mem a = links s.mem a :=
    fun u a ha => by rw [links, links, hins.freed u a ha]
  constructor
  · intro hk
    have hback := hk.freed t i' ht'
    rw [Function.update_self] at hback
    refine seg_congr (fun a ha => (hlinks t a ?_).symm) hback
    rwa [Function.update_self]
  · intro hback
    refine ⟨hins.sized, ?_, ?_, ?_⟩
    · intro u j' hj'
      obtain ⟨j, hj, -⟩ := hins.deletedByOthers u j' hj'
      refine seg_congr (hlinks u) ?_
      by_cases hu : u = t
      · subst hu
        rw [Function.update_self]
        exact hback
      · rw [Function.update_of_ne hu]
        exact h.freed u j hj
    · intro u j' hj' a ha hlive
      obtain ⟨j, hj, -⟩ := hins.deletedByOthers u j' hj'
      rw [hins.live, List.mem_cons] at hlive
      rcases hlive with rfl | hlive
      · exact hins.fresh u ha
      · refine h.unused u j hj a ?_ hlive
        by_cases hu : u = t
        · subst hu
          rw [Function.update_self] at ha
          exact hins.subset a ha
        · rwa [Function.update_of_ne hu] at ha
    · intro u j' hj'
      obtain ⟨j, hj, hdel⟩ := hins.deletedByOthers u j' hj'
      rw [hdel, h.deletedByOthers u j hj]
      have hnodup := (hins.sized.lists.owned t i' ht').nodup.of_append_left
      rw [Function.update_self, List.nodup_cons] at hnodup
      by_cases hu : u = t
      · subst hu
        rw [Function.update_self, List.countP_cons_of_neg (by rw [hins.creator]; exact Bool.false_ne_true)]
        exact (countP_orphan fun a ha => hins.core a (ne_of_mem_of_not_mem ha hnodup.1)).symm
      · rw [Function.update_of_ne hu]
        refine (countP_orphan fun a ha => hins.core a ?_).symm
        rintro rfl
        refine hu (hins.sized.lists.apart u t a ?_ ?_)
        · rw [Function.update_of_ne hu]
          exact List.mem_append_left _ ha
        · rw [Function.update_self]
          exact List.mem_append_left _ List.mem_cons_self

end Insert

end IdsState

end Meld
