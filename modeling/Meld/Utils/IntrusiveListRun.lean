import Mathlib.Data.List.Perm.Basic
import Meld.Lib.Agree
import Meld.Utils.IntrusiveList

/-!
# Elements that move between lists

The lists of a node, of its rule engine and of the generated facts link the same elements through
the same pointers.  Between two memberships the pointers of an element are leftovers of the last
list, or are written by somebody else, and an element that is in no list may be freed and made anew.

* `ListPool`, `poolMachine`: lists over the same elements, with the operations and with what happens
  to elements in no list.
* `ListTable`, `tableMachine`: the same operations on sequences.
* `Legal`: an element is pushed that is there and in no list, `erase` gets an iterator to a member,
  and lists are spliced that have no element in common.
* `Represents`: each list is its sequence, no element is in two of them.
* `intrusive_list_operations`: legal operations do not fail, whatever came before, and behind each
  of them the lists are the sequences.
-/

namespace Meld

open Linked (Links)

/-- Lists over the same elements. -/
structure ListPool (ι : Type*) where
  list : ι → IntrusiveList
  links : Links

/-- The operations.  `write` is an element that is made, or whose pointers somebody else writes. -/
inductive ListOp (ι : Type*)
  | isEmpty (i : ι)
  | pushFront (i : ι) (n : ℕ)
  | pushBack (i : ι) (n : ℕ)
  | popFront (i : ι)
  | erase (i : ι) (x : ℕ)
  | spliceFront (i j : ι)
  | spliceBack (i j : ι)
  | clear (i : ι)
  | write (x prev next : ℕ)
  | free (x : ℕ)

/-- The results: an element, an iterator or the null pointer, or whether a list is empty. -/
inductive ListResult
  | none
  | element (x : ℕ)
  | isEmpty (b : Bool)
  deriving DecidableEq

namespace ListPool

variable {ι : Type*} [DecidableEq ι]

/-- The constructors of all lists, before any element is made. -/
def empty : ListPool ι where
  list _ := IntrusiveList.nil
  links _ := none

/-- A list and the pointers of the elements after an operation. -/
def put (p : ListPool ι) (i : ι) (s : IntrusiveList) (links : Links) : ListPool ι where
  list := Function.update p.list i s
  links := links

/-- One operation on the lists.  It fails if an assertion fails, or if it reads or writes a pointer
of an element that is not there. -/
def step (p : ListPool ι) : ListOp ι → Option (ListResult × ListPool ι)
  | .isEmpty i => (p.list i).isEmpty.map fun b => (.isEmpty b, p)
  | .pushFront i n =>
    (IntrusiveList.pushFront p.links (p.list i) n).map fun r => (.none, p.put i r.2 r.1)
  | .pushBack i n =>
    (IntrusiveList.pushBack p.links (p.list i) n).map fun r => (.none, p.put i r.2 r.1)
  | .popFront i =>
    (IntrusiveList.popFront p.links (p.list i)).map fun r => (.element r.1, p.put i r.2.2 r.2.1)
  | .erase i x =>
    (IntrusiveList.erase p.links (p.list i) x).map fun r => (.element r.1, p.put i r.2.2 r.2.1)
  | .spliceFront i j =>
    (IntrusiveList.spliceFront p.links (p.list i) (p.list j)).map fun r =>
      (.none, (p.put i r.2 r.1).put j .nil r.1)
  | .spliceBack i j =>
    (IntrusiveList.spliceBack p.links (p.list i) (p.list j)).map fun r =>
      (.none, (p.put i r.2 r.1).put j .nil r.1)
  | .clear i => some (.none, p.put i .nil p.links)
  | .write x prev next =>
    some (.none, { p with links := Function.update p.links x (some (prev, next)) })
  | .free x => some (.none, { p with links := Function.update p.links x none })

end ListPool

/-- The sequences that the lists should be, and the elements that are there. -/
structure ListTable (ι : Type*) where
  list : ι → List ℕ
  object : ℕ → Bool

namespace ListTable

variable {ι : Type*} [DecidableEq ι]

/-- No element is there. -/
def empty : ListTable ι where
  list _ := []
  object _ := false

/-- One sequence changes. -/
def put (t : ListTable ι) (i : ι) (l : List ℕ) : ListTable ι where
  list := Function.update t.list i l
  object := t.object

/-- One operation on the sequences.  `erase` gives the element behind the one that goes. -/
def step (t : ListTable ι) : ListOp ι → ListResult × ListTable ι
  | .isEmpty i => (.isEmpty (decide (t.list i = [])), t)
  | .pushFront i n => (.none, t.put i (n :: t.list i))
  | .pushBack i n => (.none, t.put i (t.list i ++ [n]))
  | .popFront i => (.element ((t.list i).headD 0), t.put i (t.list i).tail)
  | .erase i x =>
    (.element (((t.list i).drop ((t.list i).idxOf x + 1)).headD 0), t.put i ((t.list i).erase x))
  | .spliceFront i j => (.none, (t.put i (t.list j ++ t.list i)).put j [])
  | .spliceBack i j => (.none, (t.put i (t.list i ++ t.list j)).put j [])
  | .clear i => (.none, t.put i [])
  | .write x _ _ => (.none, { t with object := Function.update t.object x true })
  | .free x => (.none, { t with object := Function.update t.object x false })

end ListTable

namespace ListPool

variable {ι : Type*} [DecidableEq ι]

/-- The lists as a machine. -/
def poolMachine : Machine (ListOp ι) ListResult (ListPool ι) := ⟨step⟩

/-- The sequences as a machine.  No operation fails. -/
def tableMachine : Machine (ListOp ι) ListResult (ListTable ι) := ⟨fun t op => some (t.step op)⟩

/-- What the callers keep to.  A list has no element in common with itself only when it is empty. -/
def Legal (t : ListTable ι) : ListOp ι → Prop
  | .pushFront _ n | .pushBack _ n => t.object n ∧ ∀ j, n ∉ t.list j
  | .erase i x => x ∈ t.list i
  | .spliceFront i j | .spliceBack i j => (t.list i).Disjoint (t.list j)
  | .write x _ _ => x ≠ 0 ∧ x < 2 ^ 64 ∧ ∀ j, x ∉ t.list j
  | .free x => ∀ j, x ∉ t.list j
  | _ => True

/-- **The lists are the sequences.** -/
structure Represents (p : ListPool ι) (t : ListTable ι) : Prop where
  holds : ∀ i, IntrusiveList.Holds p.links (p.list i) (t.list i)
  disjoint : ∀ {i j x}, x ∈ t.list i → x ∈ t.list j → i = j
  object : ∀ x, (p.links x).isSome = t.object x
  null : t.object 0 = false
  word : ∀ x, t.object x → x < 2 ^ 64

variable {p : ListPool ι} {t : ListTable ι} {i j : ι} {x n : ℕ}

omit [DecidableEq ι] in
theorem represents_empty : Represents (ListPool.empty : ListPool ι) ListTable.empty :=
  ⟨fun _ => IntrusiveList.holds_nil _, fun h => absurd h List.not_mem_nil, fun _ => rfl, rfl,
    fun _ h => absurd h Bool.false_ne_true⟩

omit [DecidableEq ι] in
theorem Represents.links_zero (h : Represents p t) : p.links 0 = none := by
  rw [← Option.not_isSome_iff_eq_none, h.object 0, h.null]
  exact Bool.false_ne_true

/-- **One list changes**, with elements that are in no other list. -/
theorem Represents.put (h : Represents p t) {s' : IntrusiveList} {links' : Links} {l' m : List ℕ}
    (hholds : IntrusiveList.Holds links' s' l')
    (hchanged : IntrusiveList.Changed p.links links' m) (hl : l' ⊆ m)
    (hm : ∀ x ∈ m, ∀ j, x ∈ t.list j → j = i) :
    Represents (p.put i s' links') (t.put i l') := by
  have hother : ∀ {j}, j ≠ i → (t.put i l').list j = t.list j := by
    intro j hj
    simp [ListTable.put, hj]
  have hself : (t.put i l').list i = l' := by simp [ListTable.put]
  constructor
  · intro j
    by_cases hj : j = i
    · subst hj
      rw [hself]
      show IntrusiveList.Holds links' (Function.update p.list j s' j) l'
      rwa [Function.update_self]
    · rw [hother hj]
      show IntrusiveList.Holds links' (Function.update p.list i s' j) (t.list j)
      rw [Function.update_of_ne hj]
      exact (h.holds j).congr fun x hx => hchanged.elsewhere x fun hxm => hj (hm x hxm j hx)
  · intro j k x hxj hxk
    by_cases hj : j = i <;> by_cases hk : k = i
    · rw [hj, hk]
    · rw [hj, hself] at hxj
      rw [hother hk] at hxk
      exact absurd (hm x (hl hxj) k hxk) hk
    · rw [hk, hself] at hxk
      rw [hother hj] at hxj
      exact absurd (hm x (hl hxk) j hxj) hj
    · rw [hother hj] at hxj
      rw [hother hk] at hxk
      exact h.disjoint hxj hxk
  · exact fun x => (hchanged.isSome x).trans (h.object x)
  · exact h.null
  · exact h.word

/-! ## One operation -/

section Operations

omit [DecidableEq ι] in
/-- An element that is pushed is in no other list. -/
theorem Represents.pushable (h : Represents p t) (hin : ∀ j, n ∉ t.list j) {m : List ℕ}
    (hm : ∀ x ∈ m, x = n ∨ x ∈ t.list i) : ∀ x ∈ m, ∀ j, x ∈ t.list j → j = i := by
  intro x hx j hj
  rcases hm x hx with rfl | hi
  · exact absurd hj (hin j)
  · exact h.disjoint hj hi

theorem Represents.pushFront (h : Represents p t) (hn : t.object n) (hin : ∀ j, n ∉ t.list j) :
    ∃ r, IntrusiveList.pushFront p.links (p.list i) n = some r ∧
      Represents (p.put i r.2 r.1) (t.put i (n :: t.list i)) := by
  obtain ⟨links', s', hcode, hholds, hchanged⟩ := (h.holds i).pushFront h.links_zero
    ((h.object n).trans hn) (hin i) (h.word n hn)
  refine ⟨_, hcode, h.put hholds hchanged (List.Subset.refl _) (h.pushable hin ?_)⟩
  exact fun x hx => List.mem_cons.mp hx

theorem Represents.pushBack (h : Represents p t) (hn : t.object n) (hin : ∀ j, n ∉ t.list j) :
    ∃ r, IntrusiveList.pushBack p.links (p.list i) n = some r ∧
      Represents (p.put i r.2 r.1) (t.put i (t.list i ++ [n])) := by
  obtain ⟨links', s', hcode, hholds, hchanged⟩ := (h.holds i).pushBack h.links_zero
    ((h.object n).trans hn) (hin i) (h.word n hn)
  refine ⟨_, hcode, h.put hholds hchanged (List.Subset.refl _) (h.pushable hin ?_)⟩
  exact fun x hx => (List.mem_append.mp hx).symm.imp_left List.mem_singleton.mp

omit [DecidableEq ι] in
/-- The elements of a list are in no other. -/
theorem Represents.own (h : Represents p t) : ∀ x ∈ t.list i, ∀ j, x ∈ t.list j → j = i :=
  fun _ hi _ hj => h.disjoint hj hi

theorem Represents.popFront (h : Represents p t) (i : ι) :
    ∃ r, IntrusiveList.popFront p.links (p.list i) = some r ∧ r.1 = (t.list i).headD 0 ∧
      Represents (p.put i r.2.2 r.2.1) (t.put i (t.list i).tail) := by
  have hi := h.holds i
  have hown := h.own (i := i)
  cases hl : t.list i with
  | nil =>
    rw [hl] at hi hown
    exact ⟨_, hi.popFront_nil, rfl,
      h.put hi (IntrusiveList.Changed.refl _ []) (List.Subset.refl _) hown⟩
  | cons x ys =>
    rw [hl] at hi hown
    obtain ⟨links', s', hcode, hholds, hchanged⟩ := hi.popFront h.links_zero
    exact ⟨_, hcode, rfl, h.put hholds hchanged (List.subset_cons_self x ys) hown⟩

theorem Represents.erase (h : Represents p t) (hx : x ∈ t.list i) :
    ∃ r, IntrusiveList.erase p.links (p.list i) x = some r ∧
      r.1 = ((t.list i).drop ((t.list i).idxOf x + 1)).headD 0 ∧
      Represents (p.put i r.2.2 r.2.1) (t.put i ((t.list i).erase x)) := by
  have hi := h.holds i
  have hown := h.own (i := i)
  obtain ⟨xs, ys, hxs, hl, herase⟩ := List.exists_erase_eq hx
  rw [herase, hl]
  rw [hl] at hi hown
  obtain ⟨links', s', hcode, hholds, hchanged⟩ := hi.erase h.links_zero
  refine ⟨_, hcode, ?_, h.put hholds hchanged ?_ hown⟩
  · rw [List.idxOf_append_of_notMem hxs, List.idxOf_cons_self, Nat.add_zero, List.drop_append,
      List.drop_eq_nil_of_le (Nat.le_succ _), Nat.add_sub_cancel_left]
    rfl
  · exact (List.Sublist.append_left (List.sublist_cons_self x ys) xs).subset

/-- **Splicing**: the elements of list `j` are now in list `i`, and list `j` is cleared. -/
theorem Represents.splice (h : Represents p t) (hdisj : (t.list i).Disjoint (t.list j))
    {s' : IntrusiveList} {links' : Links} {l' : List ℕ}
    (hl : l'.Perm (t.list i ++ t.list j)) (hholds : IntrusiveList.Holds links' s' l')
    (hchanged : IntrusiveList.Changed p.links links' l') :
    Represents ((p.put i s' links').put j .nil links') ((t.put i l').put j []) := by
  by_cases hij : i = j
  · subst hij
    -- a list that is spliced into itself is empty
    have hnil : t.list i = [] := by
      rw [List.eq_nil_iff_forall_not_mem]
      exact fun x hx => hdisj hx hx
    rw [hnil, List.append_nil, List.perm_nil] at hl
    subst hl
    simp only [ListPool.put, ListTable.put, Function.update_idem]
    exact h.put (IntrusiveList.holds_nil links') hchanged (List.Subset.refl []) fun x hx =>
      absurd hx List.not_mem_nil
  · simp only [ListPool.put, ListTable.put, Function.update_comm hij]
    have hclear := h.put (i := j) (IntrusiveList.holds_nil p.links)
      (IntrusiveList.Changed.refl p.links []) (List.Subset.refl []) fun x hx =>
        absurd hx List.not_mem_nil
    refine hclear.put hholds hchanged (List.Subset.refl l') fun x hx k hk => ?_
    by_cases hkj : k = j
    · subst hkj
      simp [ListTable.put] at hk
    · have hxk : x ∈ t.list k := by simpa [ListTable.put, hkj] using hk
      rcases List.mem_append.mp (hl.subset hx) with hxi | hxj
      · exact h.disjoint hxk hxi
      · exact absurd (h.disjoint hxk hxj) hkj

theorem Represents.spliceFront (h : Represents p t) (hdisj : (t.list i).Disjoint (t.list j)) :
    ∃ r, IntrusiveList.spliceFront p.links (p.list i) (p.list j) = some r ∧
      Represents ((p.put i r.2 r.1).put j .nil r.1)
        ((t.put i (t.list j ++ t.list i)).put j []) := by
  obtain ⟨links', s', hcode, hholds, hchanged⟩ :=
    (h.holds i).spliceFront (h.holds j) h.links_zero hdisj
  exact ⟨_, hcode, h.splice hdisj List.perm_append_comm hholds hchanged⟩

theorem Represents.spliceBack (h : Represents p t) (hdisj : (t.list i).Disjoint (t.list j)) :
    ∃ r, IntrusiveList.spliceBack p.links (p.list i) (p.list j) = some r ∧
      Represents ((p.put i r.2 r.1).put j .nil r.1)
        ((t.put i (t.list i ++ t.list j)).put j []) := by
  obtain ⟨links', s', hcode, hholds, hchanged⟩ :=
    (h.holds i).spliceBack (h.holds j) h.links_zero hdisj
  exact ⟨_, hcode, h.splice hdisj (List.Perm.refl _) hholds hchanged⟩

omit [DecidableEq ι] in
/-- **An element in no list** is made, freed or written by somebody else. -/
theorem Represents.write (h : Represents p t) (hin : ∀ j, x ∉ t.list j) (l : Option (ℕ × ℕ))
    (hl : l.isSome → x ≠ 0 ∧ x < 2 ^ 64) :
    Represents { p with links := Function.update p.links x l }
      { t with object := Function.update t.object x l.isSome } := by
  constructor
  · refine fun i => (h.holds i).congr fun y hy => ?_
    have hyx : y ≠ x := by
      rintro rfl
      exact hin i hy
    simp only [Function.update_of_ne hyx]
  · exact h.disjoint
  · intro y
    by_cases hyx : y = x
    · subst hyx
      simp only [Function.update_self]
    · simp only [Function.update_of_ne hyx]
      exact h.object y
  · show Function.update t.object x l.isSome 0 = false
    by_cases hx : x = 0
    · subst hx
      rw [Function.update_self, ← Bool.not_eq_true]
      exact fun hsome => (hl hsome).1 rfl
    · rw [Function.update_of_ne (Ne.symm hx), h.null]
  · intro y hy
    by_cases hyx : y = x
    · subst hyx
      simp only [Function.update_self] at hy
      exact (hl hy).2
    · simp only [Function.update_of_ne hyx] at hy
      exact h.word y hy

end Operations

/-- **One operation.**  Every legal operation succeeds and gives what it gives on the sequences. -/
theorem Represents.step (h : Represents p t) {op : ListOp ι} (hlegal : Legal t op) :
    Machine.Matches Represents (poolMachine.step p op) (tableMachine.step t op) := by
  cases op with
  | isEmpty i =>
    have hcode := (h.holds i).isEmpty
    simp only [poolMachine, ListPool.step, hcode, Option.map_some]
    exact Option.Rel.some ⟨rfl, h⟩
  | pushFront i n =>
    obtain ⟨r, hcode, hrep⟩ := h.pushFront (i := i) hlegal.1 hlegal.2
    simp only [poolMachine, ListPool.step, hcode, Option.map_some]
    exact Option.Rel.some ⟨rfl, hrep⟩
  | pushBack i n =>
    obtain ⟨r, hcode, hrep⟩ := h.pushBack (i := i) hlegal.1 hlegal.2
    simp only [poolMachine, ListPool.step, hcode, Option.map_some]
    exact Option.Rel.some ⟨rfl, hrep⟩
  | popFront i =>
    obtain ⟨r, hcode, hout, hrep⟩ := h.popFront i
    simp only [poolMachine, ListPool.step, hcode, Option.map_some]
    exact Option.Rel.some ⟨congrArg ListResult.element hout, hrep⟩
  | erase i x =>
    obtain ⟨r, hcode, hout, hrep⟩ := h.erase hlegal
    simp only [poolMachine, ListPool.step, hcode, Option.map_some]
    exact Option.Rel.some ⟨congrArg ListResult.element hout, hrep⟩
  | spliceFront i j =>
    obtain ⟨r, hcode, hrep⟩ := h.spliceFront hlegal
    simp only [poolMachine, ListPool.step, hcode, Option.map_some]
    exact Option.Rel.some ⟨rfl, hrep⟩
  | spliceBack i j =>
    obtain ⟨r, hcode, hrep⟩ := h.spliceBack hlegal
    simp only [poolMachine, ListPool.step, hcode, Option.map_some]
    exact Option.Rel.some ⟨rfl, hrep⟩
  | clear i =>
    exact Option.Rel.some ⟨rfl, h.put (IntrusiveList.holds_nil p.links)
      (IntrusiveList.Changed.refl p.links []) (List.Subset.refl []) fun x hx =>
        absurd hx List.not_mem_nil⟩
  | write x a b => exact Option.Rel.some ⟨rfl, h.write hlegal.2.2 _ fun _ => ⟨hlegal.1, hlegal.2.1⟩⟩
  | free x => exact Option.Rel.some ⟨rfl, h.write hlegal none nofun⟩

/-- **Lists are sequences** behind every part of a run of legal operations, none of which fails. -/
theorem intrusive_list_operations (ops : List (ListOp ι))
    (hlegal : tableMachine.Along Legal ListTable.empty ops) (k : ℕ) :
    ∃ rs p t, poolMachine.run (ListPool.empty : ListPool ι) (ops.take k) = some (rs, p) ∧
      tableMachine.run ListTable.empty (ops.take k) = some (rs, t) ∧ Represents p t := by
  have hfollows : Machine.Follows poolMachine tableMachine Represents ListPool.empty
      ListTable.empty ops :=
    (Machine.follows_iff (Q := Legal) (fun _ _ _ h hop => iff_of_true (h.step hop) hop)
      represents_empty hlegal).mpr hlegal
  obtain ⟨⟨rs, t⟩, ht⟩ := Option.isSome_iff_exists.mp
    (Machine.run_isSome (M := tableMachine) (fun _ _ => rfl) ListTable.empty (ops.take k))
  have hmatch := hfollows k
  rw [ht] at hmatch
  cases hp : poolMachine.run ListPool.empty (ops.take k) with
  | none =>
    rw [hp] at hmatch
    exact absurd hmatch nofun
  | some r =>
    rw [hp] at hmatch
    obtain ⟨hout, hrep⟩ : r.1 = rs ∧ Represents r.2 t := by
      cases hmatch with
      | some h => exact h
    exact ⟨rs, r.2, t, by rw [← hout], ht, hrep⟩

/-- Two elements with leftover pointers that go to another list and back. -/
def movedElements : List (ListOp Bool) :=
  [.write 1 7 9, .write 2 1 1, .pushBack true 1, .pushFront true 2, .spliceFront false true,
    .erase false 2, .free 2, .spliceBack true false, .spliceBack true false, .popFront true]

/-- The lists are their sequences while the elements move. -/
theorem intrusive_list_operations_moved :
    ∃ rs p t, poolMachine.run (ListPool.empty : ListPool Bool) (movedElements.take 10) =
        some (rs, p) ∧
      tableMachine.run ListTable.empty (movedElements.take 10) = some (rs, t) ∧ Represents p t := by
  refine intrusive_list_operations movedElements ?_ 10
  simp [movedElements, Machine.Along, tableMachine, ListTable.step, ListTable.put, ListTable.empty,
    Legal]

end ListPool

end Meld
