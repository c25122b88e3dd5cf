import Mathlib.Data.List.Forall2
import Meld.Db.HashIterator

/-!
# Updating stored tuples in place

A rule body may write the fields of the linear tuple it has matched.  With `UPDATE` the tuple is
then not destroyed: below the outermost iterate it leaves its bucket list and goes to the generated
facts, from which it is inserted again, but the outermost iterate, at register 0, leaves it where it
is.  `REMOTE_UPDATE` writes the fields of a tuple of another node where it is stored.  Neither of
the last two looks at the field by which the tuple is hashed.

* `HashTable.finishUpdated`: what `execute_linear_iter_list` does with an updated tuple.
* `HashTable.remoteUpdate`: `execute_remote_update` on a predicate stored as a hash table.
* `Indexed`: every stored tuple is in the list that a lookup of its hashed field returns.
* `reach_indexed`: this holds in every run whose updates in place keep the hashed field.
* `not_forall_reach_indexed`: an update at register 0 that changes the hashed field loses its tuple.
-/

namespace Meld

open Hash

/-- A linear predicate that is stored as a hash table by a field of type int or node. -/
structure IndexedPredicate where
  fields : List FieldType
  hashed : ℕ
  simple : fields[hashed]? = some .int ∨ fields[hashed]? = some .node

namespace HashTable

/-- The fields of the tuple at position `pos` of a bucket list are written. -/
def writeTuple (T : HashTable Tuple) (a : Ptr) (pos : ℕ) (tpl : Tuple) :
    Option (HashTable Tuple) :=
  (T.heap.writeList a fun l => { l with list := l.list.set pos tpl }).map fun h =>
    { T with heap := h }

/-- The end of a round of `execute_linear_iter_list` whose body has updated the tuple: the table and
what is added to the generated facts. -/
def finishUpdated (T : HashTable Tuple) (reg : ℕ) (a : Ptr) (pos : ℕ) (tpl : Tuple) :
    Option (HashTable Tuple × List Tuple) :=
  if reg > 0 then (T.eraseFromList a pos).map fun T' => (T', [tpl]) else some (T, [])

/-- `do_rec_match` against the value of a register.  A pattern for a list is not a list, so against
a register with a list that is not null the source reads the cell as a pattern; what comes of that
is `other`. -/
def recMatch (other : Value → Value → Bool) (m x : Value) : Bool :=
  match m with
  | .int i => match x with | .int j => i == j | _ => false
  | .float f => match x with | .float g => f == g | _ => false
  | .node i => match x with | .node j => i == j | _ => false
  | .nil => match x with | .nil => true | _ => false
  | .cons _ _ => other m x

/-- The first loop of `perform_remote_update`: the tuple agrees with the registers in the common
fields. -/
def agrees (other : Value → Value → Bool) (common : ℕ) (regs tpl : Tuple) : Bool :=
  (List.range common).all fun i => recMatch other (getField i regs) (getField i tpl)

/-- The second loop of `perform_remote_update`: the other fields are written. -/
def overwrite (common : ℕ) (regs tpl : Tuple) : Tuple := tpl.take common ++ regs.drop common

/-- The loop of `execute_remote_update` over the bucket lists: the list and the position of the
first tuple that agrees. -/
def remoteLoop (other : Value → Value → Bool) (common : ℕ) (regs : Tuple) (h : Heap Tuple) :
    ℕ → Iterator → Option (Option (Ptr × ℕ))
  | 0, _ => none
  | fuel + 1, it =>
    if it.atEnd then some none
    else do
      let l ← h.lists it.current
      match l.list.findIdx? (agrees other common regs) with
      | some pos => some (some (it.current, pos))
      | none =>
        let it ← it.next h
        remoteLoop other common regs h fuel it

/-- The tuple that `execute_remote_update` updates, if there is one.  When the hashed field is among
the common ones, only the list of its value is searched. -/
def remoteTarget (other : Value → Value → Bool) (hashed common : ℕ) (regs : Tuple)
    (T : HashTable Tuple) : Option (Option (Ptr × ℕ)) :=
  if hashed < common then do
    let a ← T.lookupList (getField hashed regs)
    let l ← T.heap.lists a
    some ((l.list.findIdx? (agrees other common regs)).map fun pos => (a, pos))
  else do
    let it ← Iterator.begin T.heap T.sh
    remoteLoop other common regs T.heap (T.heap.fresh + 1) it

/-- `execute_remote_update` on the hash table of the target.  When no tuple agrees, the table stays
and the edit fact is sent instead. -/
def remoteUpdate (other : Value → Value → Bool) (hashed common : ℕ) (regs : Tuple)
    (T : HashTable Tuple) : Option (HashTable Tuple) := do
  match ← remoteTarget other hashed common regs T with
  | none => some T
  | some (a, pos) =>
    let l ← T.heap.lists a
    T.writeTuple a pos (overwrite common regs (l.list.getD pos []))

/-! ## What the updates do to the table -/

variable {T T' : HashTable Tuple} {a : Ptr} {l : HashTableList Tuple} {pos : ℕ} {x x' : Tuple}

theorem writeTuple_eq (hl : T.heap.lists a = some l) :
    T.writeTuple a pos x' = some { T with heap := withTuples T.heap a l (l.list.set pos x') } := by
  simp [writeTuple, Heap.writeList, hl, withTuples]

/-- A tuple that is written and then erased is erased. -/
theorem eraseFromList_writeTuple (hl : T.heap.lists a = some l)
    (hw : T.writeTuple a pos x' = some T') : T'.eraseFromList a pos = T.eraseFromList a pos := by
  rw [writeTuple_eq hl, Option.some.injEq] at hw
  subst hw
  have herase : (l.list.set pos x').eraseIdx pos = l.list.eraseIdx pos := by
    simp [List.eraseIdx_set_eq]
  simp [eraseFromList, Heap.eraseFromList, Heap.writeList, withTuples, hl, herase]

theorem remoteLoop_mem {other : Value → Value → Bool} {common : ℕ} {regs : Tuple}
    {h : Heap Tuple} {fuel : ℕ} {it : Iterator}
    (hloop : remoteLoop other common regs h fuel it = some (some (a, pos))) :
    ∃ l x, h.lists a = some l ∧ l.list[pos]? = some x := by
  induction fuel generalizing it with
  | zero => cases hloop
  | succ fuel ih =>
    rw [remoteLoop] at hloop
    split at hloop
    · cases hloop
    · obtain ⟨l, hl, hloop⟩ := Option.bind_eq_some_iff.mp hloop
      cases hidx : l.list.findIdx? (agrees other common regs) with
      | some k =>
        simp only [hidx, Option.some.injEq, Prod.mk.injEq] at hloop
        obtain ⟨rfl, rfl⟩ := hloop
        obtain ⟨hlt, -⟩ := List.findIdx?_eq_some_iff_getElem.mp hidx
        exact ⟨l, _, hl, List.getElem?_eq_getElem hlt⟩
      | none =>
        simp only [hidx] at hloop
        obtain ⟨it', -, hloop⟩ := Option.bind_eq_some_iff.mp hloop
        exact ih hloop

/-- The target of a remote update is a stored tuple. -/
theorem remoteTarget_mem {other : Value → Value → Bool} {hashed common : ℕ} {regs : Tuple}
    (htarget : remoteTarget other hashed common regs T = some (some (a, pos))) :
    ∃ l x, T.heap.lists a = some l ∧ l.list[pos]? = some x := by
  unfold remoteTarget at htarget
  split at htarget
  · obtain ⟨b, -, htarget⟩ := Option.bind_eq_some_iff.mp htarget
    obtain ⟨l, hl, htarget⟩ := Option.bind_eq_some_iff.mp htarget
    rw [Option.some.injEq] at htarget
    obtain ⟨k, hk, heq⟩ := Option.map_eq_some_iff.mp htarget
    obtain ⟨rfl, rfl⟩ := Prod.mk.inj heq
    obtain ⟨hlt, -⟩ := List.findIdx?_eq_some_iff_getElem.mp hk
    exact ⟨l, _, hl, List.getElem?_eq_getElem hlt⟩
  · obtain ⟨it, -, hloop⟩ := Option.bind_eq_some_iff.mp htarget
    exact remoteLoop_mem hloop

/-- A remote update leaves the table, or writes its target. -/
theorem remoteUpdate_cases {other : Value → Value → Bool} {hashed common : ℕ} {regs : Tuple}
    (hupdate : remoteUpdate other hashed common regs T = some T') :
    T' = T ∨ ∃ a pos l x, remoteTarget other hashed common regs T = some (some (a, pos)) ∧
      T.heap.lists a = some l ∧ l.list[pos]? = some x ∧
      T.writeTuple a pos (overwrite common regs x) = some T' := by
  obtain ⟨target, htarget, hupdate⟩ := Option.bind_eq_some_iff.mp hupdate
  cases target with
  | none =>
    rw [Option.some.injEq] at hupdate
    exact Or.inl hupdate.symm
  | some r =>
    obtain ⟨a, pos⟩ := r
    obtain ⟨l, x, hl, hx⟩ := remoteTarget_mem htarget
    obtain ⟨l', hl', hw⟩ := Option.bind_eq_some_iff.mp hupdate
    rw [hl, Option.some.injEq] at hl'
    subst hl'
    rw [List.getD_eq_getElem?_getD, hx, Option.getD_some] at hw
    exact Or.inr ⟨a, pos, l, x, htarget, hl, hx, hw⟩

/-- **Writing a tuple** that keeps its key keeps the table. -/
theorem Bounded.writeTuple {key : Tuple → Value} {M : Multiset Tuple} (B : Bounded key T M)
    (hl : T.heap.lists a = some l) (hx : l.list[pos]? = some x) (hkey : key x' = key x)
    (hw : T.writeTuple a pos x' = some T') :
    ∃ M', Bounded key T' M' ∧ ∀ y ∈ M', y = x' ∨ y ∈ M := by
  obtain ⟨S, I, hheld⟩ := B
  rw [writeTuple_eq hl, Option.some.injEq] at hw
  subst hw
  have ok := I.rep.lists a l hl
  have hmem : x ∈ l.list := List.mem_of_getElem? hx
  have hne : l.list.set pos x' ≠ [] := fun h => ok.nonempty (by simpa using h)
  have hkeys : ∀ y ∈ l.list.set pos x', sameField0 (key y) l.value = true := by
    intro y hy
    rcases List.mem_or_eq_of_mem_set hy with hy | rfl
    · exact ok.keys y hy
    · rw [hkey]
      exact ok.keys x hmem
  have R' := setTuples_rep I.rep hl hne hkeys
  have hstored := setTuples_stored I.rep hl (l.list.set pos x')
  refine ⟨_, ⟨S, ⟨R', I.short, rfl, ?_⟩, hheld⟩, fun y hy => ?_⟩
  · have hcard := congrArg Multiset.card hstored
    simp only [Multiset.card_add, Multiset.coe_card, List.length_set, Nat.add_right_cancel_iff]
      at hcard
    exact I.elems.trans ((congrArg Multiset.card I.stored).symm.trans hcard.symm)
  · obtain ⟨b, m, hm, hy⟩ := R'.mem_stored.mp hy
    by_cases hba : b = a
    · subst hba
      simp only [withTuples, Function.update_self, Option.some.injEq] at hm
      subst hm
      rcases List.mem_or_eq_of_mem_set hy with hy | hy
      · exact Or.inr (I.stored ▸ I.rep.mem_stored.mpr ⟨b, l, hl, hy⟩)
      · exact Or.inl hy
    · simp only [withTuples, Function.update_of_ne hba] at hm
      exact Or.inr (I.stored ▸ I.rep.mem_stored.mpr ⟨b, m, hm, hy⟩)

end HashTable

/-! ## Runs -/

namespace InPlace

/-- Every stored tuple is in the bucket list of the value of its hashed field, the one that
`lookup_list` returns for that value. -/
def Indexed (P : IndexedPredicate) (T : HashTable Tuple) : Prop :=
  ∀ a l, T.heap.lists a = some l → ∀ x ∈ l.list,
    l.value = getField P.hashed x ∧ T.lookupList (getField P.hashed x) = some a

/-- The states of the hash table of a predicate, with the updated tuples that wait in the generated
facts: tuples come in, are consumed, are updated by an iterate at some register, and are updated
from another node.  `fits` is the condition on insertions, `keeps` on a tuple updated in place,
before and after. -/
inductive Reach (P : IndexedPredicate) (other : Value → Value → Bool)
    (fits : HashTable Tuple → Tuple → Prop) (keeps : Tuple → Tuple → Prop) :
    HashTable Tuple → List Tuple → Prop where
  | setup : Reach P other fits keeps .setup []
  | insert {T T' gen x b} (hr : Reach P other fits keeps T gen) (hx : TupleHasType x P.fields)
      (hfits : fits T x) (hstep : T.insert (getField P.hashed) x = some (T', b)) :
      Reach P other fits keeps T' gen
  | move {T T' gen x b} (hr : Reach P other fits keeps T (x :: gen)) (hfits : fits T x)
      (hstep : T.insert (getField P.hashed) x = some (T', b)) : Reach P other fits keeps T' gen
  | consume {T T' gen a l pos x} (hr : Reach P other fits keeps T gen)
      (hl : T.heap.lists a = some l) (hx : l.list[pos]? = some x)
      (hstep : T.eraseFromList a pos = some T') : Reach P other fits keeps T' gen
  | update {T U T' gen new a l pos x x'} (reg : ℕ) (hr : Reach P other fits keeps T gen)
      (hl : T.heap.lists a = some l) (hx : l.list[pos]? = some x)
      (hx' : TupleHasType x' P.fields) (hkeeps : reg = 0 → keeps x x')
      (hwrite : T.writeTuple a pos x' = some U)
      (hstep : U.finishUpdated reg a pos x' = some (T', new)) :
      Reach P other fits keeps T' (gen ++ new)
  | remote {T T' gen common regs} (hr : Reach P other fits keeps T gen)
      (hregs : TupleHasType regs P.fields)
      (hkeeps : ∀ a pos l x,
        HashTable.remoteTarget other P.hashed common regs T = some (some (a, pos)) →
        T.heap.lists a = some l → l.list[pos]? = some x →
        keeps x (HashTable.overwrite common regs x))
      (hstep : T.remoteUpdate other P.hashed common regs = some T') :
      Reach P other fits keeps T' gen

/-- The hashed field keeps its value. -/
def Keeps (P : IndexedPredicate) (x x' : Tuple) : Prop :=
  getField P.hashed x' = getField P.hashed x

variable {P : IndexedPredicate} {other : Value → Value → Bool} {T : HashTable Tuple}
  {gen : List Tuple}

theorem typed_overwrite {regs x : Tuple} {fields : List FieldType} (common : ℕ)
    (hregs : TupleHasType regs fields) (hx : TupleHasType x fields) :
    TupleHasType (HashTable.overwrite common regs x) fields := by
  have happend : List.Forall₂ HasType (x.take common ++ regs.drop common)
      (fields.take common ++ fields.drop common) :=
    List.rel_append (List.forall₂_take common hx) (List.forall₂_drop common hregs)
  rwa [List.take_append_drop] at happend

/-- The hashed field of a typed tuple is an integer or a node, so two such fields count as the same
only if they are equal. -/
theorem eq_of_sameField0 {x : Tuple} (hx : TupleHasType x P.fields) {v : Value}
    (hsame : sameField0 (getField P.hashed x) v = true) : v = getField P.hashed x := by
  rcases sameField0_iff.mp hsame with heq | ⟨⟨y, ys, hcons⟩, -⟩
  · exact heq.symm
  · have htype : ∀ t, P.fields[P.hashed]? = some t → HasType (getField P.hashed x) t := by
      intro t ht
      obtain ⟨hlt, ht⟩ := List.getElem?_eq_some_iff.mp ht
      have hlen : P.hashed < x.length := by rw [hx.length_eq]; exact hlt
      have hget := List.Forall₂.get hx hlen hlt
      rw [getField, List.getD_eq_getElem _ _ hlen, ← ht]
      exact hget
    rcases P.simple with hint | hnode
    · have h := htype _ hint
      rw [hcons] at h
      cases h
    · have h := htype _ hnode
      rw [hcons] at h
      cases h

/-- **The invariant of the runs.** -/
theorem Reach.bounded (hr : Reach P other (HashTable.Fits (getField P.hashed)) (Keeps P) T gen) :
    (∃ M, HashTable.Bounded (getField P.hashed) T M ∧ ∀ x ∈ M, TupleHasType x P.fields) ∧
      ∀ x ∈ gen, TupleHasType x P.fields := by
  induction hr with
  | setup => exact ⟨⟨0, HashTable.bounded_setup _, by simp⟩, by simp⟩
  | insert hr hx hfits hstep ih =>
    obtain ⟨⟨M, B, htyped⟩, hgen⟩ := ih
    obtain ⟨T', b, hins, B'⟩ := B.insert hfits
    rw [hstep, Option.some.injEq, Prod.mk.injEq] at hins
    obtain ⟨rfl, rfl⟩ := hins
    refine ⟨⟨_, B', fun y hy => ?_⟩, hgen⟩
    rcases Multiset.mem_cons.mp hy with rfl | hy
    · exact hx
    · exact htyped y hy
  | move hr hfits hstep ih =>
    obtain ⟨⟨M, B, htyped⟩, hgen⟩ := ih
    obtain ⟨T', b, hins, B'⟩ := B.insert hfits
    rw [hstep, Option.some.injEq, Prod.mk.injEq] at hins
    obtain ⟨rfl, rfl⟩ := hins
    refine ⟨⟨_, B', fun y hy => ?_⟩, fun y hy => hgen y (List.mem_cons_of_mem _ hy)⟩
    rcases Multiset.mem_cons.mp hy with rfl | hy
    · exact hgen y List.mem_cons_self
    · exact htyped y hy
  | consume hr hl hx hstep ih =>
    obtain ⟨⟨M, B, htyped⟩, hgen⟩ := ih
    obtain ⟨T', her, B'⟩ := B.erase hl hx
    rw [hstep, Option.some.injEq] at her
    subst her
    exact ⟨⟨_, B', fun y hy => htyped y (Multiset.mem_of_mem_erase hy)⟩, hgen⟩
  | update reg hr hl hx hx' hkeeps hwrite hstep ih =>
    obtain ⟨⟨M, B, htyped⟩, hgen⟩ := ih
    unfold HashTable.finishUpdated at hstep
    split at hstep
    · -- the tuple leaves the table, so what was written does not matter there
      obtain ⟨T'', her, heq⟩ := Option.map_eq_some_iff.mp hstep
      obtain ⟨rfl, rfl⟩ := Prod.mk.inj heq
      rw [HashTable.eraseFromList_writeTuple hl hwrite] at her
      obtain ⟨T', her', B'⟩ := B.erase hl hx
      rw [her, Option.some.injEq] at her'
      subst her'
      refine ⟨⟨_, B', fun y hy => htyped y (Multiset.mem_of_mem_erase hy)⟩, fun y hy => ?_⟩
      rcases List.mem_append.mp hy with hy | hy
      · exact hgen y hy
      · rw [List.mem_singleton.mp hy]
        exact hx'
    · rename_i hreg
      obtain ⟨rfl, rfl⟩ := Prod.mk.inj (Option.some.inj hstep)
      obtain ⟨M', B', hM'⟩ := B.writeTuple hl hx (hkeeps (by omega)) hwrite
      refine ⟨⟨M', B', fun y hy => ?_⟩, by simpa using hgen⟩
      rcases hM' y hy with rfl | hy
      · exact hx'
      · exact htyped y hy
  | remote hr hregs hkeeps hstep ih =>
    obtain ⟨⟨M, B, htyped⟩, hgen⟩ := ih
    rcases HashTable.remoteUpdate_cases hstep with rfl | ⟨a, pos, l, x, htarget, hl, hx, hwrite⟩
    · exact ⟨⟨M, B, htyped⟩, hgen⟩
    · obtain ⟨M', B', hM'⟩ := B.writeTuple hl hx (hkeeps a pos l x htarget hl hx) hwrite
      have hxM : x ∈ M := by
        obtain ⟨S, I, -⟩ := B
        rw [← I.stored]
        exact I.rep.mem_stored.mpr ⟨a, l, hl, List.mem_of_getElem? hx⟩
      refine ⟨⟨M', B', fun y hy => ?_⟩, hgen⟩
      rcases hM' y hy with rfl | hy
      · exact typed_overwrite _ hregs (htyped x hxM)
      · exact htyped y hy

theorem Reach.typed (hr : Reach P other (HashTable.Fits (getField P.hashed)) (Keeps P) T gen)
    {a : Ptr} {l : HashTableList Tuple} {x : Tuple} (hl : T.heap.lists a = some l)
    (hx : x ∈ l.list) : TupleHasType x P.fields := by
  obtain ⟨⟨M, ⟨S, I, -⟩, htyped⟩, -⟩ := hr.bounded
  exact htyped x (I.stored ▸ I.rep.mem_stored.mpr ⟨a, l, hl, hx⟩)

/-- **In every run whose updates in place keep the hashed field**, every stored tuple is in the list
that a lookup of its hashed field returns. -/
theorem reach_indexed
    (hr : Reach P other (HashTable.Fits (getField P.hashed)) (Keeps P) T gen) : Indexed P T := by
  obtain ⟨⟨M, ⟨S, I, -⟩, -⟩, -⟩ := hr.bounded
  intro a l hl x hx
  have hsame := (I.rep.lists a l hl).keys x hx
  refine ⟨eq_of_sameField0 (hr.typed hl hx) hsame, ?_⟩
  rcases I.rep.lookupList_eq (getField P.hashed x) with ⟨b, m, hm, hsame', hlook⟩ | ⟨hnone, -⟩
  · have hba := I.rep.distinct b a m l hm hl (sameField0_trans (sameField0_symm hsame') hsame)
    subst hba
    exact hlook
  · rw [hnone a l hl] at hsame
    cases hsame

/-- Two integer fields; the predicate is hashed by the first. -/
def pairPredicate : IndexedPredicate := ⟨[.int, .int], 0, Or.inl rfl⟩

theorem typed_pair (i j : BitVec 32) : TupleHasType [.int i, .int j] pairPredicate.fields :=
  .cons (.int i) (.cons (.int j) .nil)

/-- No register has a list. -/
def noPattern (_ _ : Value) : Bool := false

/-- `(7, 1)` comes into an empty table, and an `UPDATE` at register 0 writes it. -/
def writeSeven (x : Tuple) : Option (HashTable Tuple) := do
  let (T, _) ← HashTable.setup.insert (getField 0) [.int 7, .int 1]
  let a ← T.lookupList (.int 7)
  T.writeTuple a 0 x

theorem reach_writeSeven (keeps : Tuple → Tuple → Prop) {x : Tuple} {U : HashTable Tuple}
    (hx : TupleHasType x pairPredicate.fields) (hkeeps : keeps [.int 7, .int 1] x)
    (hwrite : writeSeven x = some U) :
    Reach pairPredicate noPattern (HashTable.Fits (getField 0)) keeps U [] := by
  rw [writeSeven, Option.bind_eq_bind, Option.bind_eq_some_iff] at hwrite
  obtain ⟨⟨T, b⟩, hins, hwrite⟩ := hwrite
  obtain ⟨a, hlook, hwrite⟩ := Option.bind_eq_some_iff.mp hwrite
  have hlist : ((HashTable.setup.insert (getField 0) [.int 7, .int 1]).bind fun r =>
      (r.1.lookupList (.int 7)).bind fun a => (r.1.heap.lists a).map HashTableList.list) =
        some [[.int 7, .int 1]] := by decide +kernel
  rw [hins, Option.bind_some, hlook, Option.bind_some, Option.map_eq_some_iff] at hlist
  obtain ⟨l, hl, hlist⟩ := hlist
  have hr : Reach pairPredicate noPattern (HashTable.Fits (getField 0)) keeps T [] :=
    .insert .setup (typed_pair 7 1) (HashTable.fits_setup (getField 0) _) hins
  exact .update 0 hr hl (by rw [hlist]; rfl) hx (fun _ => hkeeps) hwrite rfl

/-- `(7, 1)` becomes `(7, 2)` by an `UPDATE` at register 0, and then `(7, 3)` by a `REMOTE_UPDATE`
that looks for a tuple with a 7 in front.  A lookup of 7 returns the list it is in. -/
theorem reach_indexed_seven : ∃ T a l,
    ((writeSeven [.int 7, .int 2]).bind fun U =>
        U.remoteUpdate noPattern 0 1 [.int 7, .int 3]) = some T ∧
      Indexed pairPredicate T ∧ T.heap.lists a = some l ∧ l.list = [[.int 7, .int 3]] ∧
      T.lookupList (.int 7) = some a := by
  have hrun : (((writeSeven [.int 7, .int 2]).bind fun U =>
      U.remoteUpdate noPattern 0 1 [.int 7, .int 3]).bind fun T =>
        (T.lookupList (.int 7)).bind fun a => (T.heap.lists a).map HashTableList.list) =
          some [[.int 7, .int 3]] := by decide +kernel
  obtain ⟨T, hT, hrun⟩ := Option.bind_eq_some_iff.mp hrun
  obtain ⟨a, -, hrun⟩ := Option.bind_eq_some_iff.mp hrun
  obtain ⟨l, hl, hlist⟩ := Option.map_eq_some_iff.mp hrun
  obtain ⟨U, hU, hremote⟩ := Option.bind_eq_some_iff.mp hT
  have hr := reach_writeSeven (Keeps pairPredicate) (typed_pair 7 2) rfl hU
  have hindexed : Indexed pairPredicate T := by
    refine reach_indexed (.remote hr (typed_pair 7 3) (fun a pos l x _ hl hx => ?_) hremote)
    cases hr.typed hl (List.mem_of_getElem? hx) with
    | cons hv hvs => rfl
  have hmem : [.int 7, .int 3] ∈ l.list := by simp [hlist]
  exact ⟨T, a, l, hT, hindexed, hl, hlist, (hindexed a l hl _ hmem).2⟩

/-- **An update at register 0 can lose its tuple**: `(7, 1)` becomes `(8, 1)` and stays in the list
of 7. -/
theorem not_forall_reach_indexed :
    ¬ ∀ (P : IndexedPredicate) (other : Value → Value → Bool) (T : HashTable Tuple)
      (gen : List Tuple),
      Reach P other (HashTable.Fits (getField P.hashed)) (fun _ _ => True) T gen →
        Indexed P T := by
  intro hall
  have hrun : ((writeSeven [.int 8, .int 1]).bind fun T =>
      (T.lookupList (.int 7)).bind fun a => (T.heap.lists a).map fun l =>
        (l.value, l.list)) = some (.int 7, [[.int 8, .int 1]]) := by decide +kernel
  obtain ⟨T, hT, hrun⟩ := Option.bind_eq_some_iff.mp hrun
  obtain ⟨a, -, hrun⟩ := Option.bind_eq_some_iff.mp hrun
  obtain ⟨l, hl, hlist⟩ := Option.map_eq_some_iff.mp hrun
  obtain ⟨hvalue, hlist⟩ := Prod.mk.inj hlist
  have hr := reach_writeSeven (fun _ _ => True) (typed_pair 8 1) trivial hT
  have hmem : [.int 8, .int 1] ∈ l.list := by simp [hlist]
  exact absurd (hvalue.symm.trans (hall _ _ _ _ hr a l hl _ hmem).1) (by decide)

end InPlace
end Meld
