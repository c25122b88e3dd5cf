import Meld.Db.HashTableErase
import Mathlib.Combinatorics.Pigeonhole
import Mathlib.Data.Finset.Prod

/-!
# Runs of a hash table

A run starts with an empty table and inserts and erases tuples.  `Sound` is what a hash table
promises about a state: the representation invariant, exact counters, and a `lookup_list` that
returns the list of exactly the stored tuples of a key.

The counters of a table have sixteen bits, and a table of the last level is never split.  So the
promise is kept as long as no insertion adds a list to a table that already has 65535
(`reach_sound`), and there are runs that break it (`not_forall_sound`): more than 65536 integers
agree in the slots of the first three levels, and their lists all go to one table.
-/

namespace Meld

open Hash

variable {α : Type}

namespace Hash

/-- The number of bucket lists of the table at `p`. -/
def Heap.held (h : Heap α) (p : Ptr) : ℕ :=
  ((Finset.range h.fresh).filter fun a => (h.lists a).map (fun l => l.parent) = some p).card

variable {key : α → Value} {h : Heap α} {root e : Ptr} {S : Shape}

/-- The lists of a table are those in its chains. -/
theorem Rep.held_eq (R : Rep key h root S e) {p : Ptr} {t : SubhashTable}
    (ht : h.tables p = some t) : h.held p = S.held p := by
  have hslot := (R.tables p t ht).slot
  have hunion : (Finset.range h.fresh).filter
      (fun a => (h.lists a).map (fun l => l.parent) = some p) =
      (Finset.range prime).biUnion fun i => (S.chain p i).toFinset := by
    ext a
    rw [Finset.mem_filter, Finset.mem_range, Finset.mem_biUnion, Option.map_eq_some_iff]
    constructor
    · rintro ⟨-, l, hl, rfl⟩
      exact ⟨l.idx, Finset.mem_range.mpr (R.lists a l hl).idx_lt,
        List.mem_toFinset.mpr (R.lists a l hl).mem⟩
    · rintro ⟨i, hi, ha⟩
      obtain ⟨l, hl, hp, -⟩ := (hslot i (Finset.mem_range.mp hi)).own a (List.mem_toFinset.mp ha)
      exact ⟨R.fresh_lists a l hl, l, hl, hp⟩
  rw [Heap.held, hunion, Finset.card_biUnion, Shape.held]
  · refine Finset.sum_congr rfl fun i hi => ?_
    exact List.toFinset_card_of_nodup (hslot i (Finset.mem_range.mp hi)).nodup
  · intro i hi j hj hij
    refine Finset.disjoint_left.mpr ?_
    intro a hai haj
    obtain ⟨l, hl, -, hli⟩ := (hslot i (Finset.mem_range.mp hi)).own a (List.mem_toFinset.mp hai)
    obtain ⟨m, hm, -, hmj⟩ := (hslot j (Finset.mem_range.mp hj)).own a (List.mem_toFinset.mp haj)
    rw [hl, Option.some.injEq] at hm
    subst hm
    exact hij (hli ▸ hmj)

/-- Every stored tuple is in the list of its key. -/
theorem Rep.mem_stored (R : Rep key h root S e) {x : α} :
    x ∈ h.stored ↔ ∃ a l, h.lists a = some l ∧ x ∈ l.list := by
  rw [Heap.stored, Multiset.mem_sum]
  constructor
  · rintro ⟨a, -, hx⟩
    cases hl : h.lists a with
    | none => simp [Heap.tuples_of_none hl] at hx
    | some l =>
      rw [Heap.tuples_of_list hl] at hx
      exact ⟨a, l, hl, by simpa using hx⟩
  · rintro ⟨a, l, hl, hx⟩
    refine ⟨a, Finset.mem_range.mpr (R.fresh_lists a l hl), ?_⟩
    rw [Heap.tuples_of_list hl]
    simpa using hx

/-- The list of a key holds exactly the stored tuples of that key. -/
theorem Rep.filter_stored (R : Rep key h root S e) {v : Value} {a : Ptr} {l : HashTableList α}
    (hl : h.lists a = some l) (hsame : sameField0 v l.value = true) :
    h.stored.filter (fun x => sameField0 v (key x) = true) = (l.list : Multiset α) := by
  have hmem : a ∈ Finset.range h.fresh := Finset.mem_range.mpr (R.fresh_lists a l hl)
  have hself : (h.tuples a : Multiset α).filter (fun x => sameField0 v (key x) = true) =
      (l.list : Multiset α) := by
    rw [Heap.tuples_of_list hl, Multiset.filter_eq_self]
    intro x hx
    exact sameField0_trans hsame (sameField0_symm ((R.lists a l hl).keys x (by simpa using hx)))
  have hother : ∀ b ∈ (Finset.range h.fresh).erase a,
      (h.tuples b : Multiset α).filter (fun x => sameField0 v (key x) = true) = 0 := by
    intro b hb
    rw [Multiset.filter_eq_nil]
    intro x hx hsx
    cases hm : h.lists b with
    | none => simp [Heap.tuples_of_none hm] at hx
    | some m =>
      rw [Heap.tuples_of_list hm] at hx
      have hxm := (R.lists b m hm).keys x (by simpa using hx)
      have heq := R.distinct b a m l hm hl
        (sameField0_trans (sameField0_symm hxm) (sameField0_trans (sameField0_symm hsx) hsame))
      exact Finset.ne_of_mem_erase hb heq
  have hfilter : ∀ s : Finset Ptr, (∑ b ∈ s, (h.tuples b : Multiset α)).filter
      (fun x => sameField0 v (key x) = true) =
      ∑ b ∈ s, (h.tuples b : Multiset α).filter (fun x => sameField0 v (key x) = true) := by
    intro s
    induction s using Finset.cons_induction with
    | empty => rfl
    | cons b s hb ih => rw [Finset.sum_cons, Finset.sum_cons, Multiset.filter_add, ih]
  rw [Heap.stored, hfilter, ← Finset.add_sum_erase _ _ hmem, hself, Finset.sum_eq_zero hother,
    add_zero]

/-- A table without lists: the root alone. -/
theorem setup_rep (key : α → Value) :
    Rep key (HashTable.setup : HashTable α).heap (HashTable.setup : HashTable α).sh
      ⟨fun _ => [], fun _ _ => []⟩ 0 := by
  have htables : ∀ p t, (HashTable.setup : HashTable α).heap.tables p = some t →
      p = 1 ∧ t = SubhashTable.setup 0 := by
    intro p t ht
    simp only [HashTable.setup, Heap.allocTable, Function.update_apply] at ht
    split at ht
    · rename_i hp
      exact ⟨hp, (Option.some.inj ht).symm⟩
    · cases ht
  constructor
  case root_table => exact ⟨SubhashTable.setup 0, by simp [HashTable.setup, Heap.allocTable], rfl⟩
  case path_root => rfl
  case tables_zero => simp [HashTable.setup, Heap.allocTable]
  case lists_zero => rfl
  case fresh_tables =>
    intro p t ht
    rw [(htables p t ht).1]
    exact Nat.lt_succ_self 1
  case fresh_lists => exact fun a l hl => by cases hl
  case tables =>
    intro p t ht
    obtain ⟨-, rfl⟩ := htables p t ht
    have hbits : ∀ j, (SubhashTable.setup 0).isSubhash j = false := Bitmap.getBit_create 1
    have hnone : subs (SubhashTable.setup 0) = 0 := by
      rw [subs, Finset.card_eq_zero, Finset.filter_eq_empty_iff]
      intro j _
      simp [hbits j]
    refine ⟨rfl, fun j _ => hbits j, Nat.zero_lt_succ 3, fun i _ => ?_, ?_, ?_⟩
    · rw [hbits]
      exact ⟨List.nodup_nil, fun a ha => absurd ha List.not_mem_nil,
        fun hb => absurd hb Bool.false_ne_true, fun _ => ⟨rfl, trivial⟩⟩
    · simp [SubhashTable.setup, Shape.held]
    · rw [hnone]
      rfl
  case lists => exact fun a l hl => by cases hl
  case parent => exact fun p t ht hroot => absurd (htables p t ht).1 hroot
  case distinct => exact fun a b l m hl => by cases hl
  case nonempty => exact fun p t ht hroot => absurd (htables p t ht).1 hroot

end Hash

namespace HashTable

variable {key : α → Value}

/-- The state of a run that stores the tuples `M`: the representation invariant, with counters
modulo `2^16`, and the number of tuples. -/
structure Inv (key : α → Value) (T : HashTable α) (S : Shape) (M : Multiset α) : Prop where
  rep : Rep key T.heap T.sh S 0
  short : S.Short
  stored : T.heap.stored = M
  elems : T.elems = M.card

theorem inv_setup (key : α → Value) : Inv key setup ⟨fun _ => [], fun _ _ => []⟩ 0 := by
  refine ⟨setup_rep key, ?_, ?_, rfl⟩
  · intro p i _
    exact Nat.zero_lt_succ 7
  · refine Finset.sum_eq_zero fun a _ => ?_
    rfl

/-- **Insertion** succeeds, stores its tuple and keeps the invariant. -/
theorem Inv.insert {T : HashTable α} {S : Shape} {M : Multiset α} (I : Inv key T S M) (x : α) :
    ∃ T' b S', T.insert key x = some (T', b) ∧ Inv key T' S' (x ::ₘ M) ∧
      Grows key T.heap T.sh S S' x ∧ T'.sh = T.sh := by
  obtain ⟨h', S', n, hins, R', hgrow, hstored⟩ := insert_rep I.rep I.short x
  refine ⟨{ T with elems := T.elems + 1, heap := h' }, n == 1, S', ?_,
    ⟨R', hgrow.short, ?_, ?_⟩, hgrow, rfl⟩
  · simp [HashTable.insert, hins]
  · rw [hstored, I.stored]
  · rw [I.elems, Multiset.card_cons]

/-- **Removal** succeeds, takes its tuple away and keeps the invariant, if the table of the list is
not taken for empty while it holds other lists. -/
theorem Inv.erase [DecidableEq α] {T : HashTable α} {S : Shape} {M : Multiset α}
    (I : Inv key T S M) {a : Ptr} {l : HashTableList α} (hl : T.heap.lists a = some l) {pos : ℕ}
    {x : α} (hx : l.list[pos]? = some x)
    (hheld : l.list.length = 1 → S.held l.parent % 65536 = 1 → S.held l.parent = 1) :
    ∃ T' S', T.eraseFromList a pos = some T' ∧ Inv key T' S' (M.erase x) ∧ Shrinks S S' ∧
      T'.sh = T.sh := by
  obtain ⟨h', S', her, R', hshr, hstored⟩ := eraseFromList_rep I.rep I.short hl hx hheld
  have hM : M = x ::ₘ h'.stored := by rw [hstored, I.stored]
  refine ⟨{ T with elems := T.elems - 1, heap := h' }, S', ?_, ⟨R', hshr.short, ?_, ?_⟩, hshr, rfl⟩
  · simp [HashTable.eraseFromList, hl, her]
  · rw [hM, Multiset.erase_cons_head]
  · rw [hM, Multiset.erase_cons_head, I.elems, hM, Multiset.card_cons, Nat.add_sub_cancel]

/-! ## Runs -/

/-- What a hash table that stores the tuples `M` promises. -/
structure Sound (key : α → Value) (T : HashTable α) (M : Multiset α) : Prop where
  /-- the representation invariant -/
  rep : ∃ S, Rep key T.heap T.sh S 0
  /-- the counters are exact -/
  uniqueLists : ∀ p t, T.heap.tables p = some t → t.uniqueLists.toNat = T.heap.held p
  uniqueSubs : ∀ p t, T.heap.tables p = some t → t.uniqueSubs.toNat = subs t
  /-- `lookup_list` returns the stored tuples of a key, or null when there are none -/
  lookup : ∀ v, (T.lookupList v = some 0 ∧ ∀ x ∈ M, sameField0 v (key x) = false) ∨
    ∃ a l, T.lookupList v = some a ∧ T.heap.lists a = some l ∧ l.list ≠ [] ∧
      (l.list : Multiset α) = M.filter fun x => sameField0 v (key x) = true
  /-- no operation touches an object that is not allocated -/
  insert_ok : ∀ x, ∃ T' b, T.insert key x = some (T', b)
  erase_ok : ∀ a l, T.heap.lists a = some l → ∀ pos < l.list.length,
    ∃ T', T.eraseFromList a pos = some T'

/-- An insertion does not give a list to a table that has 65535 lists already. -/
def Fits (key : α → Value) (T : HashTable α) (x : α) : Prop :=
  T.lookupList (key x) = some 0 → ∀ q i level,
    locate T.heap maxLevels T.sh (hashField (key x)) 0 = some (q, i, level) →
      T.heap.held q < 65535

/-- The states that insertions and removals lead to, each insertion under the condition `ok`, with
the tuples inserted and not erased since. -/
inductive Reach [DecidableEq α] (key : α → Value) (ok : HashTable α → α → Prop) :
    HashTable α → Multiset α → Prop where
  | setup : Reach key ok setup 0
  | insert {T T' : HashTable α} {M : Multiset α} {x : α} {b : Bool} (hr : Reach key ok T M)
      (hok : ok T x) (hstep : T.insert key x = some (T', b)) : Reach key ok T' (x ::ₘ M)
  | erase {T T' : HashTable α} {M : Multiset α} {a : Ptr} {l : HashTableList α} {pos : ℕ} {x : α}
      (hr : Reach key ok T M) (hl : T.heap.lists a = some l) (hx : l.list[pos]? = some x)
      (hstep : T.eraseFromList a pos = some T') : Reach key ok T' (M.erase x)

section Exact

variable {T : HashTable α} {S : Shape} {M : Multiset α}

/-- With fewer than `2^16` lists in every table the counters are exact, and all promises hold. -/
theorem Inv.sound (I : Inv key T S M) (hheld : ∀ p, S.held p < 65536) : Sound key T M := by
  classical
  have R := I.rep
  constructor
  case rep => exact ⟨S, R⟩
  case uniqueLists =>
    intro p t ht
    rw [(R.tables p t ht).uniqueLists, R.held_eq ht, UInt16.toNat_ofNat']
    exact Nat.mod_eq_of_lt (hheld p)
  case uniqueSubs =>
    intro p t ht
    have hle := subs_le t
    have hprime : prime = 29 := rfl
    rw [(R.tables p t ht).uniqueSubs, UInt16.toNat_ofNat']
    exact Nat.mod_eq_of_lt (by omega)
  case lookup =>
    intro v
    rcases R.lookupList_eq v with ⟨a, l, hl, hsame, hlook⟩ | ⟨hnone, hlook⟩
    · refine Or.inr ⟨a, l, hlook, hl, (R.lists a l hl).nonempty, ?_⟩
      rw [← I.stored, R.filter_stored hl hsame]
    · refine Or.inl ⟨hlook, ?_⟩
      intro x hx
      rw [← I.stored, R.mem_stored] at hx
      obtain ⟨a, l, hl, hxl⟩ := hx
      by_contra hsame
      rw [Bool.not_eq_false] at hsame
      have hval := sameField0_trans hsame ((R.lists a l hl).keys x hxl)
      rw [hnone a l hl] at hval
      cases hval
  case insert_ok =>
    intro x
    obtain ⟨T', b, -, hins, -⟩ := I.insert x
    exact ⟨T', b, hins⟩
  case erase_ok =>
    intro a l hl pos hpos
    have hlt := hheld l.parent
    obtain ⟨T', -, her, -⟩ := I.erase hl (List.getElem?_eq_getElem hpos) (by omega)
    exact ⟨T', her⟩

/-- An insertion that fits leaves fewer than `2^16` lists in every table. -/
theorem Inv.held_insert (I : Inv key T S M) {S' : Shape} {x : α}
    (hgrow : Grows key T.heap T.sh S S' x) (hfits : Fits key T x)
    (hheld : ∀ p, S.held p < 65536) (p : Ptr) : S'.held p < 65536 := by
  rcases hgrow.held with rfl | ⟨hnone, q, i, level, hloc, hle⟩
  · exact hheld p
  · have hlook : T.lookupList (key x) = some 0 := by
      rcases I.rep.lookupList_eq (key x) with ⟨a, l, hl, hsame, -⟩ | ⟨-, hlook⟩
      · rw [hnone a l hl] at hsame
        cases hsame
      · exact hlook
    obtain ⟨q', u, hu, -, -, hloc'⟩ := I.rep.locate_eq (hashField (key x))
    rw [hloc, Option.some.injEq, Prod.mk.injEq] at hloc'
    obtain ⟨rfl, -⟩ := hloc'
    have hq := hfits hlook q i level hloc
    rw [I.rep.held_eq hu] at hq
    have hp := hheld p
    rcases hle p with hle | hle
    · omega
    · omega

end Exact

/-- The state of a table that stores the tuples `M`, with fewer than `2^16` lists in every table. -/
def Bounded (key : α → Value) (T : HashTable α) (M : Multiset α) : Prop :=
  ∃ S, Inv key T S M ∧ ∀ p, S.held p < 65536

theorem bounded_setup (key : α → Value) : Bounded key setup 0 := by
  refine ⟨_, inv_setup key, ?_⟩
  intro p
  simp [Shape.held]

theorem Bounded.insert {T : HashTable α} {M : Multiset α} (B : Bounded key T M) {x : α}
    (hfits : Fits key T x) :
    ∃ T' b, T.insert key x = some (T', b) ∧ Bounded key T' (x ::ₘ M) := by
  obtain ⟨S, I, hheld⟩ := B
  obtain ⟨T', b, S', hins, I', hgrow, -⟩ := I.insert x
  exact ⟨T', b, hins, S', I', I.held_insert hgrow hfits hheld⟩

theorem Bounded.erase [DecidableEq α] {T : HashTable α} {M : Multiset α} (B : Bounded key T M)
    {a : Ptr} {l : HashTableList α} (hl : T.heap.lists a = some l) {pos : ℕ} {x : α}
    (hx : l.list[pos]? = some x) :
    ∃ T', T.eraseFromList a pos = some T' ∧ Bounded key T' (M.erase x) := by
  obtain ⟨S, I, hheld⟩ := B
  obtain ⟨T', S', her, I', hshr, -⟩ :=
    I.erase hl hx fun _ hmod => by rwa [Nat.mod_eq_of_lt (hheld _)] at hmod
  exact ⟨T', her, S', I', fun p => lt_of_le_of_lt (hshr.held p) (hheld p)⟩

/-- The invariant along a run whose insertions fit. -/
theorem Reach.bounded [DecidableEq α] {T : HashTable α} {M : Multiset α}
    (hr : Reach key (Fits key) T M) : Bounded key T M := by
  induction hr with
  | setup => exact bounded_setup key
  | insert hr hok hstep ih =>
    obtain ⟨T', b, hins, B'⟩ := ih.insert hok
    rw [hstep, Option.some.injEq, Prod.mk.injEq] at hins
    obtain ⟨rfl, rfl⟩ := hins
    exact B'
  | erase hr hl hx hstep ih =>
    obtain ⟨T', her, B'⟩ := ih.erase hl hx
    rw [hstep, Option.some.injEq] at her
    subst her
    exact B'

/-- **Runs are sound** as long as no insertion adds a list to a table that has 65535 of them: the
representation invariant holds, the counters are exact, and `lookup_list` returns exactly the
stored tuples of every key. -/
theorem reach_sound [DecidableEq α] {T : HashTable α} {M : Multiset α}
    (hr : Reach key (Fits key) T M) : Sound key T M := by
  obtain ⟨S, I, hheld⟩ := hr.bounded
  exact I.sound hheld

/-- Every insertion fits while fewer objects than that have been allocated. -/
theorem fits_of_fresh {T : HashTable α} (h : T.heap.fresh < 65535) (key : α → Value) (x : α) :
    Fits key T x := fun _ _ _ _ _ =>
  ((Finset.card_filter_le _ _).trans_eq (Finset.card_range _)).trans_lt h

theorem fits_setup (key : α → Value) (x : α) : Fits key setup x :=
  fits_of_fresh (Nat.le_of_ble_eq_true rfl) key x

/-- Insertions into a new table, the last element first, as long as it stays small. -/
def filled (key : α → Value) : List α → Option (HashTable α)
  | [] => some setup
  | x :: xs => do
    let T ← filled key xs
    if T.heap.fresh < 65535 then (T.insert key x).map Prod.fst else none

theorem reach_filled [DecidableEq α] {xs : List α} {T : HashTable α}
    (h : filled key xs = some T) : Reach key (Fits key) T xs := by
  induction xs generalizing T with
  | nil =>
    cases h
    exact .setup
  | cons x xs ih =>
    obtain ⟨U, hU, h⟩ := Option.bind_eq_some_iff.mp h
    split at h
    · obtain ⟨⟨T', b⟩, hins, rfl⟩ := Option.map_eq_some_iff.mp h
      exact .insert (ih hU) (fits_of_fresh ‹_› key x) hins
    · cases h

/-- Nine integers that lead to one slot of the first table, and one that does not. -/
def crowded : List Tuple :=
  [8, 31, 40, 63, 72, 95, 104, 127, 136, 7].map fun k => [.int k]

/-- The run that inserts these, so that the slot becomes a second table, and erases 8. -/
theorem reach_sound_crowded : ∃ T T' a,
    filled (getField 0) crowded = some T ∧ T.lookupList (.int 8) = some a ∧
      T.eraseFromList a 0 = some T' ∧
      ((List.range T'.heap.fresh).countP fun p => (T'.heap.tables p).isSome) = 2 ∧
      Sound (getField 0) T' crowded.tail := by
  have hrun : ((filled (getField 0) crowded).bind fun T =>
      (T.lookupList (.int 8)).bind fun a => (T.heap.lists a).bind fun l =>
        (T.eraseFromList a 0).map fun T' => (l.list,
          (List.range T'.heap.fresh).countP fun p => (T'.heap.tables p).isSome)) =
        some ([[.int 8]], 2) := by decide +kernel
  obtain ⟨T, hT, hrun⟩ := Option.bind_eq_some_iff.mp hrun
  obtain ⟨a, hlook, hrun⟩ := Option.bind_eq_some_iff.mp hrun
  obtain ⟨l, hl, hrun⟩ := Option.bind_eq_some_iff.mp hrun
  obtain ⟨T', herase, hrun⟩ := Option.map_eq_some_iff.mp hrun
  obtain ⟨hlist, htables⟩ := Prod.mk.inj hrun
  have hr : Reach (getField 0) (Fits (getField 0)) T' ((crowded : Multiset Tuple).erase [.int 8]) :=
    .erase (reach_filled hT) hl (by rw [hlist]; rfl) herase
  exact ⟨T, T', a, hT, hlook, herase, htables, reach_sound hr⟩

/-! ## A run that overflows a counter -/

/-- Many integers agree in the slots of the first three levels. -/
theorem exists_crowd {n : ℕ} (hn : n ≤ 65537) :
    ∃ (way : List ℕ) (ks : List (BitVec 32)), ks.Nodup ∧ ks.length = n ∧
      ∀ k ∈ ks, slots (hashField (.int k)) 3 = way := by
  classical
  let way (k : ℕ) : ℕ × ℕ × ℕ :=
    (slotAt (hashField (.int (BitVec.ofNat 32 k))) 0,
      slotAt (hashField (.int (BitVec.ofNat 32 k))) 1,
      slotAt (hashField (.int (BitVec.ofNat 32 k))) 2)
  let target := Finset.range prime ×ˢ Finset.range prime ×ˢ Finset.range prime
  have hmaps : ∀ k ∈ Finset.range (2 ^ 32), way k ∈ target := by
    intro k _
    simp only [target, way, Finset.mem_product, Finset.mem_range]
    exact ⟨slotAt_lt _ _, slotAt_lt _ _, slotAt_lt _ _⟩
  have hcard : target.card * n ≤ (Finset.range (2 ^ 32)).card := by
    have htarget : target.card = 24389 := by
      simp [target, prime]
    rw [htarget, Finset.card_range]
    omega
  have hnonempty : target.Nonempty := ⟨way 0, hmaps 0 (by simp)⟩
  obtain ⟨w, -, hw⟩ :=
    Finset.exists_le_card_fiber_of_mul_le_card_of_maps_to hmaps hnonempty hcard
  obtain ⟨F, hF, hFn⟩ := Finset.exists_subset_card_eq hw
  refine ⟨[w.1, w.2.1, w.2.2], F.toList.map (BitVec.ofNat 32), ?_, ?_, ?_⟩
  · refine (List.nodup_map_iff_inj_on F.nodup_toList).mpr ?_
    intro i hi j hj hij
    have hlt : ∀ k ∈ F.toList, k < 2 ^ 32 := by
      intro k hk
      have hk' := Finset.mem_filter.mp (hF (Finset.mem_toList.mp hk))
      exact Finset.mem_range.mp hk'.1
    have hnat := congrArg BitVec.toNat hij
    rwa [BitVec.toNat_ofNat, BitVec.toNat_ofNat, Nat.mod_eq_of_lt (hlt i hi),
      Nat.mod_eq_of_lt (hlt j hj)] at hnat
  · rw [List.length_map, Finset.length_toList, hFn]
  · intro k hk
    obtain ⟨i, hi, rfl⟩ := List.mem_map.mp hk
    have hi' := (Finset.mem_filter.mp (hF (Finset.mem_toList.mp hi))).2
    rw [← hi']
    rfl

/-- The addresses of the bucket lists. -/
def listsIn (h : Heap α) : Finset Ptr := (Finset.range h.fresh).filter fun a => (h.lists a).isSome

section Crowd

variable {h : Heap α} {root e : Ptr} {S : Shape}

theorem mem_listsIn (R : Rep key h root S e) {a : Ptr} :
    a ∈ listsIn h ↔ ∃ l, h.lists a = some l := by
  rw [listsIn, Finset.mem_filter, Finset.mem_range, Option.isSome_iff_exists]
  constructor
  · exact fun hmem => hmem.2
  · rintro ⟨l, hl⟩
    exact ⟨R.fresh_lists a l hl, l, hl⟩

/-- Ten lists or more whose hashes agree in the first three slots are all in one table. -/
theorem one_table (R : Rep key h root S e) (hS : S.Short) {way : List ℕ}
    (hway : ∀ a l, h.lists a = some l → slots (hashField l.value) 3 = way)
    (hmany : 10 ≤ (listsIn h).card) :
    ∃ p t, h.tables p = some t ∧ ∀ a l, h.lists a = some l → l.parent = p := by
  have hshared : ∀ n ≤ 3, ∀ a l b m, h.lists a = some l → h.lists b = some m →
      slots (hashField l.value) n = slots (hashField m.value) n := by
    intro n hn a l b m hl hm
    have heq := (hway a l hl).trans (hway b m hm).symm
    have hmap : ∀ hsh, slots hsh n = (slots hsh 3).take n := by
      intro hsh
      rw [slots, slots, ← List.map_take, List.take_range, Nat.min_eq_left hn]
    rw [hmap, hmap, heq]
  have hlevels : maxLevels = 4 := rfl
  -- a list above the last level would have all the others in its chain
  have hlast : ∀ a l, h.lists a = some l → (S.path l.parent).length = 3 := by
    intro a l hl
    by_contra hne
    obtain ⟨t, ht, -⟩ := (R.lists a l hl).table
    have hdepth := (R.tables _ t ht).depth
    have hsub : listsIn h ⊆ (S.chain l.parent l.idx).toFinset := by
      intro b hb
      obtain ⟨m, hm⟩ := (mem_listsIn R).mp hb
      have hplace := (R.lists a l hl).place
      rw [hshared _ (by omega) a l b m hl hm] at hplace
      have hthere := R.locate_of_place hl hplace
      rw [R.locate_list hm, Option.some.injEq, Prod.mk.injEq, Prod.mk.injEq] at hthere
      have hmem := (R.lists b m hm).mem
      rw [hthere.1, hthere.2.1] at hmem
      exact List.mem_toFinset.mpr hmem
    have hcard := (Finset.card_le_card hsub).trans (List.toFinset_card_le _)
    have hshort := hS l.parent l.idx (by omega)
    have hthreshold : createHashtableThreshold = 8 := rfl
    omega
  obtain ⟨a, ha⟩ := Finset.card_pos.mp (Nat.lt_of_lt_of_le (by decide) hmany)
  obtain ⟨l, hl⟩ := (mem_listsIn R).mp ha
  obtain ⟨t, ht, -⟩ := (R.lists a l hl).table
  refine ⟨l.parent, t, ht, ?_⟩
  intro b m hm
  obtain ⟨u, hu, -⟩ := (R.lists b m hm).table
  have hpath : ∀ c k, h.lists c = some k → S.path k.parent = slots (hashField k.value) 3 := by
    intro c k hk
    have hplace := (R.lists c k hk).place
    rw [slots_succ, hlast c k hk] at hplace
    exact (List.append_inj' hplace rfl).1
  refine R.path_inj hu ht ?_
  rw [hpath b m hm, hpath a l hl, hway b m hm, hway a l hl]

/-- A table that has all the lists holds as many as there are. -/
theorem held_eq_card (R : Rep key h root S e) {p : Ptr} {t : SubhashTable}
    (ht : h.tables p = some t) (hall : ∀ a l, h.lists a = some l → l.parent = p) :
    S.held p = (listsIn h).card := by
  rw [← R.held_eq ht, Heap.held, listsIn]
  congr 1
  refine Finset.filter_congr ?_
  intro b _
  rw [Option.map_eq_some_iff, Option.isSome_iff_exists]
  constructor
  · exact fun ⟨m, hm, _⟩ => ⟨m, hm⟩
  · exact fun ⟨m, hm⟩ => ⟨m, hm, hall b m hm⟩

/-- Tuples of different keys have a list each. -/
theorem length_list_eq_one (R : Rep key h root S e) (hnd : h.stored.Nodup)
    (hkeys : ∀ x ∈ h.stored, ∀ y ∈ h.stored, sameField0 (key x) (key y) = true → x = y)
    {a : Ptr} {l : HashTableList α} (hl : h.lists a = some l) : l.list.length = 1 := by
  have ok := R.lists a l hl
  have hle : (h.tuples a : Multiset α) ≤ h.stored :=
    Finset.single_le_sum (f := fun b => (h.tuples b : Multiset α))
      (fun _ _ => Multiset.zero_le _) (Finset.mem_range.mpr (R.fresh_lists a l hl))
  have hndl := Multiset.nodup_of_le hle hnd
  rw [Heap.tuples_of_list hl] at hle hndl
  have hsame : ∀ x ∈ l.list, ∀ y ∈ l.list, x = y := by
    intro x hx y hy
    refine hkeys x (Multiset.mem_of_le hle (by simpa using hx)) y
      (Multiset.mem_of_le hle (by simpa using hy)) ?_
    exact sameField0_trans (ok.keys x hx) (sameField0_symm (ok.keys y hy))
  cases hlist : l.list with
  | nil => exact absurd hlist ok.nonempty
  | cons x xs =>
    cases xs with
    | nil => rfl
    | cons y ys =>
      rw [hlist] at hsame hndl
      have hxy := hsame x (by simp) y (by simp)
      rw [hxy] at hndl
      simp at hndl

theorem card_listsIn (hone : ∀ a l, h.lists a = some l → l.list.length = 1) :
    (listsIn h).card = h.stored.card := by
  rw [Heap.stored, Multiset.card_sum, listsIn, Finset.card_filter]
  refine (Finset.sum_congr rfl ?_).symm
  intro a _
  cases hl : h.lists a with
  | none => simp [Heap.tuples_of_none hl]
  | some l => simp [Heap.tuples_of_list hl, hone a l hl]

end Crowd

/-- The tuples with one integer field. -/
def intTuples (ks : List (BitVec 32)) : Multiset Tuple := (ks.map fun k => [Value.int k] : List Tuple)

/-- The run that inserts tuples with the given integers. -/
theorem reach_intTuples (ks : List (BitVec 32)) :
    ∃ T S, Reach (getField 0) (fun _ _ => True) T (intTuples ks) ∧
      Inv (getField 0) T S (intTuples ks) := by
  induction ks with
  | nil => exact ⟨setup, _, Reach.setup, inv_setup _⟩
  | cons k ks ih =>
    obtain ⟨T, S, hr, I⟩ := ih
    obtain ⟨T', b, S', hins, I', -⟩ := I.insert [.int k]
    exact ⟨T', S', Reach.insert hr trivial hins, I'⟩

/-- The integers of a crowd fill one table: it has as many lists as there are integers, with one
tuple each. -/
theorem Inv.crowd {T : HashTable Tuple} {S : Shape} {ks : List (BitVec 32)} {way : List ℕ}
    (I : Inv (getField 0) T S (intTuples ks)) (hnodup : ks.Nodup) (hmin : 10 ≤ ks.length)
    (hway : ∀ k ∈ ks, slots (hashField (.int k)) 3 = way) :
    ∃ p t, T.heap.tables p = some t ∧ S.held p = ks.length ∧
      ∀ a l, T.heap.lists a = some l → l.parent = p ∧ l.list.length = 1 := by
  have hmem : ∀ x ∈ T.heap.stored, ∃ k ∈ ks, x = [Value.int k] := by
    intro x hx
    rw [I.stored, intTuples, Multiset.mem_coe, List.mem_map] at hx
    obtain ⟨k, hk, rfl⟩ := hx
    exact ⟨k, hk, rfl⟩
  have hndM : T.heap.stored.Nodup := by
    rw [I.stored]
    refine Multiset.coe_nodup.mpr (hnodup.map ?_)
    intro i j hij
    simpa using hij
  have hkeys : ∀ x ∈ T.heap.stored, ∀ y ∈ T.heap.stored,
      sameField0 (getField 0 x) (getField 0 y) = true → x = y := by
    intro x hx y hy hsame
    obtain ⟨i, -, rfl⟩ := hmem x hx
    obtain ⟨j, -, rfl⟩ := hmem y hy
    rcases sameField0_iff.mp hsame with heq | ⟨⟨u, us, hcons⟩, -⟩
    · simpa [getField] using heq
    · cases hcons
  have hone : ∀ a l, T.heap.lists a = some l → l.list.length = 1 :=
    fun a l hl => length_list_eq_one I.rep hndM hkeys hl
  have hcard : (listsIn T.heap).card = ks.length := by
    rw [card_listsIn hone, I.stored, intTuples, Multiset.coe_card, List.length_map]
  have hclass : ∀ a l, T.heap.lists a = some l → slots (hashField l.value) 3 = way := by
    intro a l hl
    have ok := I.rep.lists a l hl
    obtain ⟨x, hx⟩ := List.exists_mem_of_ne_nil _ ok.nonempty
    obtain ⟨k, hk, rfl⟩ := hmem x (I.rep.mem_stored.mpr ⟨a, l, hl, hx⟩)
    rw [← hashField_eq_of_same (ok.keys _ hx)]
    exact hway k hk
  obtain ⟨p, t, ht, hall⟩ := one_table I.rep I.short hclass (hcard ▸ hmin)
  have hheld := (held_eq_card I.rep ht hall).trans hcard
  exact ⟨p, t, ht, hheld, fun a l hl => ⟨hall a l hl, hone a l hl⟩⟩

/-- **A counter overflows**: not every run is sound.  A run that inserts 65536 integers of a crowd
leaves a table with 65536 lists and the counter `0`. -/
theorem not_forall_sound :
    ¬ ∀ (T : HashTable Tuple) (M : Multiset Tuple),
      Reach (getField 0) (fun _ _ => True) T M → Sound (getField 0) T M := by
  intro hall
  obtain ⟨way, ks, hnodup, hlen, hway⟩ := exists_crowd (n := 65536) (by decide)
  obtain ⟨T, S, hr, I⟩ := reach_intTuples ks
  obtain ⟨p, t, ht, hheld, -⟩ := I.crowd hnodup (by rw [hlen]; decide) hway
  rw [hlen] at hheld
  have hcount := (hall T _ hr).uniqueLists p t ht
  rw [I.rep.held_eq ht, hheld, (I.rep.tables p t ht).uniqueLists, hheld,
    UInt16.toNat_ofNat'] at hcount
  exact absurd hcount (by decide)

end HashTable

end Meld
