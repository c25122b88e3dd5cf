import Meld.Db.DatumTrie
import Mathlib.Data.Finset.Card

/-!
# Inserting and deleting tuples of every field type

The words of the tuples of one predicate are prefix free and fork at symbols of one kind, whatever
the types of its fields, so that the trie is the tree of the words of its leaves.  From this follows
what the switches over the field types let through.

* `next_kind`, `words_eq_of_isPrefix`: how words of one predicate fork.
* `tupleEqual_eq`: equal tuples are spelled alike.
* `Inv`: the trie is the tree of its leaves; `Inv.insertTuple` and `Inv.remove` keep it.
* `deleteTuple_absent_iff`: when deleting an absent tuple changes nothing.
-/

namespace Meld

/-! ## Words -/

namespace Datum

variable {s t : List Datum} {ts : List FieldType} {v w : Datum} {ty : FieldType}

theorem words_append (s t : List Datum) : words (s ++ t) = words s ++ words t := by
  induction s with
  | nil => rfl
  | cons v s ih => rw [List.cons_append, words, words, ih, List.append_assoc]

/-- The symbol of the top of the stack, then those of what it pushes. -/
theorem words_cons (v : Datum) (stk : List Datum) :
    words (v :: stk) = v.symbol :: words (v.pushes ++ stk) := by
  rw [words_append]
  cases v <;> simp [words, word, symbol, pushes]

theorem words_eq_nil : words s = [] ↔ s = [] := by
  cases s with
  | nil => exact iff_of_true rfl rfl
  | cons v s =>
    rw [words_cons]
    exact iff_of_false (List.cons_ne_nil _ _) (List.cons_ne_nil _ _)

theorem AllHaveType.append {s' : List Datum} {ts' : List FieldType} (h : AllHaveType s ts)
    (h' : AllHaveType s' ts') : AllHaveType (s ++ s') (ts ++ ts') := by
  induction ts generalizing s with
  | nil =>
    cases h
    exact h'
  | cons ty ts ih =>
    cases h with
    | cons hv hvs => exact .cons hv (ih hvs)

theorem AllHaveType.length_eq (h : AllHaveType s ts) : s.length = ts.length := by
  induction ts generalizing s with
  | nil =>
    cases h
    rfl
  | cons ty ts ih =>
    cases h with
    | cons hv hvs => rw [List.length_cons, List.length_cons, ih hvs]

end Datum

/-- A symbol without its content: what the type of a field decides. -/
def Symbol.kind : Symbol → Symbol
  | .int _ => .int 0
  | .float _ => .float 0
  | .node _ => .node 0
  | .thread _ => .thread 0
  | .bool _ => .bool false
  | .ptr _ => .ptr false
  | .size n => .size n

theorem Symbol.eq_bool {s : Symbol} (h : s.kind = .bool false) : ∃ b, s = .bool b := by
  cases s <;> simp only [Symbol.kind, reduceCtorEq] at h
  exact ⟨_, rfl⟩

theorem Symbol.eq_thread {s : Symbol} {t : BitVec 64} (h : s.kind = (Symbol.thread t).kind) :
    ∃ t', s = .thread t' := by
  cases s <;> simp only [Symbol.kind, reduceCtorEq] at h
  exact ⟨_, rfl⟩

theorem Symbol.eq_size {s : Symbol} {n : BitVec 32} (h : s.kind = .size n) : s = .size n := by
  cases s <;> simp only [Symbol.kind, reduceCtorEq] at h
  exact h

namespace Datum

variable {s t : List Datum} {ts : List FieldType} {v w : Datum} {ty : FieldType}

theorem HasType.kind_eq (hv : HasType v ty) (hw : HasType w ty) :
    v.symbol.kind = w.symbol.kind := by
  cases hv with
  | struct hvs =>
    cases hw with
    | struct hws => simp only [symbol, Symbol.kind, hvs.length_eq, hws.length_eq]
  | _ => cases hw <;> rfl

/-- Values of one type with one symbol push values of the same types. -/
theorem HasType.pushes (hv : HasType v ty) (hw : HasType w ty) (h : v.symbol = w.symbol) :
    ∃ ts, AllHaveType v.pushes ts ∧ AllHaveType w.pushes ts := by
  cases hv with
  | nil =>
    cases hw with
    | nil => exact ⟨[], .nil, .nil⟩
    | cons hhead htail => simp [symbol] at h
  | cons hhead htail =>
    cases hw with
    | nil => simp [symbol] at h
    | cons hhead' htail' =>
      exact ⟨[_, .list _], .cons hhead (.cons htail .nil), .cons hhead' (.cons htail' .nil)⟩
  | struct hvs =>
    cases hw with
    | struct hws => exact ⟨_, hvs, hws⟩
  | _ =>
    cases hw
    exact ⟨[], .nil, .nil⟩

/-- Two tuples of a predicate that are spelled alike so far go on with symbols of one kind. -/
theorem next_kind (hs : AllHaveType s ts) (ht : AllHaveType t ts) {u r r' : List Symbol}
    {d e : Symbol} (hd : words s = u ++ d :: r) (he : words t = u ++ e :: r') :
    d.kind = e.kind := by
  induction u generalizing s t ts with
  | nil =>
    cases hs with
    | nil => exact absurd hd.symm (List.cons_ne_nil _ _)
    | cons hv hvs =>
      cases ht with
      | cons hw hws =>
        rw [words_cons] at hd he
        rw [← (List.cons.inj hd).1, ← (List.cons.inj he).1]
        exact hv.kind_eq hw
  | cons x u ih =>
    cases hs with
    | nil => exact absurd hd.symm (List.cons_ne_nil _ _)
    | cons hv hvs =>
      cases ht with
      | cons hw hws =>
        rw [words_cons] at hd he
        obtain ⟨hx, hd⟩ := List.cons.inj hd
        obtain ⟨hx', he⟩ := List.cons.inj he
        obtain ⟨tys, hpush, hpush'⟩ := hv.pushes hw (hx.trans hx'.symm)
        exact ih (hpush.append hvs) (hpush'.append hws) hd he

/-- The words of the tuples of a predicate are prefix free. -/
theorem words_eq_of_isPrefix (hs : AllHaveType s ts) (ht : AllHaveType t ts)
    (h : words s <+: words t) : words s = words t := by
  obtain ⟨n, hn⟩ : ∃ n, n = (words s).length := ⟨_, rfl⟩
  induction n generalizing s t ts with
  | zero =>
    obtain rfl := words_eq_nil.1 (List.length_eq_zero_iff.1 hn.symm)
    cases hs
    cases ht
    rfl
  | succ n ih =>
    cases hs with
    | nil => exact absurd hn (Nat.succ_ne_zero n)
    | cons hv hvs =>
      cases ht with
      | cons hw hws =>
        rw [words_cons] at hn
        rw [words_cons, words_cons] at h ⊢
        obtain ⟨hx, hrest⟩ := List.cons_prefix_cons.1 h
        obtain ⟨tys, hpush, hpush'⟩ := hv.pushes hw hx
        rw [hx, ih (hpush.append hvs) (hpush'.append hws) hrest (Nat.succ.inj hn)]

end Datum

/-! ## Comparing tuples -/

namespace FieldType

/-- The types that `value_equal` compares. -/
inductive Comparable : FieldType → Prop where
  | int : Comparable .int
  | float : Comparable .float
  | node : Comparable .node
  | thread : Comparable .thread
  | list {t : FieldType} (h : Comparable t) : Comparable (.list t)

end FieldType

namespace Datum

variable {s t : List Datum} {ts : List FieldType} {v w : Datum} {ty : FieldType}

/-- A value of a type can be told where it ends. -/
theorem HasType.append_inj (hv : HasType v ty) (hw : HasType w ty) {r r' : List Symbol}
    (h : v.word ++ r = w.word ++ r') : v.word = w.word ∧ r = r' := by
  have hsingle (x : Datum) : words [x] = x.word := by rw [words, words, List.append_nil]
  have heq : v.word = w.word := by
    rcases List.prefix_or_prefix_of_prefix (List.prefix_append v.word r)
        (h ▸ List.prefix_append w.word r') with hpre | hpre
    · rw [← hsingle v, ← hsingle w] at hpre ⊢
      exact words_eq_of_isPrefix (.cons hv .nil) (.cons hw .nil) hpre
    · rw [← hsingle v, ← hsingle w] at hpre ⊢
      exact (words_eq_of_isPrefix (.cons hw .nil) (.cons hv .nil) hpre).symm
  rw [heq] at h
  exact ⟨heq, List.append_cancel_left h⟩

/-- Values of a comparable type are equal exactly when they are spelled alike. -/
theorem valueEqual_eq (hty : ty.Comparable) (hv : HasType v ty) (hw : HasType w ty) :
    valueEqual ty v w = some (decide (v.word = w.word)) := by
  obtain ⟨n, hn⟩ : ∃ n, v.word.length ≤ n := ⟨_, Nat.le_refl _⟩
  induction n generalizing v w ty with
  | zero => cases v <;> simp [word] at hn
  | succ n ih =>
    cases hty with
    | list hcomp =>
      cases hv with
      | nil =>
        cases hw with
        | nil => rfl
        | cons hhead htail => simp [valueEqual, word]
      | @cons head tail _ hhead htail =>
        cases hw with
        | nil => simp [valueEqual, word]
        | @cons head' tail' _ hhead' htail' =>
          rw [word, List.length_cons, List.length_append] at hn
          rw [valueEqual, ih hcomp hhead hhead' (by omega), word, word]
          by_cases heq : head.word = head'.word
          · simp only [heq, decide_true, List.cons.injEq, true_and, List.append_cancel_left_eq]
            exact ih (.list hcomp) htail htail' (by omega)
          · rw [decide_eq_false heq, decide_eq_false fun hb =>
              heq (hhead.append_inj hhead' (List.cons.inj hb).2).1]
    | _ =>
      cases hv
      cases hw
      simp [valueEqual, word, beq_eq_decide]

/-- Tuples of comparable types are equal exactly when they are spelled alike. -/
theorem tupleEqual_eq (hts : ∀ ty ∈ ts, ty.Comparable) (hs : AllHaveType s ts)
    (ht : AllHaveType t ts) : tupleEqual ts s t = some (decide (words s = words t)) := by
  induction ts generalizing s t with
  | nil =>
    cases hs
    cases ht
    rfl
  | cons ty ts ih =>
    cases hs with
    | @cons v _ vs _ hv hvs =>
      cases ht with
      | @cons w _ ws _ hw hws =>
        rw [tupleEqual, valueEqual_eq (hts ty List.mem_cons_self) hv hw, words, words]
        by_cases heq : v.word = w.word
        · simp only [heq, decide_true, List.append_cancel_left_eq]
          exact ih (fun ty' hty' => hts ty' (List.mem_cons_of_mem _ hty')) hvs hws
        · rw [decide_eq_false heq, decide_eq_false fun hb => heq (hv.append_inj hw hb).1]

end Datum

namespace FieldType

mutual

/-- The types that `trie_node::insert` accepts. -/
inductive Accepted : FieldType → Prop where
  | int : Accepted .int
  | float : Accepted .float
  | node : Accepted .node
  | thread : Accepted .thread
  | bool : Accepted .bool
  | list {t : FieldType} (h : Accepted t) : Accepted (.list t)
  | struct {ts : List FieldType} (h : AllAccepted ts) : Accepted (.struct ts)

/-- All types of a list are accepted. -/
inductive AllAccepted : List FieldType → Prop where
  | nil : AllAccepted []
  | cons {t : FieldType} {ts : List FieldType} (ht : Accepted t) (hts : AllAccepted ts) :
      AllAccepted (t :: ts)

end

mutual

theorem Accepted.exists_datum {ty : FieldType} : ty.Accepted → ∃ v, Datum.HasType v ty
  | .int => ⟨_, .int 0⟩
  | .float => ⟨_, .float ⟨0, by decide⟩⟩
  | .node => ⟨_, .node 0⟩
  | .thread => ⟨_, .thread 0⟩
  | .bool => ⟨_, .bool false⟩
  | .list _ => ⟨_, .nil _⟩
  | .struct h => let ⟨_, hvs⟩ := h.exists_data; ⟨_, .struct hvs⟩

theorem AllAccepted.exists_data {ts : List FieldType} :
    AllAccepted ts → ∃ vs, Datum.AllHaveType vs ts
  | .nil => ⟨[], .nil⟩
  | .cons h hs =>
    let ⟨_, hv⟩ := h.exists_datum
    let ⟨_, hvs⟩ := hs.exists_data
    ⟨_, .cons hv hvs⟩

end

/-- A type that is accepted is comparable, or `value_equal` throws for one of its values. -/
theorem Accepted.comparable_or {ty : FieldType} :
    ty.Accepted → ty.Comparable ∨ ∃ v, Datum.HasType v ty ∧ Datum.valueEqual ty v v = none
  | .int => Or.inl .int
  | .float => Or.inl .float
  | .node => Or.inl .node
  | .thread => Or.inl .thread
  | .bool => Or.inr ⟨_, .bool false, rfl⟩
  | .struct h =>
    let ⟨_, hvs⟩ := h.exists_data
    Or.inr ⟨_, .struct hvs, by simp [Datum.valueEqual]⟩
  | .list h =>
    match h.comparable_or with
    | Or.inl hcomp => Or.inl (.list hcomp)
    | Or.inr ⟨v, hv, hthrow⟩ =>
      Or.inr ⟨.cons v .nil, .cons hv (.nil _), by simp [Datum.valueEqual, hthrow]⟩

/-- When `tuple::equal` does not throw for the tuples of a predicate, its types are comparable. -/
theorem AllAccepted.comparable {ts : List FieldType} (h : AllAccepted ts)
    (hequal : ∀ s t, Datum.AllHaveType s ts → Datum.AllHaveType t ts →
      Datum.tupleEqual ts s t ≠ none) : ∀ ty ∈ ts, ty.Comparable := by
  induction ts with
  | nil => exact fun ty hty => absurd hty List.not_mem_nil
  | cons ty ts ih =>
    cases h with
    | cons hty hts =>
      obtain ⟨vs, hvs⟩ := hts.exists_data
      have hfirst : ty.Comparable := by
        rcases hty.comparable_or with hcomp | ⟨v, hv, hthrow⟩
        · exact hcomp
        · refine absurd ?_ (hequal (v :: vs) (v :: vs) (.cons hv hvs) (.cons hv hvs))
          rw [Datum.tupleEqual, hthrow]
      obtain ⟨v, hv⟩ := hty.exists_datum
      have hrest := ih hts fun s t hs ht hnone => by
        refine hequal (v :: s) (v :: t) (.cons hv hs) (.cons hv ht) ?_
        rw [Datum.tupleEqual, Datum.valueEqual_eq hfirst hv hv, decide_eq_true rfl]
        exact hnone
      exact List.forall_mem_cons.2 ⟨hfirst, hrest⟩

end FieldType

/-! ## The invariant -/

namespace DatumTrie

open WordTree Datum

/-- The addresses of the leaves. -/
def addresses (T : DatumTrie) : Set (List Symbol) := {a | ∃ l ∈ T.leaves, l.node = a}

/-- The trie is the tree of its leaves, which are found at the ends of the words of their tuples,
and a level of structures is never hashed. -/
structure Inv (H : Hashes) (fields : List FieldType) (T : DatumTrie) : Prop where
  grown : Grown H.hashItem T.child T.addresses
  spelled : ∀ l ∈ T.leaves, AllHaveType l.tpl fields ∧ l.node = (words l.tpl).reverse
  unhashed : ∀ p n, .size n ∈ (T.child p).children → ∀ total buckets,
    T.child p ≠ .hash total buckets

/-- A tuple that is spelled alike is in the trie. -/
def Present (T : DatumTrie) (tpl : List Datum) : Prop := ∃ l ∈ T.leaves, words l.tpl = words tpl

/-- A tuple of the trie agrees with the given one on everything before a boolean. -/
def Clash (T : DatumTrie) (tpl : List Datum) : Prop :=
  ∃ u b rest, words tpl = u ++ .bool b :: rest ∧ ∃ l ∈ T.leaves, u <+: words l.tpl

variable {H : Hashes} {isCycle : Bool} {fields : List FieldType} {T T' : DatumTrie}
  {tpl : List Datum} {depth : ℕ}

theorem inv_empty : Inv H fields empty where
  grown := by
    have hnone : empty.addresses = ∅ :=
      Set.eq_empty_iff_forall_notMem.2 fun a ⟨l, hl, _⟩ => List.not_mem_nil hl
    rw [hnone]
    exact grown_empty
  spelled := fun l hl => absurd hl List.not_mem_nil
  unhashed := fun p n hn => absurd hn List.not_mem_nil

theorem addresses_append (child : List Symbol → Level Symbol) (leaves : List DatumLeaf)
    (l : DatumLeaf) (n : ℕ) :
    addresses ⟨child, leaves ++ [l], n⟩ = insert l.node (addresses ⟨child, leaves, n⟩) := by
  ext a
  simp only [addresses, Set.mem_ofPred_eq, List.mem_append, List.mem_singleton, Set.mem_insert_iff]
  constructor
  · rintro ⟨m, hm | rfl, rfl⟩
    · exact Or.inr ⟨m, hm, rfl⟩
    · exact Or.inl rfl
  · rintro (rfl | ⟨m, hm, rfl⟩)
    · exact ⟨_, Or.inr rfl, rfl⟩
    · exact ⟨m, Or.inl hm, rfl⟩

/-- The rest of the stack is added symbol by symbol. -/
theorem insertRest_eq (child : List Symbol → Level Symbol) (fuel : ℕ) (p : List Symbol)
    (stk : List Datum) (hfuel : (words stk).length = fuel)
    (hhash : ∀ v rest, stk = v :: rest → v.symbol.hashable = false → ∀ total buckets,
      child p ≠ .hash total buckets) :
    insertRest H child fuel p stk = some (addRest H.hashItem child p (words stk)) := by
  induction fuel generalizing child p stk with
  | zero =>
    obtain rfl := words_eq_nil.1 (List.length_eq_zero_iff.1 hfuel)
    rfl
  | succ fuel ih =>
    cases stk with
    | nil => exact absurd hfuel (Nat.succ_ne_zero fuel).symm
    | cons v stk =>
      rw [words_cons] at hfuel ⊢
      have hinsert : insertNode H child p v.symbol =
          some (addNode H.hashItem child p v.symbol) := by
        unfold insertNode
        split
        next total buckets hc hs => exact absurd hc (hhash v stk rfl hs total buckets)
        next => rfl
      rw [insertRest, hinsert, addRest]
      refine ih _ _ _ (Nat.succ.inj hfuel) fun w rest _ _ total buckets hc => ?_
      rw [addNode, Function.update_self] at hc
      cases hc

namespace Inv

/-- The children of a node are the symbols that follow it in the word of a leaf. -/
theorem mem_children (h : Inv H fields T) (u : List Symbol) (e : Symbol) :
    e ∈ (T.child u.reverse).children ↔ ∃ l ∈ T.leaves, u ++ [e] <+: words l.tpl := by
  rw [h.grown.mem_children]
  constructor
  · rintro ⟨a, ⟨l, hl, rfl⟩, hsuf⟩
    refine ⟨l, hl, ?_⟩
    rw [(h.spelled l hl).2, ← List.reverse_prefix, List.reverse_reverse, List.reverse_cons,
      List.reverse_reverse] at hsuf
    exact hsuf
  · rintro ⟨l, hl, hpre⟩
    refine ⟨l.node, ⟨l, hl, rfl⟩, ?_⟩
    rw [(h.spelled l hl).2, ← List.reverse_prefix, List.reverse_reverse, List.reverse_cons,
      List.reverse_reverse]
    exact hpre

/-- The children of a node on the way of a tuple are of the kind of its next symbol. -/
theorem kind_eq (h : Inv H fields T) (ht : AllHaveType tpl fields) {u r : List Symbol}
    {s e : Symbol} (hw : words tpl = u ++ s :: r) (he : e ∈ (T.child u.reverse).children) :
    e.kind = s.kind := by
  obtain ⟨l, hl, r', hr'⟩ := (h.mem_children u e).1 he
  rw [List.append_assoc, List.singleton_append] at hr'
  exact next_kind (h.spelled l hl).1 ht hr'.symm hw

/-- A tuple that is not there has its address apart from the others. -/
theorem apart (h : Inv H fields T) (ht : AllHaveType tpl fields) (habs : ¬ T.Present tpl) :
    Apart T.addresses (words tpl).reverse := by
  rintro b ⟨l, hl, rfl⟩
  rw [(h.spelled l hl).2]
  refine ⟨fun hsuf => habs ⟨l, hl, ?_⟩, fun hsuf => habs ⟨l, hl, ?_⟩⟩
  · exact words_eq_of_isPrefix (h.spelled l hl).1 ht (List.reverse_suffix.1 hsuf)
  · exact (words_eq_of_isPrefix ht (h.spelled l hl).1 (List.reverse_suffix.1 hsuf)).symm

/-- A clash is a boolean that meets a node with children. -/
theorem clash_iff (h : Inv H fields T) (ht : AllHaveType tpl fields) :
    T.Clash tpl ↔ ∃ u b rest, words tpl = u ++ .bool b :: rest ∧
      (T.child u.reverse).children ≠ [] := by
  constructor
  · rintro ⟨u, b, rest, hw, l, hl, r, hr⟩
    refine ⟨u, b, rest, hw, ?_⟩
    cases r with
    | nil =>
      exfalso
      have hpre : words l.tpl <+: words tpl := ⟨.bool b :: rest, by rw [← hr, hw, List.append_nil]⟩
      have heq := words_eq_of_isPrefix (h.spelled l hl).1 ht hpre
      rw [← hr, hw, List.append_nil] at heq
      have hlength := congrArg List.length heq
      rw [List.length_append, List.length_cons] at hlength
      omega
    | cons e r =>
      refine List.ne_nil_of_mem ((h.mem_children u e).2 ⟨l, hl, r, ?_⟩)
      rw [List.append_assoc, List.singleton_append, hr]
  · rintro ⟨u, b, rest, hw, hne⟩
    obtain ⟨e, he⟩ := List.exists_mem_of_ne_nil _ hne
    obtain ⟨l, hl, hpre⟩ := (h.mem_children u e).1 he
    exact ⟨u, b, rest, hw, l, hl, (List.prefix_append u [e]).trans hpre⟩

/-- What `match` answers on the way of a tuple. -/
theorem matchChild_eq (h : Inv H fields T) (ht : AllHaveType tpl fields) {u r : List Symbol}
    {s : Symbol} (hw : words tpl = u ++ s :: r) (hbool : s.kind = .bool false →
      (T.child u.reverse).children = []) :
    matchChild H s (T.child u.reverse) = some (decide (s ∈ (T.child u.reverse).children)) := by
  unfold matchChild
  by_cases hnil : (T.child u.reverse).children = []
  · rw [if_pos hnil, decide_eq_false (by rw [hnil]; exact List.not_mem_nil)]
  rw [if_neg hnil]
  have hcandidates := (h.grown.ok u.reverse).mem_candidates s
  split
  next b => exact absurd (hbool rfl) hnil
  next n total buckets hc =>
    -- the children are structures of the same size
    exfalso
    obtain ⟨e, he⟩ := List.exists_mem_of_ne_nil _ hnil
    have hkind := h.kind_eq ht hw he
    obtain rfl := Symbol.eq_size hkind
    exact h.unhashed _ _ he total buckets hc
  next => simp only [hcandidates]

/-- Without a clash, `check_insert` follows the word of the tuple. -/
theorem descend_eq (h : Inv H fields T) (ht : AllHaveType tpl fields) (hclash : ¬ T.Clash tpl)
    (fuel : ℕ) (u : List Symbol) (stk : List Datum) (hfuel : (words stk).length = fuel)
    (hw : words tpl = u ++ words stk) :
    ∃ stk', DatumTrie.descend H T.child fuel u.reverse stk =
        some ((WordTree.descend H.hashItem T.child u.reverse (words stk)).1, stk') ∧
      words stk' = (WordTree.descend H.hashItem T.child u.reverse (words stk)).2 := by
  induction fuel generalizing u stk with
  | zero =>
    obtain rfl := words_eq_nil.1 (List.length_eq_zero_iff.1 hfuel)
    exact ⟨[], rfl, rfl⟩
  | succ fuel ih =>
    cases stk with
    | nil => exact absurd hfuel (Nat.succ_ne_zero fuel).symm
    | cons v stk =>
      have hcons := words_cons v stk
      rw [hcons] at hfuel hw ⊢
      rw [DatumTrie.descend, WordTree.descend]
      by_cases hleaf : T.child u.reverse = .leaf
      · rw [if_pos hleaf, if_pos hleaf]
        exact ⟨v :: stk, rfl, hcons⟩
      rw [if_neg hleaf, if_neg hleaf, h.matchChild_eq ht hw fun hbool => ?_]
      · by_cases hmem : v.symbol ∈ (T.child u.reverse).children
        · rw [decide_eq_true hmem, if_pos (((h.grown.ok _).mem_candidates _).2 hmem)]
          have hrest := ih (u ++ [v.symbol]) (v.pushes ++ stk) (Nat.succ.inj hfuel)
            (by rw [hw, List.append_assoc, List.singleton_append])
          rw [List.reverse_append] at hrest
          exact hrest
        · rw [decide_eq_false hmem,
            if_neg fun hin => hmem (((h.grown.ok _).mem_candidates _).1 hin)]
          exact ⟨v :: stk, rfl, hcons⟩
      · by_contra hne
        obtain ⟨b, hb⟩ := Symbol.eq_bool hbool
        exact hclash ((h.clash_iff ht).2 ⟨u, b, _, hb ▸ hw, hne⟩)

/-- At a clash, `match` aborts. -/
theorem descend_of_clash (h : Inv H fields T) (ht : AllHaveType tpl fields) {u rest : List Symbol}
    {b : Bool} (hw : words tpl = u ++ .bool b :: rest)
    (hne : (T.child u.reverse).children ≠ []) (fuel : ℕ) (u₁ u₂ : List Symbol) (hu : u = u₁ ++ u₂)
    (stk : List Datum) (hfuel : (words stk).length = fuel) (hstk : words tpl = u₁ ++ words stk) :
    DatumTrie.descend H T.child fuel u₁.reverse stk = none := by
  obtain ⟨e₀, he₀⟩ := List.exists_mem_of_ne_nil _ hne
  obtain ⟨l, hl, hpre⟩ := (h.mem_children u e₀).1 he₀
  induction u₂ generalizing fuel u₁ stk with
  | nil =>
    rw [List.append_nil] at hu
    subst hu
    have hhead := List.append_cancel_left (hw.symm.trans hstk)
    cases stk with
    | nil => exact absurd hhead (List.cons_ne_nil _ _)
    | cons v stk =>
      rw [words_cons] at hhead hfuel
      cases fuel with
      | zero => exact absurd hfuel (Nat.succ_ne_zero _)
      | succ fuel =>
        rw [DatumTrie.descend, if_neg (ne_leaf_of_mem he₀), ← (List.cons.inj hhead).1]
        simp only [matchChild, if_neg hne]
  | cons s u₂ ih =>
    have hhead : s :: (u₂ ++ .bool b :: rest) = words stk := by
      have happend : u₁ ++ (s :: (u₂ ++ .bool b :: rest)) = u₁ ++ words stk := by
        rw [← hstk, hw, hu, List.append_assoc, List.cons_append]
      exact List.append_cancel_left happend
    have hmem : s ∈ (T.child u₁.reverse).children := by
      refine (h.mem_children u₁ s).2 ⟨l, hl, List.IsPrefix.trans ?_ hpre⟩
      rw [hu]
      exact ⟨u₂ ++ [e₀], by simp⟩
    cases stk with
    | nil => exact absurd hhead (List.cons_ne_nil _ _)
    | cons v stk =>
      have hcons := words_cons v stk
      rw [hcons] at hhead hfuel
      obtain ⟨hs, hrest⟩ := List.cons.inj hhead
      cases fuel with
      | zero => exact absurd hfuel (Nat.succ_ne_zero _)
      | succ fuel =>
        rw [DatumTrie.descend, if_neg (ne_leaf_of_mem hmem), ← hs]
        by_cases hbool : s.kind = .bool false
        · have hnil : ¬ (T.child u₁.reverse).children = [] := List.ne_nil_of_mem hmem
          obtain ⟨b, rfl⟩ := Symbol.eq_bool hbool
          simp only [matchChild, if_neg hnil]
        · have hword : words tpl = u₁ ++ s :: words (v.pushes ++ stk) := by
            rw [hstk, hcons, hs]
          rw [h.matchChild_eq ht hword fun hb => absurd hb hbool, decide_eq_true hmem]
          have hnext := ih fuel (u₁ ++ [s]) (by rw [hu]; simp) (v.pushes ++ stk)
            (Nat.succ.inj hfuel) (by rw [hword]; simp)
          rw [List.reverse_append] at hnext
          exact hnext

/-- A tuple that is there is found. -/
theorem descend_present (h : Inv H fields T) (ht : AllHaveType tpl fields)
    (hclash : ¬ T.Clash tpl) (hin : T.Present tpl) :
    DatumTrie.descend H T.child (words tpl).length [] tpl = some ((words tpl).reverse, []) := by
  obtain ⟨stk, hdescend, hstk⟩ := h.descend_eq ht hclash _ [] tpl rfl rfl
  obtain ⟨l, hl, hword⟩ := hin
  have hmem : (words tpl).reverse ++ [] ∈ T.addresses := by
    rw [List.append_nil]
    exact ⟨l, hl, by rw [(h.spelled l hl).2, hword]⟩
  rw [List.reverse_nil, h.grown.descend_of_mem _ _ hmem] at hdescend hstk
  rw [words_eq_nil.1 hstk, List.append_nil] at hdescend
  exact hdescend

/-- For a tuple that is not there, the descent stops at a node that has no child for its next
symbol. -/
theorem descend_absent (h : Inv H fields T) (ht : AllHaveType tpl fields)
    (hclash : ¬ T.Clash tpl) (habs : ¬ T.Present tpl) (hne : tpl ≠ []) :
    ∃ u v stk, words tpl = u ++ words (v :: stk) ∧
      DatumTrie.descend H T.child (words tpl).length [] tpl = some (u.reverse, v :: stk) ∧
      v.symbol ∉ (T.child u.reverse).children ∧ T.child u.reverse ≠ .leaf ∧
      Grown.Has T.addresses u.reverse := by
  obtain ⟨stk, hdescend, hstk⟩ := h.descend_eq ht hclash _ [] tpl rfl rfl
  have hword : (words tpl).reverse ++ [] ≠ [] := by
    simpa using fun hnil => hne (words_eq_nil.1 hnil)
  obtain ⟨u, d, rest, hw, hstop, hnot, hleaf, hin⟩ := h.grown.descend_of_notMem (words tpl) [] hword
    (by rw [List.append_nil]; exact h.apart ht habs) (Or.inl rfl)
  rw [List.reverse_nil, hstop] at hdescend hstk
  rw [List.append_nil] at hdescend hnot hleaf hin
  cases stk with
  | nil => exact absurd hstk.symm (List.cons_ne_nil _ _)
  | cons v stk =>
    have hd : v.symbol = d := by
      rw [words_cons] at hstk
      exact (List.cons.inj hstk).1
    refine ⟨u, v, stk, by rw [hstk, hw], hdescend, ?_, hleaf, hin⟩
    rw [hd]
    exact hnot

/-- Where a structure or a boolean is to be added, there is nothing yet. -/
theorem eq_siblings_nil (h : Inv H fields T) (ht : AllHaveType tpl fields)
    (hclash : ¬ T.Clash tpl) {u r : List Symbol} {s : Symbol} (hw : words tpl = u ++ s :: r)
    (hnot : s ∉ (T.child u.reverse).children) (hleaf : T.child u.reverse ≠ .leaf)
    (hs : s.hashable = false) : T.child u.reverse = .siblings [] := by
  refine (h.grown.ok _).eq_siblings_nil hleaf (List.eq_nil_iff_forall_not_mem.2 fun e he => ?_)
  have hkind := h.kind_eq ht hw he
  cases s with
  | bool b => exact hclash ((h.clash_iff ht).2 ⟨u, b, r, hw, List.ne_nil_of_mem he⟩)
  | size n =>
    rw [Symbol.eq_size hkind] at he
    exact hnot he
  | _ => cases hs

/-- What restructuring the level comes to. -/
theorem restructure_spec (h : Inv H fields T) (ht : AllHaveType tpl fields)
    (hclash : ¬ T.Clash tpl) {u r : List Symbol} {s : Symbol} (hw : words tpl = u ++ s :: r)
    (hnot : s ∉ (T.child u.reverse).children) (hleaf : T.child u.reverse ≠ .leaf)
    {c : Level Symbol} (hc : restructure H s
      (((T.child u.reverse).candidates H.hashItem s).length + 1) (T.child u.reverse) = some c) :
    Level.Rearranged H.hashItem (T.child u.reverse) c ∧
      (s.hashable = false → c = .siblings []) := by
  have hok := h.grown.ok u.reverse
  cases hs : s.hashable with
  | false =>
    rw [h.eq_siblings_nil ht hclash hw hnot hleaf hs] at hc ⊢
    obtain rfl : Level.siblings [] = c := Option.some.inj hc
    exact ⟨.refl List.nodup_nil, fun _ => rfl⟩
  | true =>
    refine ⟨?_, fun hf => Bool.noConfusion hf⟩
    cases hlevel : T.child u.reverse with
    | leaf => exact absurd hlevel hleaf
    | siblings nodes =>
      rw [hlevel] at hc hok
      simp only [restructure, hs, if_true] at hc
      split at hc
      next hcount =>
        obtain rfl := Option.some.inj hc
        refine Level.Ok.convert hok (by decide) fun hnil => ?_
        have hnodes : nodes = [] := hnil
        rw [hnodes] at hcount
        exact absurd hcount (by decide : ¬ 0 + 1 > Trie.hashListThreshold)
      next =>
        obtain rfl := Option.some.inj hc
        exact .refl hok
    | hash total buckets =>
      rw [hlevel] at hc hok
      simp only [restructure] at hc
      split at hc
      next =>
        split at hc
        next =>
          obtain rfl := Option.some.inj hc
          exact Level.Ok.expand hok
        next => cases hc
      next =>
        obtain rfl := Option.some.inj hc
        exact .refl hok

/-- The level that gets the symbol is no hash table if sizes lead on from it. -/
theorem add_ne_hash (h : Inv H fields T) (ht : AllHaveType tpl fields) {u r : List Symbol}
    {s : Symbol} (hw : words tpl = u ++ s :: r) (hleaf : T.child u.reverse ≠ .leaf)
    {c : Level Symbol} (hre : Level.Rearranged H.hashItem (T.child u.reverse) c)
    (hplain : s.hashable = false → c = .siblings []) {n : BitVec 32}
    (hn : .size n ∈ (c.add H.hashItem s).children) (total : ℕ) (buckets : List (List Symbol)) :
    c.add H.hashItem s ≠ .hash total buckets := by
  intro hhash
  cases hs : s.hashable with
  | false =>
    rw [hplain hs] at hhash
    cases hhash
  | true =>
    have hcleaf : c ≠ .leaf := by rw [Ne, hre.leaf]; exact hleaf
    rw [(hre.ok.perm_add hcleaf _).mem_iff, List.mem_cons, hre.perm.mem_iff] at hn
    rcases hn with hn | hn
    · rw [← hn] at hs
      cases hs
    · have hkind := h.kind_eq ht hw hn
      rw [Symbol.eq_size hkind.symm] at hs
      cases hs

/-- A tuple that is not there gets its path and its leaf. -/
theorem checkInsert_absent (h : Inv H fields T) (ht : AllHaveType tpl fields)
    (hclash : ¬ T.Clash tpl) (habs : ¬ T.Present tpl) (hne : tpl ≠ []) :
    ∃ u v stk, words tpl = u ++ words (v :: stk) ∧
      v.symbol ∉ (T.child u.reverse).children ∧ T.child u.reverse ≠ .leaf ∧
      Grown.Has T.addresses u.reverse ∧
      (restructure H v.symbol (((T.child u.reverse).candidates H.hashItem v.symbol).length + 1)
          (T.child u.reverse) = none →
        checkInsert H isCycle T tpl depth = none) ∧
      ∀ c, restructure H v.symbol
          (((T.child u.reverse).candidates H.hashItem v.symbol).length + 1)
          (T.child u.reverse) = some c →
        ∃ T', checkInsert H isCycle T tpl depth = some (T', false) ∧ Inv H fields T' ∧
          T'.leaves = T.leaves ++ [createLeaf isCycle (words tpl).reverse tpl depth] ∧
          T'.numberOfReferences = T.numberOfReferences ∧
          T'.child u.reverse = c.add H.hashItem v.symbol ∧
          ∀ q, q ≠ u.reverse → T'.child q = .leaf ∨ T'.child q = T.child q ∨
            ∃ nodes, T'.child q = .siblings nodes ∧ nodes.length ≤ 1 := by
  obtain ⟨u, v, stk, hw, hdescend, hnot, hleaf, hin⟩ := h.descend_absent ht hclash habs hne
  refine ⟨u, v, stk, hw, hnot, hleaf, hin, fun hnone => ?_, fun c hc => ?_⟩
  · rw [checkInsert, if_neg fun hb => hne hb.1, hdescend]
    simp only [hnone]
  have hword := words_cons v stk
  have hsplit : words tpl = u ++ v.symbol :: words (v.pushes ++ stk) := by rw [hw, hword]
  obtain ⟨hre, hplain⟩ := h.restructure_spec ht hclash hsplit hnot hleaf hc
  have hrest := insertRest_eq (H := H) (Function.update T.child u.reverse c) _ u.reverse (v :: stk)
    rfl fun w rest hcons hs total buckets hhash => by
      obtain ⟨rfl, -⟩ := List.cons.inj hcons
      rw [Function.update_self, hplain hs] at hhash
      cases hhash
  rw [hword] at hrest
  have hlastEq : (v.symbol :: words (v.pushes ++ stk)).reverse ++ u.reverse =
      (words tpl).reverse := by rw [hsplit, List.reverse_append]
  obtain ⟨r, hr⟩ : ∃ r, r = addRest H.hashItem (Function.update T.child u.reverse c) u.reverse
    (v.symbol :: words (v.pushes ++ stk)) := ⟨_, rfl⟩
  obtain ⟨child, hchildEq⟩ : ∃ f, f = Function.update r.1 (words tpl).reverse .leaf := ⟨_, rfl⟩
  have hapart := h.apart ht habs
  rw [← hlastEq] at hapart hchildEq
  obtain ⟨hlast, hgrown, hupdate, hchild⟩ := h.grown.addBelow hre hnot hleaf hin hapart hr hchildEq
  rw [hlastEq] at hlast hgrown hchildEq
  rw [← hr] at hrest
  refine ⟨⟨child, T.leaves ++ [createLeaf isCycle (words tpl).reverse tpl depth],
    T.numberOfReferences⟩, ?_, ⟨?_, ?_, ?_⟩, rfl, rfl, hupdate, hchild⟩
  · rw [checkInsert, if_neg fun hb => hne hb.1, hdescend]
    simp only [hc, hword, hrest, hlast, hchildEq]
  · rw [addresses_append]
    exact hgrown
  · intro l hl
    rcases List.mem_append.1 hl with hl | hl
    · exact h.spelled l hl
    · obtain rfl := List.mem_singleton.1 hl
      exact ⟨ht, rfl⟩
  · intro q n hn total buckets hhash
    simp only at hn hhash
    by_cases hq : q = u.reverse
    · subst hq
      rw [hupdate] at hn hhash
      exact h.add_ne_hash ht hsplit hleaf hre hplain hn total buckets hhash
    · rcases hchild q hq with hleaf' | hsame | ⟨nodes, hnodes, -⟩
      · rw [hleaf'] at hhash
        cases hhash
      · rw [hsame] at hn hhash
        exact h.unhashed q n hn total buckets hhash
      · rw [hnodes] at hhash
        cases hhash

/-- Changing a leaf that stays where it is does not matter. -/
theorem updateLeaf (h : Inv H fields T) (p : List Symbol) {f : DatumLeaf → DatumLeaf}
    (hf : ∀ l, (f l).node = l.node ∧ (f l).tpl = l.tpl) (n : ℕ) :
    Inv H fields ⟨T.child, DatumTrie.updateLeaf p f T.leaves, n⟩ := by
  have hsame : ∀ l : DatumLeaf, (if l.node = p then f l else l).node = l.node ∧
      (if l.node = p then f l else l).tpl = l.tpl := by
    intro l
    split
    next => exact hf l
    next => exact ⟨rfl, rfl⟩
  refine ⟨?_, fun l hl => ?_, h.unhashed⟩
  · have haddresses : addresses ⟨T.child, DatumTrie.updateLeaf p f T.leaves, n⟩ = T.addresses := by
      ext a
      constructor
      · rintro ⟨l, hl, rfl⟩
        obtain ⟨m, hm, rfl⟩ := List.mem_map.1 hl
        exact ⟨m, hm, (hsame m).1.symm⟩
      · rintro ⟨m, hm, rfl⟩
        exact ⟨_, List.mem_map.2 ⟨m, hm, rfl⟩, (hsame m).1⟩
    rw [haddresses]
    exact h.grown
  · obtain ⟨m, hm, rfl⟩ := List.mem_map.1 hl
    rw [(hsame m).1, (hsame m).2]
    exact h.spelled m hm

theorem renumber (h : Inv H fields T) (n : ℕ) :
    Inv H fields { T with numberOfReferences := n } := ⟨h.grown, h.spelled, h.unhashed⟩

/-- The root is a leaf exactly when the tuple without fields is there. -/
theorem root_leaf_iff (h : Inv H fields T) : T.child [] = .leaf ↔ T.Present [] := by
  rw [h.grown.leaf_iff]
  constructor
  · rintro ⟨l, hl, hnode⟩
    rw [(h.spelled l hl).2, List.reverse_eq_nil_iff] at hnode
    exact ⟨l, hl, hnode⟩
  · rintro ⟨l, hl, hword⟩
    refine ⟨l, hl, ?_⟩
    rw [(h.spelled l hl).2, hword]
    rfl

/-- An absent tuple that does not concern the root has a field. -/
theorem ne_nil (h : Inv H fields T) (hroot : ¬ (tpl = [] ∧ T.child [] ≠ .leaf))
    (habs : ¬ T.Present tpl) : tpl ≠ [] := by
  rintro rfl
  exact hroot ⟨rfl, fun hleaf => habs (h.root_leaf_iff.1 hleaf)⟩

/-- Of a predicate without fields, there is no leaf unless the root is one. -/
theorem leaves_eq_nil (h : Inv H [] T) (hleaf : T.child [] ≠ .leaf) : T.leaves = [] := by
  refine List.eq_nil_iff_forall_not_mem.2 fun l hl => hleaf ((h.grown.leaf_iff []).2 ⟨l, hl, ?_⟩)
  obtain ⟨htyped, hnode⟩ := h.spelled l hl
  cases hl' : l.tpl with
  | nil => rw [hnode, hl']; rfl
  | cons v vs =>
    rw [hl'] at htyped
    cases htyped

/-- The first insertion of the tuple without fields. -/
theorem insertRoot (h : Inv H [] T) (hleaf : T.child [] ≠ .leaf) (n : ℕ) :
    Inv H [] ⟨Function.update T.child [] .leaf, [createLeaf isCycle [] [] depth], n⟩ := by
  have hnone : T.addresses = ∅ := Set.eq_empty_iff_forall_notMem.2 fun a ⟨l, hl, _⟩ => by
    rw [h.leaves_eq_nil hleaf] at hl
    exact List.not_mem_nil hl
  have hgrown := h.grown
  rw [hnone] at hgrown
  have hone : addresses ⟨Function.update T.child [] .leaf, [createLeaf isCycle [] [] depth], n⟩ =
      {[]} := by
    ext a
    constructor
    · rintro ⟨l, hl, rfl⟩
      obtain rfl := List.mem_singleton.1 hl
      rfl
    · rintro rfl
      exact ⟨_, List.mem_singleton_self _, rfl⟩
  refine ⟨?_, fun l hl => ?_, fun p n hn => ?_⟩
  · rw [hone]
    exact hgrown.root
  · obtain rfl := List.mem_singleton.1 hl
    exact ⟨.nil, rfl⟩
  · simp only at hn
    by_cases hp : p = []
    · rw [hp, Function.update_self] at hn
      exact absurd hn List.not_mem_nil
    · rw [Function.update_of_ne hp, hgrown.mem_children] at hn
      obtain ⟨a, ha, -⟩ := hn
      exact absurd ha (Set.notMem_empty a)

/-- With a clash, nothing is found or inserted. -/
theorem descend_eq_none (h : Inv H fields T) (ht : AllHaveType tpl fields) (hclash : T.Clash tpl) :
    DatumTrie.descend H T.child (words tpl).length [] tpl = none ∧ tpl ≠ [] := by
  obtain ⟨u, b, rest, hw, hne⟩ := (h.clash_iff ht).1 hclash
  refine ⟨h.descend_of_clash ht hw hne _ [] u rfl tpl rfl rfl, ?_⟩
  rintro rfl
  exact absurd hw (List.append_ne_nil_of_right_ne_nil u (List.cons_ne_nil _ _)).symm

theorem checkInsert (h : Inv H fields T) (ht : AllHaveType tpl fields) {found : Bool}
    (hT' : DatumTrie.checkInsert H isCycle T tpl depth = some (T', found)) : Inv H fields T' := by
  by_cases hroot : tpl = [] ∧ T.child [] ≠ .leaf
  · rw [DatumTrie.checkInsert, if_pos hroot] at hT'
    obtain ⟨rfl, -⟩ := Prod.mk.inj (Option.some.inj hT')
    obtain ⟨rfl, hleaf⟩ := hroot
    cases ht
    exact h.insertRoot hleaf _
  by_cases hclash : T.Clash tpl
  · rw [DatumTrie.checkInsert, if_neg hroot, (h.descend_eq_none ht hclash).1] at hT'
    cases hT'
  by_cases hin : T.Present tpl
  · rw [DatumTrie.checkInsert, if_neg hroot, h.descend_present ht hclash hin] at hT'
    obtain ⟨rfl, -⟩ := Prod.mk.inj (Option.some.inj hT')
    exact h.updateLeaf (f := addNew isCycle depth) _ (fun l => ⟨rfl, rfl⟩) _
  have hne := h.ne_nil hroot hin
  obtain ⟨u, v, stk, -, -, -, -, hnone, hsome⟩ := h.checkInsert_absent ht hclash hin hne
  cases hc : restructure H v.symbol
      (((T.child u.reverse).candidates H.hashItem v.symbol).length + 1) (T.child u.reverse) with
  | none =>
    rw [hnone hc] at hT'
    cases hT'
  | some c =>
    obtain ⟨T₁, hT₁, hInv, -⟩ := hsome c hc
    rw [hT₁] at hT'
    obtain ⟨rfl, -⟩ := Prod.mk.inj (Option.some.inj hT')
    exact hInv

/-- Insertions keep the invariant. -/
theorem insertTuple (h : Inv H fields T) (ht : AllHaveType tpl fields) {isNew : Bool}
    (hT' : DatumTrie.insertTuple H isCycle T tpl depth = some (T', isNew)) : Inv H fields T' := by
  obtain ⟨⟨T₁, found⟩, hT₁, heq⟩ := Option.map_eq_some_iff.1 hT'
  obtain ⟨rfl, -⟩ := Prod.mk.inj heq
  exact (h.renumber _).checkInsert ht hT₁

/-- Taking a leaf out. -/
theorem performDelete (h : Inv H fields T) {info : Found} (hleaf : info.leaf ∈ T.addresses) :
    Inv H fields (T.performDelete H info) := by
  obtain ⟨l₀, hl₀, hnode₀⟩ := hleaf
  have haddresses : (T.performDelete H info).addresses = T.addresses \ {info.leaf} := by
    ext a
    constructor
    · rintro ⟨l, hl, rfl⟩
      obtain ⟨hl, hne⟩ := List.mem_filter.1 hl
      exact ⟨⟨l, hl, rfl⟩, of_decide_eq_true hne⟩
    · rintro ⟨⟨l, hl, rfl⟩, hne⟩
      exact ⟨l, List.mem_filter.2 ⟨hl, decide_eq_true hne⟩, rfl⟩
  refine ⟨?_, fun l hl => h.spelled l (List.mem_filter.1 hl).1,
    fun p n hn total buckets hhash => ?_⟩
  · rw [haddresses]
    refine h.grown.prune ⟨l₀, hl₀, hnode₀⟩ ?_
    rintro b ⟨⟨l, hl, rfl⟩, hne⟩
    obtain ⟨htyped, hnode⟩ := h.spelled l hl
    obtain ⟨htyped₀, hword₀⟩ := h.spelled l₀ hl₀
    have happart : ¬ words l.tpl = words l₀.tpl := fun heq =>
      hne (by rw [Set.mem_singleton_iff, ← hnode₀, hnode, hword₀, heq])
    rw [← hnode₀, hnode, hword₀]
    exact ⟨fun hsuf => happart (words_eq_of_isPrefix htyped htyped₀ (List.reverse_suffix.1 hsuf)),
      fun hsuf => happart (words_eq_of_isPrefix htyped₀ htyped (List.reverse_suffix.1 hsuf)).symm⟩
  · have hcases := prune_cases (h := H.hashItem) T.child info.leaf p
    have hlevel : (T.performDelete H info).child p = prune H.hashItem T.child info.leaf p := rfl
    rw [← hlevel, hhash] at hcases
    rw [hhash] at hn
    rcases hcases with hclear | hsame | ⟨d, hsuf, hremove⟩
    · cases hclear
    · exact h.unhashed p n (hsame ▸ hn) total buckets hsame.symm
    · have hd : d ∈ (T.child p).children :=
        (h.grown.mem_children p d).2 ⟨info.leaf, ⟨l₀, hl₀, hnode₀⟩, hsuf⟩
      have hspec := (h.grown.ok p).remove hd
      rw [hremove] at hspec
      have hold := hspec.2.2.2.mem_iff.2 (List.mem_cons_of_mem d hn)
      cases hc : T.child p with
      | leaf =>
        rw [hc] at hremove
        cases hremove
      | siblings nodes =>
        rw [hc, Level.remove] at hremove
        split at hremove <;> cases hremove
      | hash total' buckets' => exact h.unhashed p n hold total' buckets' hc

/-- Deleting a tuple that is not there: it is found missing, unless there is no field or a boolean
gets in the way. -/
theorem deleteTuple_absent (h : Inv H fields T) (ht : AllHaveType tpl fields)
    (habs : ¬ T.Present tpl) :
    DatumTrie.deleteTuple H isCycle T tpl depth = some (T, none) ↔
      fields ≠ [] ∧ ¬ T.Clash tpl := by
  by_cases hnil : tpl = []
  · subst hnil
    have hleaf : T.child [] ≠ .leaf := fun hleaf => habs (h.root_leaf_iff.1 hleaf)
    cases ht
    rw [DatumTrie.deleteTuple, if_pos ⟨rfl, hleaf⟩]
    exact iff_of_false nofun fun hb => hb.1 rfl
  have hfields : fields ≠ [] := by
    rintro rfl
    cases ht
    exact hnil rfl
  rw [DatumTrie.deleteTuple, if_neg fun hb => hnil hb.1]
  by_cases hclash : T.Clash tpl
  · rw [(h.descend_eq_none ht hclash).1]
    exact iff_of_false nofun fun hb => hb.2 hclash
  · obtain ⟨u, v, stk, -, hdescend, -⟩ := h.descend_absent ht hclash habs hnil
    rw [hdescend]
    exact iff_of_true rfl ⟨hfields, hclash⟩

/-- Deleting a tuple counts its leaf down, if it succeeds. -/
theorem deleteTuple (h : Inv H fields T) (ht : AllHaveType tpl fields) {info : Option Found}
    (hT' : DatumTrie.deleteTuple H isCycle T tpl depth = some (T', info)) :
    Inv H fields T' ∧ ∀ i, info = some i → i.leaf ∈ T'.addresses := by
  by_cases hroot : tpl = [] ∧ T.child [] ≠ .leaf
  · rw [DatumTrie.deleteTuple, if_pos hroot] at hT'
    cases hT'
  rw [DatumTrie.deleteTuple, if_neg hroot] at hT'
  by_cases hclash : T.Clash tpl
  · rw [(h.descend_eq_none ht hclash).1] at hT'
    cases hT'
  by_cases hin : T.Present tpl
  · rw [h.descend_present ht hclash hin] at hT'
    have hleaves : ∀ n, Inv H fields ⟨T.child, DatumTrie.updateLeaf (words tpl).reverse
        (subOne isCycle depth) T.leaves, n⟩ := fun n =>
      h.updateLeaf (f := subOne isCycle depth) _ (fun l => ⟨rfl, rfl⟩) n
    have hmem : ∀ n, (words tpl).reverse ∈ addresses ⟨T.child, DatumTrie.updateLeaf
        (words tpl).reverse (subOne isCycle depth) T.leaves, n⟩ := by
      intro n
      obtain ⟨l, hl, hword⟩ := hin
      have hnode : l.node = (words tpl).reverse := by rw [(h.spelled l hl).2, hword]
      exact ⟨_, List.mem_map.2 ⟨l, hl, rfl⟩, by rw [if_pos hnode]; exact hnode⟩
    simp only at hT'
    split at hT' <;> obtain ⟨rfl, rfl⟩ := Prod.mk.inj (Option.some.inj hT')
    · refine ⟨hleaves _, fun i hi => ?_⟩
      obtain rfl := Option.some.inj hi
      exact hmem _
    · refine ⟨hleaves _, fun i hi => ?_⟩
      obtain rfl := Option.some.inj hi
      exact hmem _
  · obtain ⟨u, v, stk, -, hdescend, -⟩ := h.descend_absent ht hclash hin (h.ne_nil hroot hin)
    rw [hdescend] at hT'
    obtain ⟨rfl, rfl⟩ := Prod.mk.inj (Option.some.inj hT')
    exact ⟨h, fun i hi => nomatch hi⟩

/-- Retractions keep the invariant. -/
theorem remove (h : Inv H fields T) (ht : AllHaveType tpl fields)
    (hT' : DatumTrie.remove H isCycle T tpl depth = some T') : Inv H fields T' := by
  rw [DatumTrie.remove] at hT'
  split at hT'
  next => cases hT'
  next T₁ hT₁ =>
    obtain rfl := Option.some.inj hT'
    exact (h.deleteTuple ht hT₁).1
  next T₁ info hT₁ =>
    obtain ⟨h₁, hleaf⟩ := h.deleteTuple ht hT₁
    have hmem := hleaf info rfl
    have h₂ := h₁.updateLeaf (f := fun l =>
      { l with
        count := subRefCount l.count (DepthCounter.deleteDepthsAbove depth l.depths).2
        depths := (DepthCounter.deleteDepthsAbove depth l.depths).1 }) info.leaf
      (fun l => ⟨rfl, rfl⟩) T₁.numberOfReferences
    split at hT'
    next =>
      obtain rfl := Option.some.inj hT'
      exact h₁.performDelete hmem
    next =>
      split at hT'
      next =>
        simp only at hT'
        split at hT'
        next =>
          obtain rfl := Option.some.inj hT'
          refine h₂.performDelete ?_
          obtain ⟨l, hl, hnode⟩ := hmem
          exact ⟨_, List.mem_map.2 ⟨l, hl, rfl⟩, by rw [if_pos hnode]; exact hnode⟩
        next =>
          obtain rfl := Option.some.inj hT'
          exact h₂
      next =>
        obtain rfl := Option.some.inj hT'
        exact h₁

end Inv

/-! ## Deleting an absent tuple -/

/-- The tries of a predicate: filled by insertions, emptied by retractions. -/
inductive Reach (H : Hashes) (isCycle : Bool) (fields : List FieldType) : DatumTrie → Prop where
  | empty : Reach H isCycle fields .empty
  | insert {T T' : DatumTrie} (h : Reach H isCycle fields T) {tpl : List Datum} {depth : ℕ}
      {isNew : Bool} (ht : AllHaveType tpl fields)
      (hT' : T.insertTuple H isCycle tpl depth = some (T', isNew)) : Reach H isCycle fields T'
  | remove {T T' : DatumTrie} (h : Reach H isCycle fields T) {tpl : List Datum} {depth : ℕ}
      (ht : AllHaveType tpl fields) (hT' : T.remove H isCycle tpl depth = some T') :
      Reach H isCycle fields T'

theorem Reach.inv (h : Reach H isCycle fields T) : Inv H fields T := by
  induction h with
  | empty => exact inv_empty
  | insert h ht hT' ih => exact ih.insertTuple ht hT'
  | remove h ht hT' ih => exact ih.remove ht hT'

/-- **Deleting an absent tuple.**  In every trie of a predicate, deleting a tuple that is not there
returns an invalid `delete_info` and leaves the trie, its leaves and its size as they were, if and
only if the predicate has a field and no tuple of the trie agrees with it on everything before a
boolean. -/
theorem deleteTuple_absent_iff (h : Reach H isCycle fields T) (ht : AllHaveType tpl fields)
    (habs : ¬ T.Present tpl) (depth : ℕ) :
    T.deleteTuple H isCycle tpl depth = some (T, none) ↔ fields ≠ [] ∧ ¬ T.Clash tpl :=
  h.inv.deleteTuple_absent ht habs

/-- Hashes that tell nothing apart. -/
def noHashes : Hashes := ⟨fun _ => 0, fun _ => 0, fun _ => 0⟩

/-- The trie of `(7, 1, true)`. -/
theorem exists_seven : ∃ T, Reach noHashes false [.int, .int, .bool] T ∧ (∃ l, l ∈ T.leaves) ∧
    ∀ l ∈ T.leaves, words l.tpl = [.int 7, .int 1, .bool true] := by
  have hinsert : ((empty.insertTuple noHashes false [.int 7, .int 1, .bool true] 0).map fun r =>
      r.1.leaves.map fun l => words l.tpl) = some [[.int 7, .int 1, .bool true]] := by
    decide +kernel
  obtain ⟨⟨T, isNew⟩, hT, hwords⟩ := Option.map_eq_some_iff.1 hinsert
  obtain ⟨l, hl, hword⟩ := List.map_eq_singleton_iff.1 hwords
  have hmem : ∀ l', l' ∈ T.leaves ↔ l' = l := fun l' => by
    rw [show T.leaves = [l] from hl, List.mem_singleton]
  exact ⟨T, .insert .empty (.cons (.int 7) (.cons (.int 1) (.cons (.bool true) .nil))) hT,
    ⟨l, (hmem l).2 rfl⟩, fun l' hl' => (hmem l').1 hl' ▸ hword⟩

/-- In a trie with `(7, 1, true)`, the walk for `(7, 2, true)` goes down to 7 and finds no 2. -/
theorem deleteTuple_absent_iff_seven : ∃ T : DatumTrie,
    T.Present [.int 7, .int 1, .bool true] ∧
      T.deleteTuple noHashes false [.int 7, .int 2, .bool true] 0 = some (T, none) := by
  obtain ⟨T, hT, ⟨l, hl⟩, hwords⟩ := exists_seven
  have habs : ¬ T.Present [.int 7, .int 2, .bool true] := by
    rintro ⟨l, hl, heq⟩
    rw [hwords l hl] at heq
    exact absurd heq (by decide)
  have hclash : ¬ T.Clash [.int 7, .int 2, .bool true] := by
    rintro ⟨u, b, rest, hu, l, hl, hprefix⟩
    rw [hwords l hl] at hprefix
    -- the only boolean of the absent tuple is behind the 2
    have hu' : u = [.int 7, .int 2] := by
      match u, hu with
      | [], hu => cases hu
      | [_], hu => cases hu
      | [_, _], hu =>
        cases hu
        rfl
      | _ :: _ :: _ :: _, hu => simp [words, word] at hu
    rw [hu'] at hprefix
    exact absurd hprefix (by decide)
  exact ⟨T, ⟨l, hl, hwords l hl⟩,
    (deleteTuple_absent_iff hT (.cons (.int 7) (.cons (.int 2) (.cons (.bool true) .nil))) habs
      0).2 ⟨List.cons_ne_nil _ _, hclash⟩⟩

/-- **Deleting an absent tuple does not always find it missing**: the walk for `(7, 1, false)` in a
trie with `(7, 1, true)` comes to a level of booleans, which `match` does not know. -/
theorem not_forall_deleteTuple_absent :
    ¬ ∀ (fields : List FieldType) (T : DatumTrie) (tpl : List Datum),
      Reach noHashes false fields T → AllHaveType tpl fields → ¬ T.Present tpl →
        T.deleteTuple noHashes false tpl 0 = some (T, none) := by
  intro hall
  obtain ⟨T, hT, ⟨l, hl⟩, hwords⟩ := exists_seven
  have htyped : AllHaveType [.int 7, .int 1, .bool false] [.int, .int, .bool] :=
    .cons (.int 7) (.cons (.int 1) (.cons (.bool false) .nil))
  have habs : ¬ T.Present [.int 7, .int 1, .bool false] := by
    rintro ⟨l, hl, heq⟩
    rw [hwords l hl] at heq
    exact absurd heq (by decide)
  have hdelete := hall _ T _ hT htyped habs
  refine ((hT.inv.deleteTuple_absent htyped habs).1 hdelete).2 ?_
  exact ⟨[.int 7, .int 1], false, [], rfl, l, hl, by rw [hwords l hl]; exact List.prefix_append _ _⟩

end DatumTrie

end Meld
