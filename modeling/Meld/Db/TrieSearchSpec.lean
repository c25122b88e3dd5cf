import Meld.Db.TrieSearch
import Mathlib.Logic.Function.Iterate
import Mathlib.Algebra.Order.BigOperators.Group.List
import Mathlib.Algebra.Order.Group.Nat

/-!
# What a search of the trie should find

The stack of match fields is an automaton that reads the word of a tuple symbol by symbol.  This
module shows that it accepts the words of the matching tuples, and that `matchesBelow` lists the
leaves whose word it accepts, each once.

* `accepts`: the automaton, and `accepts_word`: it accepts exactly the matching tuples.
* `NodeOk`: a node of the trie together with a stack of patterns of the right types for what is
  below it.  The walk stays within these (`NodeOk.child`).
* `mem_below`, `nodup_below`: the specification of `matchesBelow`.
-/

namespace Meld

/-! ## Types on the stacks -/

/-- The types that a symbol of a field leaves to be read. -/
def pushTypes : FieldType → TrieData → List FieldType
  | .list sub, .ptr true => [sub, .list sub]
  | _, _ => []

theorem HasType.pushes {v : Value} {t : FieldType} (hv : HasType v t) :
    List.Forall₂ HasType v.pushes (pushTypes t v.data) := by
  cases hv with
  | int i => exact .nil
  | float x => exact .nil
  | node n => exact .nil
  | nil t => exact .nil
  | cons hhead htail => exact .cons hhead (.cons htail .nil)

/-- A pattern that is met leaves patterns of these types. -/
theorem MatchField.HasType.pushes {f : MatchField} {v : Value} {t : FieldType}
    (hf : f.HasType t) (hv : Meld.HasType v t) (hmeets : Trie.meets f v.data = true) :
    List.Forall₂ MatchField.HasType (f.pushes v.data) (pushTypes t v.data) := by
  cases hv with
  | int i => cases hf <;> exact .nil
  | float x => cases hf <;> exact .nil
  | node n => cases hf <;> exact .nil
  | nil sub =>
    cases hf with
    | any => exact .nil
    | nil => exact .nil
    | nonNil => simp [Trie.meets, MatchField.key, Value.data] at hmeets
    | list => simp [Trie.meets, MatchField.key, Value.data] at hmeets
  | cons hhead htail =>
    cases hf with
    | any => exact .cons (.any _) (.cons (.any _) .nil)
    | nil => simp [Trie.meets, MatchField.key, Value.data] at hmeets
    | nonNil => exact .cons (.any _) (.cons (.any _) .nil)
    | list hh ht => exact .cons hh (.cons ht .nil)

namespace Trie

/-! ## The automaton -/

/-- The patterns on the stack, run over a word. -/
def accepts : List MatchField → List TrieData → Bool
  | [], [] => true
  | [], _ :: _ => false
  | _ :: _, [] => false
  | f :: stk, d :: w => meets f d && accepts (f.pushes d ++ stk) w
termination_by _ w => w.length

/-- A field is matched when it is free or `do_rec_match` says so. -/
def fieldMatches (f : MatchField) (v : Value) : Bool := !f.exact || f.doRecMatch v

/-- The automaton reads a value and goes on behind it exactly when the value matches. -/
theorem accepts_value {v : Value} {t : FieldType} (hv : HasType v t) {f : MatchField}
    (hf : f.HasType t) (stk : List MatchField) (w : List TrieData) :
    accepts (f :: stk) (v.word ++ w) = (fieldMatches f v && accepts stk w) := by
  induction hv generalizing f stk w with
  | int i | float x | node n =>
    cases hf <;> simp [Value.word, accepts, meets, MatchField.key, MatchField.pushes,
      fieldMatches, MatchField.exact, MatchField.doRecMatch, eq_comm]
  | nil sub =>
    cases hf <;> simp [Value.word, accepts, meets, MatchField.key, MatchField.pushes,
      fieldMatches, MatchField.exact, MatchField.doRecMatch]
  | cons hhead htail ihh iht =>
    have hfree : ∀ g : MatchField, ∀ ty, g = .any ty → ∀ v, fieldMatches g v = true := by
      rintro _ ty rfl v
      rfl
    cases hf with
    | any =>
      rw [Value.word, List.cons_append, List.append_assoc, accepts]
      simp only [meets, MatchField.key, MatchField.pushes, List.cons_append, List.nil_append]
      rw [ihh (.any _), iht (.any _), hfree _ _ rfl, hfree _ _ rfl, hfree _ _ rfl]
      simp
    | nil => simp [Value.word, accepts, meets, MatchField.key, fieldMatches, MatchField.exact,
        MatchField.doRecMatch]
    | nonNil =>
      rw [Value.word, List.cons_append, List.append_assoc, accepts]
      simp only [meets, MatchField.key, MatchField.pushes, List.cons_append, List.nil_append]
      rw [ihh (.any _), iht (.any _), hfree _ _ rfl, hfree _ _ rfl]
      simp [fieldMatches, MatchField.exact, MatchField.doRecMatch]
    | @list _ head tail hh ht =>
      rw [Value.word, List.cons_append, List.append_assoc, accepts]
      simp only [meets, MatchField.key, MatchField.pushes, List.cons_append, List.nil_append]
      rw [ihh hh, iht ht]
      simp [fieldMatches, MatchField.exact, MatchField.doRecMatch, Bool.and_assoc]

/-- The automaton accepts the word of a tuple exactly when every field matches. -/
theorem accepts_fields {tpl : Tuple} {fields : List FieldType} (ht : TupleHasType tpl fields)
    {mfs : List MatchField} (hm : List.Forall₂ MatchField.HasType mfs fields) :
    accepts mfs (word tpl) = (mfs.zip tpl).all fun fv => fieldMatches fv.1 fv.2 := by
  induction ht generalizing mfs with
  | nil =>
    cases hm
    simp [accepts]
  | @cons v t vs ts hv _ ih =>
    cases hm with
    | cons hf hfs =>
      have hcons : word (v :: vs) = v.word ++ word vs := rfl
      rw [hcons, accepts_value hv hf, ih hfs, List.zip_cons_cons, List.all_cons]

/-- **The automaton decides `do_matches`** for a match object with an exact field. -/
theorem accepts_word {tpl : Tuple} {fields : List FieldType} (ht : TupleHasType tpl fields)
    {m : MatchObject} (hm : List.Forall₂ MatchField.HasType m.fields fields)
    (hexact : m.anyExact = true) : accepts m.fields (word tpl) = doMatches m tpl := by
  rw [accepts_fields ht hm, doMatches, hexact]
  rfl

/-! ## Nodes and stacks -/

variable {nodeId : BitVec 64 → ℕ} {fields : List FieldType} {T : Trie}

/-- The types that are left to be read of `tys` after a word. -/
def residual : List FieldType → List TrieData → List FieldType
  | tys, [] => tys
  | [], _ :: _ => []
  | t :: tys, d :: w => residual (pushTypes t d ++ tys) w
termination_by _ w => w.length

/-- What follows a prefix of the word of typed values is the word of values of the residual
types. -/
theorem exists_residual {vs : List Value} {tys : List FieldType}
    (hvs : List.Forall₂ HasType vs tys) {u w : List TrieData} (h : word vs = u ++ w) :
    ∃ vs', List.Forall₂ HasType vs' (residual tys u) ∧ word vs' = w := by
  induction u generalizing vs tys with
  | nil =>
    rw [residual]
    exact ⟨vs, hvs, h⟩
  | cons d u ih =>
    cases hvs with
    | nil => simp at h
    | @cons v t vs tys hv hvs =>
      rw [word_cons, List.cons_append] at h
      obtain ⟨rfl, h'⟩ := List.cons.inj h
      rw [residual]
      exact ih (List.rel_append hv.pushes hvs) h'

theorem residual_concat {tys : List FieldType} {u : List TrieData} {t : FieldType}
    {rest : List FieldType} (h : residual tys u = t :: rest) (d : TrieData) :
    residual tys (u ++ [d]) = pushTypes t d ++ rest := by
  induction u generalizing tys with
  | nil =>
    rw [residual] at h
    rw [h, List.nil_append, residual, residual]
  | cons e u ih =>
    cases tys with
    | nil => simp [residual] at h
    | cons t' tys =>
      rw [residual] at h
      rw [List.cons_append, residual]
      exact ih h

/-- `p` is a node of the trie, and the stack has patterns of the types of what is below it. -/
structure NodeOk (fields : List FieldType) (T : Trie) (p : TriePath)
    (mstk : List MatchField) : Prop where
  used : ∃ l ∈ T.leaves, p <:+ l.node
  typed : List.Forall₂ MatchField.HasType mstk (residual fields p.reverse)

/-- A leaf below a node is reached by the word of values of the types left there. -/
theorem exists_values (hS : Shape nodeId fields T.child T.leaves) {l : TrieLeaf}
    (hl : l ∈ T.leaves) {p : TriePath} (hsuf : p <:+ l.node) :
    ∃ vs, List.Forall₂ HasType vs (residual fields p.reverse) ∧
      l.node = (word vs).reverse ++ p := by
  obtain ⟨s, hs⟩ := hsuf
  have hword : word l.tpl = p.reverse ++ s.reverse := by
    rw [← List.reverse_append, hs, (hS.node_eq l hl).2, List.reverse_reverse]
  obtain ⟨vs, hvs, hvs'⟩ := exists_residual (hS.node_eq l hl).1 hword
  exact ⟨vs, hvs, by rw [hvs', List.reverse_reverse, hs]⟩

/-- The root of a trie that is not empty. -/
theorem nodeOk_root (hne : T.leaves ≠ []) {mfs : List MatchField}
    (hm : List.Forall₂ MatchField.HasType mfs fields) : NodeOk fields T [] mfs where
  used := by
    obtain ⟨l, hl⟩ := List.exists_mem_of_ne_nil _ hne
    exact ⟨l, hl, List.nil_suffix⟩
  typed := by
    rw [List.reverse_nil, residual]
    exact hm

namespace NodeOk

variable {p : TriePath} {mstk stk : List MatchField} {f : MatchField} {d : TrieData}

/-- At a leaf the stack is empty. -/
theorem stack_eq_nil (hS : Shape nodeId fields T.child T.leaves) (h : NodeOk fields T p mstk)
    (hleaf : T.child p = .leaf) : mstk = [] := by
  obtain ⟨l, hl, rfl⟩ := (hS.leaf_iff p).1 hleaf
  obtain ⟨vs, hvs, hnode⟩ := exists_values hS hl (List.suffix_refl _)
  have hword : word vs = [] := by simpa using hnode
  have htyped := h.typed
  cases vs with
  | nil =>
    rw [List.forall₂_nil_left_iff.1 hvs] at htyped
    exact List.forall₂_nil_right_iff.1 htyped
  | cons v vs =>
    rw [word_cons] at hword
    exact absurd hword (List.cons_ne_nil _ _)

/-- A node that is not a leaf has children, and the stack is not empty. -/
theorem exists_child (hS : Shape nodeId fields T.child T.leaves) (h : NodeOk fields T p mstk)
    (hleaf : T.child p ≠ .leaf) :
    (∃ f stk, mstk = f :: stk) ∧ children (T.child p) ≠ [] := by
  obtain ⟨l, hl, hsuf⟩ := h.used
  obtain ⟨vs, hvs, hnode⟩ := exists_values hS hl hsuf
  have htyped := h.typed
  cases vs with
  | nil => exact absurd ((hS.leaf_iff p).2 ⟨l, hl, by simpa using hnode⟩) hleaf
  | cons v vs =>
    constructor
    · obtain ⟨t, tys, -, -, htys⟩ := List.forall₂_cons_left_iff.1 hvs
      rw [htys] at htyped
      obtain ⟨f, stk, -, -, hmstk⟩ := List.forall₂_cons_right_iff.1 htyped
      exact ⟨f, stk, hmstk⟩
    · refine List.ne_nil_of_mem (a := v.data) ((hS.mem_children p v.data).2 ⟨l, hl, ?_⟩)
      rw [hnode, word_cons, List.reverse_cons, List.append_assoc]
      exact List.suffix_append _ _

/-- A child whose symbol meets the top pattern. -/
theorem child (hS : Shape nodeId fields T.child T.leaves) (h : NodeOk fields T p (f :: stk))
    (hd : d ∈ children (T.child p)) (hmeets : meets f d = true) :
    NodeOk fields T (d :: p) (f.pushes d ++ stk) where
  used := (hS.mem_children p d).1 hd
  typed := by
    obtain ⟨l, hl, hsuf⟩ := (hS.mem_children p d).1 hd
    obtain ⟨vs, hvs, hnode⟩ := exists_values hS hl ((List.suffix_cons d p).trans hsuf)
    obtain ⟨t, tys, hf, hstk, htys⟩ := List.forall₂_cons_left_iff.1 h.typed
    rw [htys] at hvs
    obtain ⟨v, vs, hv, hvs, rfl⟩ := List.forall₂_cons_right_iff.1 hvs
    -- the first of the values is what the symbol was read from
    obtain rfl : v.data = d := by
      rw [word_cons, List.reverse_cons, List.append_assoc] at hnode
      have hsuf' : v.data :: p <:+ l.node := ⟨_, hnode.symm⟩
      rcases List.suffix_or_suffix_of_suffix hsuf hsuf' with h | h
      · exact (List.cons.inj (h.eq_of_length (by simp))).1.symm
      · exact (List.cons.inj (h.eq_of_length (by simp))).1
    rw [List.reverse_cons, residual_concat htys]
    exact List.rel_append (hf.pushes hv hmeets) hstk

/-- A node of the trie is less deep than the bound. -/
theorem length_lt (h : NodeOk fields T p mstk) : p.length < depthBound T := by
  obtain ⟨l, hl, hsuf⟩ := h.used
  have hmem : l.node.length ∈ T.leaves.map fun l => l.node.length :=
    List.mem_map.2 ⟨l, hl, rfl⟩
  have hle : l.node.length ≤ (T.leaves.map fun l => l.node.length).sum :=
    List.le_sum_of_mem hmem
  have := hsuf.length_le
  rw [depthBound]
  omega

end NodeOk

/-! ## The matches below a node -/

/-- The matches below a node, with enough fuel. -/
def below (T : Trie) (p : TriePath) (mstk : List MatchField) : List TriePath :=
  matchesBelow T (depthBound T - p.length) p mstk

variable {p : TriePath} {mstk stk : List MatchField} {f : MatchField}

theorem below_leaf (h : NodeOk fields T p []) (hleaf : T.child p = .leaf) : below T p [] = [p] := by
  obtain ⟨n, hn⟩ := Nat.exists_eq_succ_of_ne_zero (Nat.sub_ne_zero_of_lt h.length_lt)
  simp only [below, hn, matchesBelow, hleaf]

theorem below_node (h : NodeOk fields T p (f :: stk)) (hleaf : T.child p ≠ .leaf) :
    below T p (f :: stk) = ((children (T.child p)).filter (meets f)).flatMap fun d =>
      below T (d :: p) (f.pushes d ++ stk) := by
  obtain ⟨n, hn⟩ := Nat.exists_eq_succ_of_ne_zero (Nat.sub_ne_zero_of_lt h.length_lt)
  have hfuel (d : TrieData) : depthBound T - (d :: p).length = n := by
    rw [List.length_cons]
    omega
  simp only [below, hfuel, hn]
  cases hc : T.child p with
  | leaf => exact absurd hc hleaf
  | siblings nodes => simp only [matchesBelow, hc, children]
  | hash total buckets => simp only [matchesBelow, hc, children]

/-- The matches below a node are the leaves whose remaining word is accepted. -/
theorem mem_below (hS : Shape nodeId fields T.child T.leaves) (h : NodeOk fields T p mstk)
    (x : TriePath) :
    x ∈ below T p mstk ↔
      ∃ l ∈ T.leaves, l.node = x ∧ ∃ w, x = w.reverse ++ p ∧ accepts mstk w = true := by
  induction hn : depthBound T - p.length generalizing p mstk with
  | zero =>
    have := h.length_lt
    omega
  | succ n ih =>
    by_cases hleaf : T.child p = .leaf
    · obtain rfl := h.stack_eq_nil hS hleaf
      rw [below_leaf h hleaf, List.mem_singleton]
      constructor
      · rintro rfl
        obtain ⟨l, hl, hnode⟩ := (hS.leaf_iff x).1 hleaf
        exact ⟨l, hl, hnode, [], by simp [accepts]⟩
      · rintro ⟨l, hl, rfl, w, hw, hacc⟩
        cases w with
        | nil => simpa using hw
        | cons e w => simp [accepts] at hacc
    · obtain ⟨⟨f, stk, rfl⟩, -⟩ := h.exists_child hS hleaf
      rw [below_node h hleaf, List.mem_flatMap]
      constructor
      · rintro ⟨d, hd, hx⟩
        obtain ⟨hd, hmeets⟩ := List.mem_filter.1 hd
        obtain ⟨l, hl, hnode, w, hw, hacc⟩ := (ih (h.child hS hd hmeets)
          (by rw [List.length_cons]; omega)).1 hx
        refine ⟨l, hl, hnode, d :: w, by rw [hw]; simp, ?_⟩
        rw [accepts, hmeets, hacc]
        rfl
      · rintro ⟨l, hl, rfl, w, hw, hacc⟩
        cases w with
        | nil => exact absurd ((hS.leaf_iff p).2 ⟨l, hl, by simpa using hw⟩) hleaf
        | cons d w =>
          rw [accepts, Bool.and_eq_true] at hacc
          have hw' : l.node = w.reverse ++ d :: p := by rw [hw]; simp
          have hd : d ∈ children (T.child p) :=
            (hS.mem_children p d).2 ⟨l, hl, ⟨_, hw'.symm⟩⟩
          refine ⟨d, List.mem_filter.2 ⟨hd, hacc.1⟩, ?_⟩
          exact (ih (h.child hS hd hacc.1) (by rw [List.length_cons]; omega)).2
            ⟨l, hl, rfl, w, hw', hacc.2⟩

/-- No leaf is listed twice. -/
theorem nodup_below (hS : Shape nodeId fields T.child T.leaves) (h : NodeOk fields T p mstk) :
    (below T p mstk).Nodup := by
  induction hn : depthBound T - p.length generalizing p mstk with
  | zero =>
    have := h.length_lt
    omega
  | succ n ih =>
    by_cases hleaf : T.child p = .leaf
    · obtain rfl := h.stack_eq_nil hS hleaf
      rw [below_leaf h hleaf]
      exact List.nodup_singleton _
    · obtain ⟨⟨f, stk, rfl⟩, -⟩ := h.exists_child hS hleaf
      rw [below_node h hleaf, List.nodup_flatMap]
      have hok : ∀ d ∈ (children (T.child p)).filter (meets f),
          NodeOk fields T (d :: p) (f.pushes d ++ stk) := by
        intro d hd
        obtain ⟨hd, hmeets⟩ := List.mem_filter.1 hd
        exact h.child hS hd hmeets
      refine ⟨fun d hd => ih (hok d hd) (by rw [List.length_cons]; omega), ?_⟩
      -- leaves below different children have different addresses
      refine ((hS.childOk p).nodup.filter _).pairwise_of_forall_ne ?_
      intro d hd e he hne x hxd hxe
      obtain ⟨-, -, -, w, hw, -⟩ := (mem_below hS (hok d hd) x).1 hxd
      obtain ⟨-, -, -, w', hw', -⟩ := (mem_below hS (hok e he) x).1 hxe
      have hsuf : d :: p <:+ x := ⟨_, hw.symm⟩
      have hsuf' : e :: p <:+ x := ⟨_, hw'.symm⟩
      rcases List.suffix_or_suffix_of_suffix hsuf hsuf' with h | h
      · exact hne (List.cons.inj (h.eq_of_length (by simp))).1
      · exact hne (List.cons.inj (h.eq_of_length (by simp))).1.symm

end Trie

end Meld
