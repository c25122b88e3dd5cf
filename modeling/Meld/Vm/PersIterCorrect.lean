import Meld.Vm.PersIter
import Meld.Db.TrieSearchCorrect
import Mathlib.Data.List.Flatten

/-!
# When an iterate over persistent facts is correct

An iterate over a compact array is correct as long as its buffer is not released under it, and an
iterate over a trie as long as no insertion restructures the children of a node at which the walk
has a frame left: new children do not change the order of those that are there, and new leaves go
behind the others in the chain.

* `compactLoop_spec`: the loop over an array from any slot on.
* `insertTuple_sublist`, `insertTuple_nodes`: what an insertion leaves as it is.
* `frame_insertTuple`: what a frame has to give, among the old leaves, before and after an
  insertion.
* `trieLoop_search`, `trieLoop_list`: the loop over a trie from any position on.
* `iterate_correct`: both kinds of storage, from the start.
-/

namespace Meld
namespace PersIter

variable {fields : List FieldType}

/-! ## Compact arrays -/

section Compact

variable {m : MatchObject} {buffer num : ℕ} {a₀ a : CompactArray}

/-- The buffer of the iterate is in memory as it was at the start, when the slots below `num` were
filled. -/
structure Kept (buffer num : ℕ) (a₀ a : CompactArray) : Prop where
  fits : a.Fits
  le_buffer : buffer ≤ a.buffer
  notMem : buffer ∉ a.released
  mem_eq : ∀ i < num, a.mem buffer i = a₀.mem buffer i
  num_le : a.buffer = buffer → num ≤ a.numTuples ∨ a.numTuples = 0 ∧ a.cap = 0

/-- A derivation that does not release the buffer leaves it as it is. -/
theorem Kept.expand (h : Kept buffer num a₀ a) (hquiet : ¬ Releases buffer a) (tpl : Tuple) :
    Kept buffer num a₀ (a.expand tpl) := by
  refine ⟨h.fits.expand, ?_, ?_, ?_, ?_⟩ <;> rw [CompactArray.expand]
  · have := h.le_buffer
    split
    · split
      · exact Nat.le_succ_of_le this
      · exact Nat.le_succ_of_le this
    · exact this
  · split
    · split
      · exact h.notMem
      · rename_i hfull hnum
        refine List.not_mem_cons_of_ne_of_not_mem ?_ h.notMem
        exact fun hbuf => hquiet ⟨hbuf.symm, hfull, hnum⟩
    · exact h.notMem
  · intro i hi
    have hne : buffer ≠ a.buffer + 1 := by
      have := h.le_buffer
      omega
    split
    · split
      · rw [← h.mem_eq i hi]
        exact congrFun (Function.update_of_ne hne _ _) i
      · rw [← h.mem_eq i hi]
        refine (congrFun (Function.update_of_ne hne _ _) i).trans ?_
        exact congrFun (Function.update_of_ne hne _ _) i
    · rename_i hfull
      rw [← h.mem_eq i hi]
      by_cases hbuf : a.buffer = buffer
      · -- the tuple goes behind the slots of the iterate
        have hlt : i ≠ a.numTuples := by
          rcases h.num_le hbuf with hle | ⟨hzero, hcap⟩
          · omega
          · exact absurd (hzero.trans hcap.symm) hfull
        subst hbuf
        simp only [CompactArray.addNext, Function.update_self, Function.update_of_ne hlt]
      · exact congrFun (Function.update_of_ne (Ne.symm hbuf) _ _) i
  · have hle := h.le_buffer
    split
    · split
      · intro hbuf
        change a.buffer + 1 = buffer at hbuf
        omega
      · intro hbuf
        change a.buffer + 1 = buffer at hbuf
        omega
    · rename_i hfull
      intro hbuf
      have hnum := h.num_le hbuf
      have hfits := h.fits.num_le
      have hlt := h.fits.num_lt
      have hcap := h.fits.cap_lt
      change num ≤ (a.numTuples + 1) % 2 ^ 16 ∨ (a.numTuples + 1) % 2 ^ 16 = 0 ∧ a.cap = 0
      omega

/-- Actions that do not read the tuple can be done whatever is released. -/
theorem compactActions_unread (acts : List (BodyAction fields))
    (hread : ∀ act ∈ acts, act ≠ .readTuple) (a : CompactArray) :
    compactActions buffer acts a = some (compactDerive acts a) := by
  induction acts generalizing a with
  | nil => rfl
  | cons act acts ih =>
    cases act with
    | derive tpl => exact ih (fun act hact => hread act (List.mem_cons_of_mem _ hact)) _
    | readTuple => exact absurd rfl (hread _ List.mem_cons_self)

/-- The actions of a body that do not release the buffer. -/
theorem compactActions_quiet {last : Prop} (acts : List (BodyAction fields))
    (h : Kept buffer num a₀ a) (hquiet : CompactQuiet buffer last acts a) :
    compactActions buffer acts a = some (compactDerive acts a) ∧
      (¬ last → Kept buffer num a₀ (compactDerive acts a)) := by
  induction acts generalizing a with
  | nil => exact ⟨rfl, fun _ => h⟩
  | cons act acts ih =>
    cases act with
    | derive tpl =>
      obtain ⟨hrel, hrest⟩ := hquiet
      by_cases hr : Releases buffer a
      · -- the buffer is released, and nothing is read any more
        obtain ⟨hlast, hread⟩ := hrel hr
        exact ⟨compactActions_unread acts hread _, fun h => absurd hlast h⟩
      · exact ih (h.expand hr tpl.1) hrest
    | readTuple =>
      obtain ⟨hsome, hkept⟩ := ih h hquiet
      refine ⟨?_, hkept⟩
      rw [compactActions, if_neg h.notMem]
      exact hsome

/-- **The loop over a compact array** from slot `i` on runs the body for the matching tuples in the
slots that are left. -/
theorem compactLoop_spec (n i : ℕ) (bodies : List (Body fields)) (h : Kept buffer num a₀ a)
    (hn : i + n ≤ num) (hund : CompactUndisturbed m buffer n i a bodies) :
    ∃ r, compactLoop m buffer n i a bodies = some r ∧
      r.1 <+: ((List.range' i n).map fun j => (j, a₀.mem buffer j)).filter
        (fun s => doMatches m s.2) ∧
      (r.2 = false → r.1 = ((List.range' i n).map fun j => (j, a₀.mem buffer j)).filter
        fun s => doMatches m s.2) := by
  induction n generalizing i a bodies with
  | zero => exact ⟨([], false), rfl, List.nil_prefix, fun _ => rfl⟩
  | succ n ih =>
    have hmem := h.mem_eq i (by omega)
    rw [CompactUndisturbed, hmem] at hund
    rw [compactLoop, if_neg h.notMem, hmem, List.range'_succ, List.map_cons, List.filter_cons]
    by_cases hmatch : doMatches m (a₀.mem buffer i) = true
    · rw [if_pos hmatch] at hund ⊢
      rw [if_pos hmatch]
      obtain ⟨hquiet, hrest⟩ := hund
      obtain ⟨hsome, hkept⟩ := compactActions_quiet _ h hquiet
      rw [hsome, Option.bind_some]
      cases hfin : (nextBody bodies).finishes with
      | true =>
        refine ⟨([(i, a₀.mem buffer i)], true), rfl, ?_, fun h => absurd h (by simp)⟩
        exact List.cons_prefix_cons.2 ⟨rfl, List.nil_prefix⟩
      | false =>
        have hrest := hrest hfin
        cases n with
        | zero => exact ⟨([(i, a₀.mem buffer i)], false), rfl, List.prefix_refl _, fun _ => rfl⟩
        | succ n =>
          obtain ⟨r, hr, hpre, heq⟩ := ih (i + 1) _ (hkept (by simp [hfin])) (by omega) hrest
          refine ⟨((i, a₀.mem buffer i) :: r.1, r.2), ?_, ?_, ?_⟩
          · rw [hr]
            rfl
          · exact List.cons_prefix_cons.2 ⟨rfl, hpre⟩
          · intro hfalse
            rw [heq hfalse]
    · rw [if_neg hmatch] at hund ⊢
      rw [if_neg hmatch]
      exact ih (i + 1) bodies h (by omega) hund

/-- An iterate over an array whose buffer is not released under it is correct. -/
theorem compactIterate_correct (hne : fields ≠ []) (hfits : a.Fits) (bodies : List (Body fields))
    (hund : CompactUndisturbed m a.buffer a.numTuples 0 a bodies) :
    CompactIterateCorrect m a bodies := by
  have hkept : Kept a.buffer a.numTuples a a :=
    ⟨hfits, le_refl _, fun h => lt_irrefl _ (hfits.released_lt _ h), fun _ _ => rfl,
      fun _ => Or.inl le_rfl⟩
  have hsteps : compactSteps fields a = a.numTuples := by
    rw [compactSteps, if_neg (by simpa using hne)]
  obtain ⟨r, hr, hpre, heq⟩ := compactLoop_spec a.numTuples 0 bodies hkept (by omega) hund
  rw [CompactIterateCorrect, compactIterate, hsteps, CompactArray.stored, List.range_eq_range']
  exact ⟨r, hr, hpre, heq⟩

end Compact

/-! ## Insertions into the trie -/

section Insert

open Trie

variable {nodeId : BitVec 64 → ℕ} {T : Trie} {M : Multiset Tuple} {tpl : Tuple}

/-- An insertion keeps the invariant of the trie. -/
theorem inv_insertTuple (hne : fields ≠ []) (h : Inv nodeId fields T M)
    (ht : TupleHasType tpl fields) :
    Inv nodeId fields (insertTuple nodeId T tpl).1 (tpl ::ₘ M) := by
  by_cases hmem : tpl ∈ M
  · exact (insertTuple_of_mem h hmem).1
  · exact (insertTuple_of_notMem hne h ht hmem).1

/-- New leaves go behind the others in the chain. -/
theorem insertTuple_nodes (T : Trie) (tpl : Tuple) :
    ∃ new, (insertTuple nodeId T tpl).1.leaves.map TrieLeaf.node =
      T.leaves.map TrieLeaf.node ++ new := by
  simp only [insertTuple, checkInsert]
  split
  · refine ⟨[], ?_⟩
    rw [List.append_nil, updateCount, List.map_map]
    exact List.map_congr_left fun l _ => (updateCount_node_tpl _ _ l).1
  · exact ⟨_, List.map_append⟩

/-- A level that is not overfull stays as it is. -/
theorem restructure_eq_self {c : TrieChild} {count : ℕ} (h : ¬ overfull count c = true) :
    restructure nodeId count c = c := by
  cases c with
  | leaf => rfl
  | siblings nodes => exact if_neg fun hover => h (decide_eq_true hover)
  | hash total buckets => exact if_neg fun hover => h (decide_eq_true hover)

/-- An insertion does not change the order of the children of a node, unless it restructures
them. -/
theorem insertTuple_sublist (hne : fields ≠ []) (h : Inv nodeId fields T M)
    (ht : TupleHasType tpl fields) {p : TriePath} (hp : restructured nodeId T tpl ≠ some p) :
    (children (T.child p)).Sublist (children ((insertTuple nodeId T tpl).1.child p)) := by
  by_cases hmem : tpl ∈ M
  · obtain ⟨l, -, -, hdescend⟩ := h.descend_present hmem
    simp only [insertTuple, checkInsert, hdescend]
    exact List.Sublist.refl _
  · have habs : ∀ l ∈ T.leaves, l.tpl ≠ tpl := fun l hl htpl =>
      hmem ((h.represents.mem_iff _).2 ⟨l, hl, htpl⟩)
    obtain ⟨q, v, rest, hdescend, hword, hd, hleaf, hin⟩ :=
      h.shape.descend_of_not_mem ht habs tpl [] rfl (Or.inl rfl) (word_ne_nil ht hne) _ rfl
    have hS := h.shape_restructure q v.data
    set c := restructure nodeId ((Trie.candidates nodeId (T.child q) v.data).length + 1) (T.child q)
      with hc
    have hq : Function.update T.child q c q = c := Function.update_self ..
    have hd' : v.data ∉ children (Function.update T.child q c q) := by
      rw [hq, (perm_restructure (h.shape.childOk q) _).mem_iff]
      exact hd
    obtain ⟨hlast, -⟩ := hS.insertNew ht habs hword hd'
      (by
        rw [hq, Ne, restructure_eq_leaf]
        exact hleaf) hin
    simp only [insertTuple, checkInsert, hdescend, ← hc]
    rw [hlast]
    by_cases hend : p = (word tpl).reverse
    · -- the new leaf was not in use
      have hnone : T.child ((word (v :: rest)).reverse ++ q) = .siblings [] := by
        rw [word_cons]
        exact h.shape.fresh hd _ (List.cons_ne_nil _ _) (List.prefix_refl _)
      rw [← List.reverse_reverse q, ← List.reverse_append, ← hword, ← hend] at hnone
      rw [hnone]
      exact List.nil_sublist _
    · rw [Function.update_of_ne hend]
      have hsame : Function.update T.child q c p = T.child p := by
        by_cases hpq : p = q
        · subst hpq
          rw [hq, hc]
          refine restructure_eq_self fun hover => hp ?_
          rw [restructured, hdescend]
          exact if_pos hover
        · exact Function.update_of_ne hpq ..
      rw [← hsame]
      refine insertRest_sublist (v :: rest) q _ _ rfl ?_ p
      rw [word_cons]
      exact hS.fresh hd'

/-- Which of the old items come after `d` does not change when items are put between them. -/
theorem mem_dropWhile_of_sublist {α : Type*} [DecidableEq α] {l l' : List α} (hsub : l.Sublist l')
    (hnodup : l'.Nodup) {d e : α} (hd : d ∈ l) (he : e ∈ l) :
    e ∈ l'.dropWhile (fun a => decide (a ≠ d)) ↔ e ∈ l.dropWhile fun a => decide (a ≠ d) := by
  induction hsub with
  | slnil => simp at hd
  | @cons l l' a hsub ih =>
    obtain ⟨ha, hnodup⟩ := List.nodup_cons.1 hnodup
    have hne : a ≠ d := fun h => ha (h ▸ hsub.subset hd)
    rw [List.dropWhile_cons_of_pos (by simpa using hne)]
    exact ih hnodup hd he
  | @cons_cons l l' a hsub ih =>
    obtain ⟨ha, hnodup⟩ := List.nodup_cons.1 hnodup
    by_cases hne : a = d
    · subst hne
      rw [List.dropWhile_cons_of_neg (by simp), List.dropWhile_cons_of_neg (by simp)]
      exact iff_of_true ((hsub.cons_cons a).subset he) he
    · rw [List.dropWhile_cons_of_pos (by simpa using hne),
        List.dropWhile_cons_of_pos (by simpa using hne)]
      have hd : d ∈ l := (List.mem_cons.1 hd).resolve_left (Ne.symm hne)
      rcases List.mem_cons.1 he with rfl | he
      · refine iff_of_false (fun h => ha ?_) (fun h => ha (hsub.subset ?_))
        · exact (List.dropWhile_sublist _).subset h
        · exact (List.dropWhile_sublist _).subset h
      · exact ih hnodup hd he

/-- What a frame has left: the accepted leaves below the children from its node on. -/
theorem mem_frameRest (hS : Shape nodeId fields T.child T.leaves) {p : TriePath} {d : TrieData}
    {f : MatchField} {stk : List MatchField} (hk : f.key = none)
    (hok : Trie.NodeOk fields T p (f :: stk)) (x : TriePath) :
    x ∈ frameRest T ⟨p, .at d, f :: stk⟩ ↔ (∃ l ∈ T.leaves, l.node = x) ∧
      ∃ e ∈ (children (T.child p)).dropWhile (fun e => decide (e ≠ d)),
        ∃ w, x = w.reverse ++ e :: p ∧ accepts (f.pushes e ++ stk) w = true := by
  have hchild : ∀ e ∈ (children (T.child p)).dropWhile (fun e => decide (e ≠ d)),
      Trie.NodeOk fields T (e :: p) (f.pushes e ++ stk) := fun e he =>
    hok.child hS ((List.dropWhile_sublist _).subset he) (by simp [meets, hk])
  rw [frameRest, List.mem_flatMap]
  constructor
  · rintro ⟨e, he, hx⟩
    obtain ⟨l, hl, hnode, hw⟩ := (mem_below hS (hchild e he) x).1 hx
    exact ⟨⟨l, hl, hnode⟩, e, he, hw⟩
  · rintro ⟨⟨l, hl, hnode⟩, e, he, hw⟩
    exact ⟨e, he, (mem_below hS (hchild e he) x).2 ⟨l, hl, hnode, hw⟩⟩

/-- A frame has no leaf left twice. -/
theorem nodup_frameRest (hS : Shape nodeId fields T.child T.leaves) {p : TriePath} {d : TrieData}
    {f : MatchField} {stk : List MatchField} (hk : f.key = none)
    (hleaf : T.child p ≠ .leaf) (hok : Trie.NodeOk fields T p (f :: stk)) :
    (frameRest T ⟨p, .at d, f :: stk⟩).Nodup := by
  have hall := nodup_below hS hok
  rw [below_node hok hleaf, filter_meets_free hk] at hall
  exact hall.sublist ((List.dropWhile_sublist _).flatMap _)

/-- **An insertion that does not restructure the level of a frame** leaves it well formed, and
leaves what it has to give of the old leaves. -/
theorem frame_insertTuple (hne : fields ≠ []) (h : Inv nodeId fields T M)
    (ht : TupleHasType tpl fields) {frm : Frame} (hfrm : FrameOk fields T frm)
    (hquiet : restructured nodeId T tpl ≠ some frm.parent) :
    FrameOk fields (insertTuple nodeId T tpl).1 frm ∧
      ∀ x ∈ T.leaves.map TrieLeaf.node,
        (frameRest (insertTuple nodeId T tpl).1 frm).count x = (frameRest T frm).count x := by
  obtain ⟨f, stk, d, pre, post, hnode, hstk, hk, hsplit, hok⟩ := hfrm
  obtain ⟨p, node, mstk⟩ := frm
  simp only at hnode hstk hsplit hok hquiet
  subst hnode hstk
  have h' := inv_insertTuple hne h ht
  have hsub := insertTuple_sublist hne h ht hquiet
  obtain ⟨new, hnodes⟩ :
      ∃ new, (insertTuple nodeId T tpl).1.leaves.map TrieLeaf.node = _ ++ new :=
    insertTuple_nodes T tpl
  have hold : ∀ x, (∃ l ∈ T.leaves, l.node = x) →
      ∃ l ∈ (insertTuple nodeId T tpl).1.leaves, l.node = x := by
    intro x hx
    rw [← List.mem_map] at hx ⊢
    rw [hnodes]
    exact List.mem_append_left _ hx
  have hd : d ∈ children (T.child p) := by
    rw [hsplit]
    simp
  have hok' : Trie.NodeOk fields (insertTuple nodeId T tpl).1 p (f :: stk) := by
    obtain ⟨l, hl, hsuf⟩ := hok.used
    obtain ⟨l', hl', hnode⟩ := hold l.node ⟨l, hl, rfl⟩
    exact ⟨⟨l', hl', hnode ▸ hsuf⟩, hok.typed⟩
  obtain ⟨pre', post', hsplit'⟩ := List.append_of_mem (hsub.subset hd)
  refine ⟨⟨f, stk, d, pre', post', rfl, rfl, hk, hsplit', hok'⟩, fun x hx => ?_⟩
  rw [List.mem_map] at hx
  rw [(nodup_frameRest h'.shape hk (Shape.ne_leaf_of_mem (hsub.subset hd)) hok').count,
    (nodup_frameRest h.shape hk (Shape.ne_leaf_of_mem hd) hok).count]
  refine if_congr ?_ rfl rfl
  rw [mem_frameRest h'.shape hk hok', mem_frameRest h.shape hk hok]
  refine and_congr (iff_of_true (hold x hx) hx) (exists_congr fun e => ?_)
  refine and_congr_left ?_
  rintro ⟨w, hw, -⟩
  -- the leaf was there, so the child it is below was
  have he : e ∈ children (T.child p) := by
    obtain ⟨l, hl, hlx⟩ := hx
    exact (h.shape.mem_children p e).2 ⟨l, hl, ⟨w.reverse, (hlx.trans hw).symm⟩⟩
  exact mem_dropWhile_of_sublist hsub (h'.shape.childOk p).nodup hd he

/-- The insertions of a body, when they do not restructure a level under the frames. -/
theorem frames_trieDerive (hne : fields ≠ []) (frames : List Frame)
    (acts : List (BodyAction fields)) (h : Inv nodeId fields T M)
    (hframes : ∀ frm ∈ frames, FrameOk fields T frm) (hquiet : TrieQuiet nodeId frames acts T) :
    (∃ M', Inv nodeId fields (trieDerive nodeId acts T) M') ∧
      (∃ new, (trieDerive nodeId acts T).leaves.map TrieLeaf.node =
        T.leaves.map TrieLeaf.node ++ new) ∧
      (∀ frm ∈ frames, FrameOk fields (trieDerive nodeId acts T) frm) ∧
      ∀ x ∈ T.leaves.map TrieLeaf.node,
        (frames.flatMap (frameRest (trieDerive nodeId acts T))).count x =
          (frames.flatMap (frameRest T)).count x := by
  induction acts generalizing T M with
  | nil => exact ⟨⟨M, h⟩, ⟨[], (List.append_nil _).symm⟩, hframes, fun _ _ => rfl⟩
  | cons act acts ih =>
    cases act with
    | readTuple => exact ih h hframes hquiet
    | derive tpl =>
      obtain ⟨hlevel, hrest⟩ := hquiet
      have hstep := fun frm hfrm =>
        frame_insertTuple hne h tpl.2 (hframes frm hfrm) (hlevel frm hfrm)
      obtain ⟨hinv, ⟨new, hnew⟩, hok, hcount⟩ := ih (inv_insertTuple hne h tpl.2)
        (fun frm hfrm => (hstep frm hfrm).1) hrest
      obtain ⟨one, hone⟩ : ∃ one, (insertTuple nodeId T tpl.1).1.leaves.map TrieLeaf.node =
        _ ++ one := insertTuple_nodes T tpl.1
      refine ⟨hinv, ⟨one ++ new, ?_⟩, hok, fun x hx => ?_⟩
      · rw [← List.append_assoc, ← hone]
        exact hnew
      · refine (hcount x ?_).trans ?_
        · rw [hone]
          exact List.mem_append_left _ hx
        · rw [List.count_flatMap, List.count_flatMap]
          refine congrArg List.sum (List.map_congr_left fun frm hfrm => ?_)
          exact (hstep frm hfrm).2 x hx

/-- An iterator without frames is not disturbed by anything. -/
theorem trieQuiet_nil (acts : List (BodyAction fields)) (T : Trie) :
    TrieQuiet nodeId [] acts T := by
  induction acts generalizing T with
  | nil => trivial
  | cons act acts ih =>
    cases act with
    | derive tpl => exact ⟨by simp, ih _⟩
    | readTuple => exact ih T

end Insert

/-! ## The loop over a trie -/

section Loop

open Trie

variable {nodeId : BitVec 64 → ℕ} {T : Trie} {M : Multiset Tuple}

/-- What the iterator still gives: `L`, and if a body ends the iterate a part of it.  Only the
leaves of the trie as it is now are counted. -/
def Gives (nodeId : BitVec 64 → ℕ) (T : Trie) (it : Iterator) (bodies : List (Body fields))
    (L : List TriePath) : Prop :=
  ∃ ps finished, TrieLoop nodeId T it bodies ps finished ∧
    ∀ x ∈ T.leaves.map TrieLeaf.node,
      ps.count x ≤ L.count x ∧ (finished = false → ps.count x = L.count x)

theorem gives_atEnd {it : Iterator} (hnext : it.next = none) (bodies : List (Body fields)) :
    Gives nodeId T it bodies [] :=
  ⟨[], false, .atEnd hnext, fun _ _ => ⟨le_rfl, fun _ => rfl⟩⟩

theorem gives_finish {it : Iterator} {bodies : List (Body fields)} {p : TriePath}
    (hnext : it.next = some p) (hfin : (nextBody bodies).finishes = true) (L : List TriePath) :
    Gives nodeId T it bodies (p :: L) := by
  refine ⟨[p], true, .finish hnext hfin, fun x _ => ⟨?_, fun h => absurd h (by simp)⟩⟩
  exact (List.Sublist.cons_cons p (List.nil_sublist L)).count_le x

/-- One turn of the loop. -/
theorem gives_more {it it' : Iterator} {bodies : List (Body fields)} {p : TriePath}
    {L L' : List TriePath} {new : List TriePath} (hnext : it.next = some p)
    (hfin : (nextBody bodies).finishes = false)
    (hinc : Increment nodeId (trieDerive nodeId (nextBody bodies).actions T) it it')
    (hrest : Gives nodeId (trieDerive nodeId (nextBody bodies).actions T) it' bodies.tail L')
    (hnew : (trieDerive nodeId (nextBody bodies).actions T).leaves.map TrieLeaf.node =
      T.leaves.map TrieLeaf.node ++ new)
    (hcount : ∀ x ∈ T.leaves.map TrieLeaf.node, L'.count x = L.count x) :
    Gives nodeId T it bodies (p :: L) := by
  obtain ⟨ps, finished, hloop, hps⟩ := hrest
  refine ⟨p :: ps, finished, .more hnext hfin hinc hloop, fun x hx => ?_⟩
  have hx' : x ∈ (trieDerive nodeId (nextBody bodies).actions T).leaves.map TrieLeaf.node := by
    rw [hnew]
    exact List.mem_append_left _ hx
  obtain ⟨hle, heq⟩ := hps x hx'
  rw [hcount x hx] at hle heq
  rw [List.count_cons, List.count_cons]
  exact ⟨Nat.add_le_add_right hle _, fun h => by rw [heq h]⟩

/-- An increment of the search goes on with what the frames have left. -/
theorem increment_search (h : Inv nodeId fields T M) (x : TriePath) (cont : List Frame)
    (hframes : ∀ frm ∈ cont, FrameOk fields T frm) :
    ∃ it, Increment nodeId T (.search (some x) cont) it ∧
      match cont.flatMap (frameRest T) with
      | [] => it.next = none
      | y :: ys => ∃ cont', it = .search (some y) cont' ∧
          (∀ frm ∈ cont', FrameOk fields T frm) ∧ cont'.flatMap (frameRest T) = ys := by
  cases cont with
  | nil => exact ⟨_, .last x, rfl⟩
  | cons frm cont =>
    have hreach := reach_tryAgain h.shape h.count_pos _ hframes
    cases hL : (frm :: cont).flatMap (frameRest T) with
    | nil =>
      rw [hL] at hreach
      exact ⟨_, .search (hreach.tail (by simp)), rfl⟩
    | cons y ys =>
      rw [hL] at hreach
      obtain ⟨cont', hsteps, hok, hrem⟩ := hreach
      exact ⟨_, .search (hsteps.tail (by simp)), cont', rfl, hok, hrem⟩

/-- **The loop with a continuation stack** runs the body for the leaf the iterator stands at and
then for what the frames have left. -/
theorem trieLoop_search (hne : fields ≠ []) (bodies : List (Body fields))
    (h : Inv nodeId fields T M) (x : TriePath) (cont : List Frame)
    (hframes : ∀ frm ∈ cont, FrameOk fields T frm)
    (hund : TrieUndisturbed nodeId bodies T (.search (some x) cont)) :
    Gives nodeId T (.search (some x) cont) bodies (x :: cont.flatMap (frameRest T)) := by
  induction bodies generalizing T M x cont with
  | nil =>
    -- nothing is derived any more; the induction is on what is left
    clear hund
    induction hL : cont.flatMap (frameRest T) generalizing x cont with
    | nil =>
      obtain ⟨it, hinc, hit⟩ := increment_search h x cont hframes
      rw [hL] at hit
      exact gives_more rfl rfl hinc (gives_atEnd hit _) (List.append_nil _).symm fun _ _ => rfl
    | cons y ys ih =>
      obtain ⟨it, hinc, hit⟩ := increment_search h x cont hframes
      rw [hL] at hit
      obtain ⟨cont', rfl, hok, hrem⟩ := hit
      exact gives_more rfl rfl hinc (ih y cont' hok hrem) (List.append_nil _).symm fun _ _ => rfl
  | cons b bodies ih =>
    cases hfin : b.finishes with
    | true =>
      have hfin' : (nextBody (b :: bodies)).finishes = true := hfin
      exact gives_finish rfl hfin' _
    | false =>
      obtain ⟨hquiet, hund⟩ := hund (by simp [Iterator.next]) hfin
      obtain ⟨⟨M', hinv⟩, ⟨new, hnew⟩, hok, hcount⟩ :=
        frames_trieDerive hne cont b.actions h hframes hquiet
      obtain ⟨it, hinc, hit⟩ := increment_search hinv x cont hok
      have hfin' : (nextBody (b :: bodies)).finishes = false := hfin
      refine gives_more rfl hfin' hinc ?_ hnew hcount
      have hund := hund it hinc
      cases hL : cont.flatMap (frameRest (trieDerive nodeId b.actions T)) with
      | nil =>
        rw [hL] at hit
        exact gives_atEnd hit _
      | cons y ys =>
        rw [hL] at hit
        obtain ⟨cont', rfl, hok', rfl⟩ := hit
        exact ih hinv y cont' hok' hund

/-- The addresses of the leaves are different. -/
theorem nodup_nodes (h : Inv nodeId fields T M) : (T.leaves.map TrieLeaf.node).Nodup := by
  refine List.Nodup.map_on ?_ (List.Nodup.of_map _ h.shape.nodup)
  intro l hl l' hl' hnode
  exact h.shape.eq_of_node_eq hl hl' hnode

theorem nextLeaf_eq (h : Inv nodeId fields T M) {x : TriePath} {pre post : List TriePath}
    (hsplit : T.leaves.map TrieLeaf.node = pre ++ x :: post) : nextLeaf T x = post.head? := by
  have hnodup := nodup_nodes h
  rw [hsplit] at hnodup
  have hpre : ∀ q ∈ pre, decide (q ≠ x) = true := fun q hq => by
    simpa using (List.nodup_append.1 hnodup).2.2 q hq x List.mem_cons_self
  rw [nextLeaf, hsplit, List.dropWhile_append_of_pos hpre, List.dropWhile_cons_of_neg (by simp),
    List.tail_cons]

/-- **The loop on the chain of leaves** runs the body for the leaf the iterator stands at and for
those behind it. -/
theorem trieLoop_list (hne : fields ≠ []) (bodies : List (Body fields))
    (h : Inv nodeId fields T M) (x : TriePath) (pre post : List TriePath)
    (hsplit : T.leaves.map TrieLeaf.node = pre ++ x :: post) :
    Gives nodeId T (.list (some x)) bodies (x :: post) := by
  induction bodies generalizing T M x pre post with
  | nil =>
    induction post generalizing x pre with
    | nil =>
      have hinc : Increment nodeId T (.list (some x)) _ := .list x
      rw [nextLeaf_eq h hsplit] at hinc
      exact gives_more rfl rfl hinc (gives_atEnd rfl _) (List.append_nil _).symm fun _ _ => rfl
    | cons y post ih =>
      have hinc : Increment nodeId T (.list (some x)) _ := .list x
      rw [nextLeaf_eq h hsplit] at hinc
      have hrest := ih y (pre ++ [x]) (by rw [hsplit]; simp)
      exact gives_more rfl rfl hinc hrest (List.append_nil _).symm fun _ _ => rfl
  | cons b bodies ih =>
    cases hfin : b.finishes with
    | true =>
      have hfin' : (nextBody (b :: bodies)).finishes = true := hfin
      exact gives_finish rfl hfin' _
    | false =>
      have hfin' : (nextBody (b :: bodies)).finishes = false := hfin
      obtain ⟨⟨M', hinv⟩, ⟨new, hnew⟩, -, -⟩ :=
        frames_trieDerive hne [] b.actions h (by simp) (trieQuiet_nil _ _)
      have hsplit' : (trieDerive nodeId b.actions T).leaves.map TrieLeaf.node =
          pre ++ x :: (post ++ new) := by
        rw [hnew, hsplit]
        simp
      have hinc : Increment nodeId (trieDerive nodeId b.actions T) (.list (some x)) _ := .list x
      rw [nextLeaf_eq hinv hsplit'] at hinc
      -- the leaves that were there are not among the new ones
      have hcount : ∀ y ∈ T.leaves.map TrieLeaf.node, (post ++ new).count y = post.count y := by
        intro y hy
        have hnodup := nodup_nodes hinv
        rw [hnew] at hnodup
        have hnot : y ∉ new := fun hy' => (List.nodup_append.1 hnodup).2.2 y hy y hy' rfl
        rw [List.count_append, List.count_eq_zero_of_not_mem hnot, Nat.add_zero]
      refine gives_more rfl hfin' hinc ?_ hnew hcount
      cases hL : post ++ new with
      | nil => exact gives_atEnd rfl _
      | cons y ys =>
        rw [hL] at hsplit'
        exact ih hinv y (pre ++ [x]) ys (by rw [hsplit']; simp)

/-- A list with every matching leaf once and no other is what the iterate has to give. -/
theorem trieIterateCorrect_of_gives {m : MatchObject} {it : Iterator}
    {bodies : List (Body fields)} {L : List TriePath} (hmatch : MatchPredicate nodeId T m it)
    (hgives : Gives nodeId T it bodies L) (hnodup : L.Nodup)
    (hmem : ∀ l ∈ T.leaves, l.node ∈ L ↔ 0 < l.count ∧ doMatches m l.tpl = true) :
    TrieIterateCorrect nodeId T m bodies := by
  obtain ⟨ps, finished, hloop, hps⟩ := hgives
  refine ⟨it, ps, finished, hmatch, hloop, fun l hl => ?_⟩
  obtain ⟨hle, heq⟩ := hps l.node (List.mem_map_of_mem hl)
  refine ⟨hle.trans (List.nodup_iff_count_le_one.1 hnodup _), fun hin => ?_, fun hfin hpos hm => ?_⟩
  · refine (hmem l hl).1 (List.count_pos_iff.1 ?_)
    exact (List.count_pos_iff.2 hin).trans_le hle
  · rw [← List.count_pos_iff, heq hfin, List.count_pos_iff]
    exact (hmem l hl).2 ⟨hpos, hm⟩

/-- An iterate over a trie whose first walk is safe and that is not disturbed is correct. -/
theorem trieIterate_correct (hne : fields ≠ []) (h : Inv nodeId fields T M) {m : MatchObject}
    (hm : List.Forall₂ MatchField.HasType m.fields fields)
    (hsafe : m.anyExact = true → FirstSafe T (depthBound T) [] m.fields)
    (bodies : List (Body fields))
    (hund : ∀ it, MatchPredicate nodeId T m it → TrieUndisturbed nodeId bodies T it) :
    TrieIterateCorrect nodeId T m bodies := by
  cases hexact : m.anyExact with
  | false =>
    have hstart : MatchPredicate nodeId T m _ := .free hexact
    have hall : ∀ l ∈ T.leaves, l.node ∈ T.leaves.map TrieLeaf.node ↔
        0 < l.count ∧ doMatches m l.tpl = true := by
      intro l hl
      refine iff_of_true (List.mem_map_of_mem hl) ⟨h.count_pos l hl, ?_⟩
      rw [doMatches, hexact]
      rfl
    refine trieIterateCorrect_of_gives hstart ?_ (nodup_nodes h) hall
    cases hL : T.leaves with
    | nil => exact gives_atEnd rfl _
    | cons l ls =>
      refine trieLoop_list hne bodies h l.node [] _ ?_
      rw [hL]
      rfl
  | true =>
    by_cases hrefs : T.numberOfReferences = 0
    · refine trieIterateCorrect_of_gives (.empty hexact hrefs) (gives_atEnd rfl bodies)
        List.nodup_nil ?_
      rw [h.leaves_eq_nil_iff.2 hrefs]
      simp
    · have hleaves : T.leaves ≠ [] := fun hnil => hrefs (h.leaves_eq_nil_iff.1 hnil)
      have hreach := reach_root h.shape h.count_pos hne hleaves hm (hsafe hexact)
      have hnodup := nodup_below h.shape (nodeOk_root hleaves hm)
      have hall : ∀ l ∈ T.leaves, l.node ∈ below T [] m.fields ↔
          0 < l.count ∧ doMatches m l.tpl = true := by
        intro l hl
        rw [mem_below_root h.shape h.count_pos hleaves hexact hm]
        constructor
        · rintro ⟨l', hl', hnode, hmatch⟩
          rwa [h.shape.eq_of_node_eq hl' hl hnode] at hmatch
        · exact fun hmatch => ⟨l, hl, rfl, hmatch⟩
      cases hL : below T [] m.fields with
      | nil =>
        rw [hL] at hreach hnodup hall
        exact trieIterateCorrect_of_gives (.search hexact hrefs hreach) (gives_atEnd rfl bodies)
          hnodup hall
      | cons x xs =>
        rw [hL] at hreach hnodup hall
        obtain ⟨cont, hfind, hframes, hrem⟩ := hreach
        have hgives := trieLoop_search hne bodies h x cont hframes
          (hund _ (.search hexact hrefs hfind))
        rw [hrem] at hgives
        exact trieIterateCorrect_of_gives (.search hexact hrefs hfind) hgives hnodup hall

end Loop

/-- **An iterate runs its body once for every matching tuple that was stored when it started**, as
long as the storage is not changed under it.  For a trie: the first walk does not go back to a hash
table, and no derivation restructures a level at which the walk has a frame left.  For a compact
array: no derivation releases the buffer, except in the body of the last tuple after its last
read. -/
theorem iterate_correct (nodeId : BitVec 64 → ℕ) (hne : fields ≠ []) (m : MatchObject)
    (hm : List.Forall₂ MatchField.HasType m.fields fields) (bodies : List (Body fields)) :
    (∀ ops : List (Trie.Op fields),
      (m.anyExact = true → Trie.FirstSafe (Trie.run nodeId ops)
        (Trie.depthBound (Trie.run nodeId ops)) [] m.fields) →
      (∀ it, MatchPredicate nodeId (Trie.run nodeId ops) m it →
        TrieUndisturbed nodeId bodies (Trie.run nodeId ops) it) →
      TrieIterateCorrect nodeId (Trie.run nodeId ops) m bodies) ∧
    ∀ ops : List (CompactArray.Op fields),
      CompactUndisturbed m (CompactArray.run ops).buffer (CompactArray.run ops).numTuples 0
        (CompactArray.run ops) bodies →
      CompactIterateCorrect m (CompactArray.run ops) bodies := by
  refine ⟨fun ops hsafe hund => ?_, fun ops hund => ?_⟩
  · exact trieIterate_correct hne (Trie.inv_run hne ops) hm hsafe bodies hund
  · exact compactIterate_correct hne (CompactArray.run_fits ops) bodies hund

/-! ## An iterate that goes wrong, and one that does not -/

/-- Eight tuples that match `secondIsFive`, whose first fields are a list of siblings: 6, 62, 5, 4,
3, 2, 1 and 0. -/
def eightInserts : List (Trie.Op [.int, .int]) :=
  [.insert (Trie.pair 0 5), .insert (Trie.pair 1 5), .insert (Trie.pair 2 5),
    .insert (Trie.pair 3 5), .insert (Trie.pair 4 5), .insert (Trie.pair 5 5),
    .insert (Trie.pair 62 5), .insert (Trie.pair 6 5)]

/-- A body that derives one tuple. -/
def deriveSeven : Body [.int, .int] := ⟨[.derive (Trie.pair 7 5)], false⟩

/-- The first match, with the frame for the next sibling. -/
theorem findNext_eightInserts {next : Option TriePath} {cont : List Trie.Frame}
    (h : Trie.FindNext (fun _ => 0) (Trie.run (fun _ => 0) eightInserts) true
      (Trie.firstFrame (Trie.run (fun _ => 0) eightInserts) Trie.secondIsFive) [] next cont) :
    Trie.SearchState.done next cont =
      .done (some [.int 5, .int 6]) [⟨[], .at (.int 62), [.any .int, .int 5]⟩] := by
  have hsteps : Trie.Steps (fun _ => 0) (Trie.run (fun _ => 0) eightInserts) true _ _ := h
  exact hsteps.unique ⟨2, by rfl⟩ rfl rfl

/-- The ninth child makes the siblings a hash table, in which 62 is the last. -/
theorem findNext_ninth {next : Option TriePath} {cont : List Trie.Frame}
    (h : Trie.FindNext (fun _ => 0)
      (trieDerive (fun _ => 0) deriveSeven.actions (Trie.run (fun _ => 0) eightInserts)) false
      ⟨[], .at (.int 62), [.any .int, .int 5]⟩ [] next cont) :
    Trie.SearchState.done next cont = .done (some [.int 5, .int 62]) [] := by
  have hsteps : Trie.Steps (fun _ => 0) (trieDerive (fun _ => 0) deriveSeven.actions
    (Trie.run (fun _ => 0) eightInserts)) false _ _ := h
  exact hsteps.unique ⟨2, by rfl⟩ rfl rfl

/-- **A body that derives one tuple makes the iterate go wrong**: over the trie, the tuples from 5
to 0 are skipped because the derived one turns the siblings into a hash table; over a compact array
that was loaded with two tuples, the second is read from the buffer that was released. -/
theorem deriveSeven_not_correct :
    ¬ TrieIterateCorrect (fun _ => 0) (Trie.run (fun _ => 0) eightInserts) Trie.secondIsFive
        [deriveSeven] ∧
      ¬ CompactIterateCorrect Trie.secondIsFive
        (CompactArray.run [CompactArray.Op.load [Trie.pair 0 5, Trie.pair 1 5]]) [deriveSeven] := by
  constructor
  · rintro ⟨it, ps, finished, hmatch, hloop, hall⟩
    cases hmatch with
    | free hexact => cases hexact
    | empty hexact hrefs => exact absurd hrefs (by decide +kernel)
    | search hexact hrefs hfind =>
      obtain ⟨rfl, rfl⟩ := Trie.SearchState.done.inj (findNext_eightInserts hfind)
      cases hloop with
      | atEnd hnext => cases hnext
      | finish hnext hfin => cases hfin
      | more hnext hfin hinc hrest =>
        cases hnext
        cases hinc with
        | search hfind =>
          obtain ⟨rfl, rfl⟩ := Trie.SearchState.done.inj (findNext_ninth hfind)
          cases hrest with
          | atEnd hnext => cases hnext
          | finish hnext hfin => cases hfin
          | more hnext hfin hinc hrest =>
            cases hnext
            cases hinc
            cases hrest with
            | finish hnext => cases hnext
            | more hnext => cases hnext
            | atEnd hnext =>
              have hskip := (hall ⟨[.int 5, .int 0], [.int 0, .int 5], 1⟩ (by decide +kernel)).2.2
                rfl (by decide) (by decide)
              exact absurd hskip (by decide)
  · rintro ⟨r, hr, -⟩
    have hnone : compactIterate Trie.secondIsFive
        (CompactArray.run [CompactArray.Op.load [Trie.pair 0 5, Trie.pair 1 5]])
        [deriveSeven] = none := by decide +kernel
    rw [hnone] at hr
    cases hr

/-- With three tuples in the trie there is room for another sibling, and an array that has just
grown has room for another tuple. -/
theorem deriveSeven_correct :
    TrieIterateCorrect (fun _ => 0)
        (Trie.run (fun _ => 0) [Trie.Op.insert (Trie.pair 0 5), .insert (Trie.pair 1 5),
          .insert (Trie.pair 2 4)]) Trie.secondIsFive [deriveSeven] ∧
      CompactIterateCorrect Trie.secondIsFive
        (CompactArray.run [CompactArray.Op.derive (Trie.pair 0 5), .derive (Trie.pair 1 5)])
        [deriveSeven] := by
  obtain ⟨htrie, hcompact⟩ := iterate_correct (fun _ => 0) (List.cons_ne_nil _ _)
    Trie.secondIsFive (.cons (.any _) (.cons (.int _) .nil)) [deriveSeven]
  refine ⟨htrie _ (fun _ => ?_) fun it _ => ?_, hcompact _ ?_⟩
  · have hbound : Trie.depthBound (Trie.run (fun _ => 0) [Trie.Op.insert (Trie.pair 0 5),
        .insert (Trie.pair 1 5), .insert (Trie.pair 2 4)]) = 7 := by decide +kernel
    rw [hbound]
    exact ⟨trivial, fun _ => ⟨⟨trivial, fun _ => trivial⟩, fun h => absurd h (by decide +kernel)⟩⟩
  · intro _ _
    refine ⟨⟨fun frm _ => ?_, trivial⟩, fun _ _ => trivial⟩
    have hnone : restructured (fun _ => 0) (Trie.run (fun _ => 0)
        [Trie.Op.insert (Trie.pair 0 5), .insert (Trie.pair 1 5), .insert (Trie.pair 2 4)])
        (Trie.pair 7 5).1 = none := by decide +kernel
    rw [hnone]
    exact (Option.some_ne_none _).symm
  · have hnum : (CompactArray.run [CompactArray.Op.derive (Trie.pair 0 5),
        .derive (Trie.pair 1 5)]).numTuples = 1 := by decide +kernel
    rw [hnum, CompactUndisturbed, if_pos (by decide +kernel)]
    refine ⟨⟨fun hrel => ?_, trivial⟩, fun _ => trivial⟩
    exact absurd hrel.2.1 (by decide +kernel)

end PersIter

end Meld
