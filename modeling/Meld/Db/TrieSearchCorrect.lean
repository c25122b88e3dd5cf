import Meld.Db.TrieSearchSpec

/-!
# When a search of the trie is correct

`find_next` finds what `below` lists, frame by frame, unless it goes back to a hash table in its
first call.

* `levelStep_exact`, `levelStep_first`, `levelStep_frame`: what one level does in a well-formed
  trie.
* `Outcome`: a walk below a node ends at the first match, with the others left in the frames, or at
  `try_again` when there is none, or in a fault when it is forced down and not `FirstSafe`.
* `outcome_succeed`: every walk does.
* `searchCorrect_iff`: over all tries that operations can build and all match objects, the iteration
  is correct exactly when the first walk is safe.
-/

namespace Meld
namespace Trie

variable {nodeId : BitVec 64 → ℕ} {fields : List FieldType} {T : Trie}

/-! ## One level -/

theorem dropWhile_eq {d : TrieData} {pre post : List TrieData} (hd : d ∉ pre) :
    (pre ++ d :: post).dropWhile (fun e => decide (e ≠ d)) = d :: post := by
  induction pre with
  | nil => simp
  | cons e pre ih =>
    obtain ⟨hne, hpre⟩ := not_or.1 (List.mem_cons.not.1 hd)
    rw [List.cons_append, List.dropWhile_cons_of_pos (by simpa using Ne.symm hne), ih hpre]

theorem after_eq {d : TrieData} {pre post : List TrieData} (hd : d ∉ pre) :
    after d (pre ++ d :: post) = post := by
  rw [after, dropWhile_eq hd, List.tail_cons]

/-- The alternative of a child is the next one in the order of the walk. -/
theorem nextAlt_eq {c : TrieChild} (hc : ChildOk nodeId c) {d : TrieData}
    {pre post : List TrieData} (hsplit : children c = pre ++ d :: post) :
    nextAlt nodeId c d = post.head? := by
  have hnodup := hc.nodup
  rw [hsplit] at hnodup
  have hpre : d ∉ pre := fun h =>
    (List.nodup_append.1 hnodup).2.2 d h d List.mem_cons_self rfl
  cases c with
  | leaf => simp [children] at hsplit
  | siblings nodes =>
    rw [children] at hsplit
    rw [nextAlt, hsplit, after_eq hpre]
  | hash total buckets =>
    rw [children] at hsplit
    have hmem : d ∈ Buckets.bucketOf (hashItem nodeId) buckets d := by
      rw [← hc.1.mem_flatten, hsplit]
      simp
    obtain ⟨pre', post', hbucket⟩ := List.append_of_mem hmem
    have hflat := Buckets.flatten_eq (h := hashItem nodeId) hc.1.pos d
    rw [hbucket, List.append_assoc, List.cons_append, ← List.append_assoc] at hflat
    have hpre' : d ∉ (buckets.take (Buckets.index (hashItem nodeId) buckets.length d)).flatten ++
        pre' := by
      intro h
      have := hc.2.1
      rw [hflat] at this
      exact (List.nodup_append.1 this).2.2 d h d List.mem_cons_self rfl
    have hpost : after d buckets.flatten = post' ++
        (buckets.drop (Buckets.index (hashItem nodeId) buckets.length d + 1)).flatten := by
      rw [hflat, after_eq hpre']
    rw [hsplit, after_eq hpre] at hpost
    have hafter : after d (Buckets.bucketOf (hashItem nodeId) buckets d) = post' := by
      rw [hbucket, after_eq fun h => hpre' (List.mem_append_right _ h)]
    rw [nextAlt, hafter, hpost, List.head?_append]
    cases post' <;> rfl

/-- An exact pattern: the child with its key, if there is one. -/
theorem levelStep_exact {c : TrieChild} (hc : ChildOk nodeId c) (hleaf : c ≠ .leaf)
    {f : MatchField} {k : TrieData} (hk : f.key = some k) :
    levelStep nodeId c (childPtr c) true f =
      if k ∈ children c then .next k none else .fail := by
  cases c with
  | leaf => exact absurd rfl hleaf
  | siblings nodes =>
    cases nodes with
    | nil => simp [levelStep, hk, childPtr, children]
    | cons d nodes => simp [levelStep, hk, childPtr, children]
  | hash total buckets =>
    simp only [levelStep, hk, childPtr, children, hc.1.mem_flatten]

/-- A free pattern on the way down: the first child. -/
theorem levelStep_first {c : TrieChild} (hc : ChildOk nodeId c) {f : MatchField}
    (hk : f.key = none) {d : TrieData} {post : List TrieData} (hsplit : children c = d :: post) :
    levelStep nodeId c (childPtr c) true f = .next d post.head? := by
  have halt : nextAlt nodeId c d = post.head? :=
    nextAlt_eq hc (hsplit.trans (List.nil_append _).symm)
  cases c with
  | leaf => simp [children] at hsplit
  | siblings nodes =>
    rw [children] at hsplit
    simp [levelStep, hk, childPtr, hsplit, ← halt]
  | hash total buckets =>
    rw [children] at hsplit
    simp only [levelStep, hk, childPtr, hsplit, List.head?_cons, halt]

/-- The level is a hash table. -/
def isHashed : TrieChild → Bool
  | .hash _ _ => true
  | _ => false

/-- A frame: the child it stands at, unless it is taken for new in a hash table. -/
theorem levelStep_frame {c : TrieChild} (hc : ChildOk nodeId c) {f : MatchField}
    (hk : f.key = none) {d : TrieData} {pre post : List TrieData}
    (hsplit : children c = pre ++ d :: post) (force : Bool) :
    levelStep nodeId c (.at d) force f =
      if force && isHashed c then .fault else .next d post.head? := by
  have halt : nextAlt nodeId c d = post.head? := nextAlt_eq hc hsplit
  cases c with
  | leaf => simp [children] at hsplit
  | siblings nodes => simp [levelStep, hk, isHashed, halt]
  | hash total buckets => cases force <;> simp [levelStep, hk, isHashed, halt]

/-! ## Runs of the walk -/

section Runs

variable (nodeId) (fields) (T) (force : Bool)

/-- `find_next` gets from one state to another. -/
def Steps (s t : SearchState) : Prop := ∃ n, (step nodeId T force)^[n] s = t

/-- The leaves a frame still has to give. -/
def frameRest (frm : Frame) : List TriePath :=
  match frm.node, frm.mstack with
  | .at d, f :: stk =>
    ((children (T.child frm.parent)).dropWhile fun e => decide (e ≠ d)).flatMap fun e =>
      below T (e :: frm.parent) (f.pushes e ++ stk)
  | _, _ => []

/-- A frame stands at a child of a node of the trie, with a free pattern on its stack. -/
def FrameOk (frm : Frame) : Prop :=
  ∃ f stk d pre post, frm.node = .at d ∧ frm.mstack = f :: stk ∧ f.key = none ∧
    children (T.child frm.parent) = pre ++ d :: post ∧ NodeOk fields T frm.parent frm.mstack

/-- The walk from `s` ends at the first leaf of `L`, with the others left in the frames it put on
top of `cont`, or at `try_again` with `cont` when `L` is empty. -/
def Reach (s : SearchState) (cont : List Frame) : List TriePath → Prop
  | [] => Steps nodeId T force s (.tryAgain cont)
  | x :: xs => ∃ cont', Steps nodeId T force s (.done (some x) (cont' ++ cont)) ∧
      (∀ frm ∈ cont', FrameOk fields T frm) ∧ cont'.flatMap (frameRest T) = xs

/-- How a walk ends: as it should, or in a fault when it is forced down and not safe. -/
def Outcome (safe : Prop) (s : SearchState) (cont : List Frame) (L : List TriePath) : Prop :=
  ((force = true → safe) → Reach nodeId fields T force s cont L) ∧
    (force = true → ¬ safe → Steps nodeId T force s .fault)

end Runs

variable {force : Bool}

theorem Steps.refl (s : SearchState) : Steps nodeId T force s s := ⟨0, rfl⟩

theorem Steps.trans {s t u : SearchState} (hst : Steps nodeId T force s t)
    (htu : Steps nodeId T force t u) : Steps nodeId T force s u := by
  obtain ⟨m, rfl⟩ := hst
  obtain ⟨n, rfl⟩ := htu
  exact ⟨n + m, Function.iterate_add_apply _ n m s⟩

theorem Steps.head {s t : SearchState} (h : Steps nodeId T force (step nodeId T force s) t) :
    Steps nodeId T force s t :=
  Steps.trans ⟨1, rfl⟩ h

theorem Reach.of_steps {s t : SearchState} {cont : List Frame} {L : List TriePath}
    (hst : Steps nodeId T force s t) (h : Reach nodeId fields T force t cont L) :
    Reach nodeId fields T force s cont L := by
  cases L with
  | nil => exact hst.trans h
  | cons x xs =>
    obtain ⟨cont', hsteps, hrest⟩ := h
    exact ⟨cont', hst.trans hsteps, hrest⟩

theorem Outcome.of_steps {safe : Prop} {s t : SearchState} {cont : List Frame}
    {L : List TriePath} (hst : Steps nodeId T force s t)
    (h : Outcome nodeId fields T force safe t cont L) : Outcome nodeId fields T force safe s cont L :=
  ⟨fun hsafe => (h.1 hsafe).of_steps hst, fun hf hsafe => hst.trans (h.2 hf hsafe)⟩

theorem frameRest_eq {frm : Frame} {f : MatchField} {stk : List MatchField} {d : TrieData}
    {pre post : List TrieData} (hok : ChildOk nodeId (T.child frm.parent))
    (hnode : frm.node = .at d) (hstk : frm.mstack = f :: stk)
    (hsplit : children (T.child frm.parent) = pre ++ d :: post) :
    frameRest T frm = (d :: post).flatMap fun e =>
      below T (e :: frm.parent) (f.pushes e ++ stk) := by
  have hpre : d ∉ pre := by
    intro h
    have hnodup := hok.nodup
    rw [hsplit] at hnodup
    exact (List.nodup_append.1 hnodup).2.2 d h d List.mem_cons_self rfl
  simp only [frameRest, hnode, hstk, hsplit, dropWhile_eq hpre]

/-! ## Siblings -/

/-- `FirstSafe`, with enough fuel. -/
def Safe (T : Trie) (p : TriePath) (mstk : List MatchField) : Prop :=
  FirstSafe T (depthBound T - p.length) p mstk

/-- The walk along siblings to the first match is safe: in a hash table it has to stay at the first
of them. -/
def SafeFrom (T : Trie) (hashed : Bool) (p : TriePath) (f : MatchField)
    (stk : List MatchField) : List TrieData → Prop
  | [] => True
  | d :: ds => Safe T (d :: p) (f.pushes d ++ stk) ∧
      (below T (d :: p) (f.pushes d ++ stk) = [] →
        if hashed then ds = [] else SafeFrom T hashed p f stk ds)

variable {p : TriePath} {f : MatchField} {stk : List MatchField}

/-- Going back to the frame of the next sibling. -/
theorem step_tryAgain_frame (hS : Shape nodeId fields T.child T.leaves) (hk : f.key = none)
    {e : TrieData} {pre post : List TrieData} (hsplit : children (T.child p) = pre ++ e :: post)
    (cont : List Frame) :
    Steps nodeId T force (.tryAgain (⟨p, .at e, f :: stk⟩ :: cont))
      (if force && isHashed (T.child p) then .fault
        else succeed T (e :: p) (f.pushes e ++ stk)
          (altFrames p (f :: stk) post.head? ++ cont)) := by
  refine Steps.head (Steps.head ?_)
  have hlevel := levelStep_frame (hS.childOk p) hk hsplit force
  simp only [step, hlevel]
  cases force && isHashed (T.child p) <;> exact Steps.refl _

/-- A walk along the siblings from `d` on, when the walks below each of them end as they should. -/
theorem outcome_siblings (hS : Shape nodeId fields T.child T.leaves) (hk : f.key = none)
    (hok : NodeOk fields T p (f :: stk))
    (hchild : ∀ d ∈ children (T.child p), ∀ cont,
      Outcome nodeId fields T force (Safe T (d :: p) (f.pushes d ++ stk))
        (succeed T (d :: p) (f.pushes d ++ stk) cont) cont
        (below T (d :: p) (f.pushes d ++ stk)))
    (post : List TrieData) (d : TrieData) (pre : List TrieData)
    (hsplit : children (T.child p) = pre ++ d :: post) (cont : List Frame) :
    Outcome nodeId fields T force (SafeFrom T (isHashed (T.child p)) p f stk (d :: post))
      (succeed T (d :: p) (f.pushes d ++ stk) (altFrames p (f :: stk) post.head? ++ cont)) cont
      ((d :: post).flatMap fun e => below T (e :: p) (f.pushes e ++ stk)) := by
  induction post generalizing d pre with
  | nil =>
    obtain ⟨hreach, hfault⟩ := hchild d (by rw [hsplit]; simp) cont
    have hsafe : SafeFrom T (isHashed (T.child p)) p f stk [d] ↔
        Safe T (d :: p) (f.pushes d ++ stk) := by
      simp [SafeFrom]
    rw [List.flatMap_cons, List.flatMap_nil, List.append_nil]
    exact ⟨fun h => hreach fun hf => hsafe.1 (h hf), fun hf h => hfault hf fun hs => h (hsafe.2 hs)⟩
  | cons e post ih =>
    obtain ⟨hreach, hfault⟩ := hchild d (by rw [hsplit]; simp)
      (altFrames p (f :: stk) (some e) ++ cont)
    have hsplit' : children (T.child p) = (pre ++ [d]) ++ e :: post := by rw [hsplit]; simp
    obtain ⟨hreach', hfault'⟩ := ih e (pre ++ [d]) hsplit'
    have hback : Steps nodeId T force (.tryAgain (⟨p, .at e, f :: stk⟩ :: cont)) _ :=
      step_tryAgain_frame hS hk hsplit' cont
    have hunfold : SafeFrom T (isHashed (T.child p)) p f stk (d :: e :: post) ↔
        Safe T (d :: p) (f.pushes d ++ stk) ∧ (below T (d :: p) (f.pushes d ++ stk) = [] →
          isHashed (T.child p) = false ∧
            SafeFrom T (isHashed (T.child p)) p f stk (e :: post)) := by
      rw [SafeFrom]
      cases isHashed (T.child p) <;> simp
    rw [hunfold, List.flatMap_cons, List.head?_cons]
    cases hb : below T (d :: p) (f.pushes d ++ stk) with
    | nil =>
      rw [hb] at hreach
      constructor
      · intro hsafe
        have hnf : (force && isHashed (T.child p)) = false := by
          cases force with
          | false => rfl
          | true => rw [((hsafe rfl).2 rfl).1]; rfl
        rw [hnf] at hback
        have hto := (hreach fun hf => (hsafe hf).1).trans hback
        exact (hreach' fun hf => ((hsafe hf).2 rfl).2).of_steps hto
      · intro hf hsafe
        by_cases hd : Safe T (d :: p) (f.pushes d ++ stk)
        · have hto := hreach fun _ => hd
          by_cases hhash : isHashed (T.child p) = true
          · rw [hf, hhash] at hback
            exact hf ▸ (hf ▸ hto).trans hback
          · rw [Bool.not_eq_true] at hhash
            rw [hhash, Bool.and_false] at hback
            exact (hto.trans hback).trans (hfault' hf fun h => hsafe ⟨hd, fun _ => ⟨hhash, h⟩⟩)
        · exact hfault hf hd
    | cons x xs =>
      rw [hb] at hreach
      constructor
      · intro hsafe
        obtain ⟨cont', hsteps, hframes, hrem⟩ := hreach fun hf => (hsafe hf).1
        refine ⟨cont' ++ altFrames p (f :: stk) (some e), ?_, ?_, ?_⟩
        · rw [List.append_assoc]
          exact hsteps
        · intro frm hfrm
          rcases List.mem_append.1 hfrm with hfrm | hfrm
          · exact hframes frm hfrm
          · obtain rfl := List.mem_singleton.1 hfrm
            exact ⟨f, stk, e, pre ++ [d], post, rfl, rfl, hk, hsplit', hok⟩
        · have hrest : frameRest T ⟨p, .at e, f :: stk⟩ = _ :=
            frameRest_eq (hS.childOk p) rfl rfl hsplit'
          rw [List.flatMap_append, hrem, altFrames, List.flatMap_singleton, hrest]
          rfl
      · intro hf hsafe
        refine hfault hf fun hd => hsafe ⟨hd, fun h => ?_⟩
        exact absurd h (List.cons_ne_nil _ _)

/-! ## The walk below a node -/

theorem leafCount_pos (hS : Shape nodeId fields T.child T.leaves)
    (hpos : ∀ l ∈ T.leaves, 0 < l.count) (hleaf : T.child p = .leaf) : leafCount T p ≠ 0 := by
  obtain ⟨l, hl, hnode⟩ := (hS.leaf_iff p).1 hleaf
  rw [leafCount]
  cases hfind : T.leaves.find? fun l => decide (l.node = p) with
  | none => exact absurd hnode (by simpa using List.find?_eq_none.1 hfind l hl)
  | some m => exact (hpos m (List.mem_of_find?_eq_some hfind)).ne'

/-- A level with an exact pattern has at most one child that meets it. -/
theorem filter_meets_exact {c : TrieChild} (hc : ChildOk nodeId c) {k : TrieData}
    (hk : f.key = some k) :
    (children c).filter (meets f) = if k ∈ children c then [k] else [] := by
  have hmeets : meets f = fun d => decide (d = k) := by
    funext d
    simp [meets, hk]
  rw [hmeets]
  split
  · rename_i hmem
    have hnodup := hc.nodup
    obtain ⟨pre, post, hsplit⟩ := List.append_of_mem hmem
    rw [hsplit] at hnodup ⊢
    obtain ⟨-, hpost, hdisj⟩ := List.nodup_append.1 hnodup
    have hpre : pre.filter (fun d => decide (d = k)) = [] := by
      refine List.filter_eq_nil_iff.2 fun d hd => ?_
      simpa using hdisj d hd k List.mem_cons_self
    have hpost : post.filter (fun d => decide (d = k)) = [] := by
      refine List.filter_eq_nil_iff.2 fun d hd => ?_
      have hne : k ≠ d := fun h => (List.nodup_cons.1 hpost).1 (h ▸ hd)
      simpa using hne.symm
    simp [List.filter_append, hpre, hpost]
  · rename_i hmem
    refine List.filter_eq_nil_iff.2 fun d hd => ?_
    simpa using fun h : d = k => hmem (h ▸ hd)

theorem filter_meets_free {c : TrieChild} (hk : f.key = none) :
    (children c).filter (meets f) = children c := by
  refine List.filter_eq_self.2 fun d _ => ?_
  simp [meets, hk]

theorem safe_leaf (hok : NodeOk fields T p []) (hleaf : T.child p = .leaf) : Safe T p [] := by
  obtain ⟨n, hn⟩ := Nat.exists_eq_succ_of_ne_zero (Nat.sub_ne_zero_of_lt hok.length_lt)
  simp only [Safe, hn, FirstSafe, hleaf]

/-- Safety of a walk from a node, in terms of its children. -/
theorem safe_node (hok : NodeOk fields T p (f :: stk)) (hleaf : T.child p ≠ .leaf) :
    Safe T p (f :: stk) ↔
      SafeFrom T (isHashed (T.child p)) p f stk ((children (T.child p)).filter (meets f)) := by
  obtain ⟨n, hn⟩ := Nat.exists_eq_succ_of_ne_zero (Nat.sub_ne_zero_of_lt hok.length_lt)
  have hfuel (d : TrieData) : depthBound T - (d :: p).length = n := by
    rw [List.length_cons]
    omega
  have hsafe (d : TrieData) : Safe T (d :: p) (f.pushes d ++ stk) =
      FirstSafe T n (d :: p) (f.pushes d ++ stk) := by rw [Safe, hfuel]
  have hbelow (d : TrieData) : below T (d :: p) (f.pushes d ++ stk) =
      matchesBelow T n (d :: p) (f.pushes d ++ stk) := by rw [below, hfuel]
  rw [Safe, hn]
  cases hc : T.child p with
  | leaf => exact absurd hc hleaf
  | siblings nodes =>
    simp only [FirstSafe, hc, isHashed, children]
    induction nodes.filter (meets f) with
    | nil => exact Iff.rfl
    | cons d ds ih =>
      simp only [UpToFirst, SafeFrom, hsafe, hbelow, Bool.not_eq_false', List.isEmpty_iff,
        Bool.false_eq_true, if_false]
      exact and_congr_right fun _ => imp_congr_right fun _ => ih
  | hash total buckets =>
    simp only [FirstSafe, hc, isHashed, children]
    rcases buckets.flatten.filter (meets f) with _ | ⟨d, _ | ⟨e, ds⟩⟩
    · exact Iff.rfl
    · simp [SafeFrom, hsafe]
    · simp [SafeFrom, hsafe, hbelow]

/-- **A walk below a node ends at the first match or in a fault**, the latter exactly when it is
forced down and not safe. -/
theorem outcome_succeed (hS : Shape nodeId fields T.child T.leaves)
    (hpos : ∀ l ∈ T.leaves, 0 < l.count) {mstk : List MatchField} (hok : NodeOk fields T p mstk)
    (cont : List Frame) :
    Outcome nodeId fields T force (Safe T p mstk) (succeed T p mstk cont) cont (below T p mstk) := by
  induction hn : depthBound T - p.length generalizing p mstk cont with
  | zero =>
    have := hok.length_lt
    omega
  | succ n ih =>
    by_cases hleaf : T.child p = .leaf
    · obtain rfl := hok.stack_eq_nil hS hleaf
      have hstop : succeed T p [] cont = .done (some p) cont := by
        simp only [succeed, hleaf, if_neg (leafCount_pos hS hpos hleaf)]
      rw [hstop, below_leaf hok hleaf]
      refine ⟨fun _ => ⟨[], Steps.refl _, by simp, rfl⟩, fun _ h => ?_⟩
      exact absurd (safe_leaf hok hleaf) h
    · obtain ⟨⟨f, stk, rfl⟩, hne⟩ := hok.exists_child hS hleaf
      have hbegin : succeed T p (f :: stk) cont =
          .begin p (childPtr (T.child p)) (f :: stk) true cont := by
        cases hc : T.child p with
        | leaf => exact absurd hc hleaf
        | siblings nodes => simp only [succeed, hc]
        | hash total buckets => simp only [succeed, hc]
      have hchild : ∀ d ∈ children (T.child p), meets f d = true → ∀ cont,
          Outcome nodeId fields T force (Safe T (d :: p) (f.pushes d ++ stk))
            (succeed T (d :: p) (f.pushes d ++ stk) cont) cont
            (below T (d :: p) (f.pushes d ++ stk)) := by
        intro d hd hmeets cont
        exact ih (hok.child hS hd hmeets) cont (by rw [List.length_cons]; omega)
      rw [hbegin, below_node hok hleaf, safe_node hok hleaf]
      cases hk : f.key with
      | some k =>
        -- an exact level: the walk goes on below the child with the key, or not at all
        have hlevel := levelStep_exact (hS.childOk p) hleaf hk
        rw [filter_meets_exact (hS.childOk p) hk]
        by_cases hmem : k ∈ children (T.child p)
        · rw [if_pos hmem] at hlevel ⊢
          have hmeets : meets f k = true := by simp [meets, hk]
          have hstep : Steps nodeId T force
              (.begin p (childPtr (T.child p)) (f :: stk) true cont)
              (succeed T (k :: p) (f.pushes k ++ stk) cont) := by
            refine ⟨1, ?_⟩
            simp only [Function.iterate_one, step, hlevel, altFrames, List.nil_append]
          have hsafe : SafeFrom T (isHashed (T.child p)) p f stk [k] ↔
              Safe T (k :: p) (f.pushes k ++ stk) := by
            simp [SafeFrom]
          rw [List.flatMap_cons, List.flatMap_nil, List.append_nil, hsafe]
          exact (hchild k hmem hmeets cont).of_steps hstep
        · rw [if_neg hmem] at hlevel ⊢
          refine ⟨fun _ => ⟨1, ?_⟩, fun _ h => absurd trivial h⟩
          simp only [Function.iterate_one, step, hlevel]
      | none =>
        -- a free level: the first child, with a frame for the others
        obtain ⟨d, post, hsplit⟩ := List.exists_cons_of_ne_nil hne
        have hlevel := levelStep_first (hS.childOk p) hk hsplit
        have hstep : Steps nodeId T force
            (.begin p (childPtr (T.child p)) (f :: stk) true cont)
            (succeed T (d :: p) (f.pushes d ++ stk)
              (altFrames p (f :: stk) post.head? ++ cont)) := by
          refine ⟨1, ?_⟩
          simp only [Function.iterate_one, step, hlevel]
        have hmeets : ∀ d, meets f d = true := fun d => by simp [meets, hk]
        rw [filter_meets_free hk]
        have hsib := outcome_siblings hS hk hok
          (fun d hd cont => hchild d hd (hmeets d) cont) post d [] hsplit cont
        rw [hsplit]
        exact hsib.of_steps hstep

/-! ## The iteration -/

/-- A run that has not ended goes through the next state. -/
theorem Steps.tail {s t : SearchState} (h : Steps nodeId T force s t) (hne : s ≠ t) :
    Steps nodeId T force (step nodeId T force s) t := by
  obtain ⟨n, hn⟩ := h
  cases n with
  | zero => exact absurd hn hne
  | succ n => exact ⟨n, hn⟩

/-- A run has one end. -/
theorem Steps.unique {s t u : SearchState} (hst : Steps nodeId T force s t)
    (hsu : Steps nodeId T force s u) (ht : step nodeId T force t = t)
    (hu : step nodeId T force u = u) : t = u := by
  obtain ⟨m, hm⟩ := hst
  obtain ⟨n, hn⟩ := hsu
  have h := Function.iterate_add_apply (step nodeId T force) n m s
  rw [Nat.add_comm, Function.iterate_add_apply, hn, hm, Function.iterate_fixed hu,
    Function.iterate_fixed ht] at h
  exact h.symm

/-- A run that comes to its end does not end in a fault. -/
theorem Steps.not_fault_of_done {s : SearchState} {next : Option TriePath} {cont : List Frame}
    (hdone : Steps nodeId T force s (.done next cont)) : ¬ Steps nodeId T force s .fault := by
  intro hfault
  cases hdone.unique hfault rfl rfl

/-- What the frames give when they are restored one after the other, as every call of `find_next`
but the first does. -/
theorem reach_tryAgain (hS : Shape nodeId fields T.child T.leaves)
    (hpos : ∀ l ∈ T.leaves, 0 < l.count) (cont : List Frame)
    (hframes : ∀ frm ∈ cont, FrameOk fields T frm) :
    match cont.flatMap (frameRest T) with
    | [] => Steps nodeId T false (.tryAgain cont) (.done none [])
    | x :: xs => ∃ cont', Steps nodeId T false (.tryAgain cont) (.done (some x) cont') ∧
        (∀ frm ∈ cont', FrameOk fields T frm) ∧ cont'.flatMap (frameRest T) = xs := by
  induction cont with
  | nil => exact ⟨1, rfl⟩
  | cons frm cont ih =>
    have ih := ih fun frm' h => hframes frm' (List.mem_cons_of_mem _ h)
    obtain ⟨f, stk, d, pre, post, hnode, hstk, hk, hsplit, hok⟩ := hframes frm List.mem_cons_self
    have hrest := frameRest_eq (hS.childOk frm.parent) hnode hstk hsplit
    obtain ⟨p, node, mstk⟩ := frm
    simp only at hnode hstk hsplit hok hrest
    subst hnode hstk
    have hback : Steps nodeId T false (.tryAgain (⟨p, .at d, f :: stk⟩ :: cont)) _ :=
      step_tryAgain_frame hS hk hsplit cont
    rw [Bool.false_and, if_neg Bool.false_ne_true] at hback
    have hsib := (outcome_siblings hS hk hok (fun e he cont =>
      outcome_succeed hS hpos (hok.child hS he (by simp [meets, hk])) cont)
      post d pre hsplit cont).1 (fun h => absurd h Bool.false_ne_true)
    rw [← hrest] at hsib
    rw [List.flatMap_cons]
    cases hL : frameRest T ⟨p, .at d, f :: stk⟩ with
    | nil =>
      rw [hL] at hsib
      rw [List.nil_append]
      have hto := hback.trans hsib
      cases hR : cont.flatMap (frameRest T) with
      | nil =>
        rw [hR] at ih
        exact hto.trans ih
      | cons x xs =>
        rw [hR] at ih
        obtain ⟨cont', hsteps, hrem⟩ := ih
        exact ⟨cont', hto.trans hsteps, hrem⟩
    | cons x xs =>
      rw [hL] at hsib
      obtain ⟨cont', hsteps, hok', hrem⟩ := hsib
      refine ⟨cont' ++ cont, hback.trans hsteps, ?_, ?_⟩
      · intro frm hfrm
        rcases List.mem_append.1 hfrm with hfrm | hfrm
        · exact hok' frm hfrm
        · exact hframes frm (List.mem_cons_of_mem _ hfrm)
      · rw [List.flatMap_append, hrem]
        rfl

/-- An iterator with well-formed frames gives the leaf it stands at and what its frames have
left. -/
theorem iteratorYields_frames (hS : Shape nodeId fields T.child T.leaves)
    (hpos : ∀ l ∈ T.leaves, 0 < l.count) (xs : List TriePath) (x : TriePath) (cont : List Frame)
    (hframes : ∀ frm ∈ cont, FrameOk fields T frm) (hrem : cont.flatMap (frameRest T) = xs) :
    IteratorYields nodeId T (some x) cont (x :: xs) := by
  induction xs generalizing x cont with
  | nil =>
    cases cont with
    | nil => exact .last x
    | cons frm cont =>
      have hreach := reach_tryAgain hS hpos _ hframes
      rw [hrem] at hreach
      exact .more (hreach.tail (by simp)) (.atEnd _)
  | cons y ys ih =>
    cases cont with
    | nil => simp at hrem
    | cons frm cont =>
      have hreach := reach_tryAgain hS hpos _ hframes
      rw [hrem] at hreach
      obtain ⟨cont', hsteps, hok', hrem'⟩ := hreach
      exact .more (hsteps.tail (by simp)) (ih y cont' hok' hrem')

/-- A fault in the first call is the end of the iteration. -/
theorem not_searchYields_of_fault {m : MatchObject} (hexact : m.anyExact = true)
    (hrefs : T.numberOfReferences ≠ 0)
    (hfault : Steps nodeId T true (.begin [] (childPtr (T.child [])) m.fields true []) .fault)
    (ps : List TriePath) : ¬ SearchYields nodeId T m ps := by
  intro hyields
  rw [SearchYields, hexact, if_neg (by simp), if_neg hrefs] at hyields
  obtain ⟨next, cont, hfind, -⟩ := hyields
  exact Steps.not_fault_of_done hfind hfault

theorem not_searchCorrect_of_fault {m : MatchObject} (hexact : m.anyExact = true)
    (hrefs : T.numberOfReferences ≠ 0)
    (hfault : Steps nodeId T true (.begin [] (childPtr (T.child [])) m.fields true []) .fault) :
    ¬ SearchCorrect nodeId T m := by
  rintro ⟨ps, hyields, -⟩
  exact not_searchYields_of_fault hexact hrefs hfault ps hyields

/-- `find_next` ends in one way. -/
theorem FindNext.unique {frm : Frame} {cont cont₁ cont₂ : List Frame}
    {next₁ next₂ : Option TriePath} (h₁ : FindNext nodeId T force frm cont next₁ cont₁)
    (h₂ : FindNext nodeId T force frm cont next₂ cont₂) : next₁ = next₂ ∧ cont₁ = cont₂ := by
  have heq : SearchState.done next₁ cont₁ = .done next₂ cont₂ := Steps.unique h₁ h₂ rfl rfl
  exact SearchState.done.inj heq

theorem IteratorYields.unique {next : Option TriePath} {cont : List Frame} {ps qs : List TriePath}
    (hps : IteratorYields nodeId T next cont ps) (hqs : IteratorYields nodeId T next cont qs) :
    ps = qs := by
  induction hps generalizing qs with
  | atEnd cont =>
    cases hqs
    rfl
  | last p =>
    cases hqs
    rfl
  | more hfind _ ih =>
    cases hqs with
    | more hfind' hrest' =>
      obtain ⟨rfl, rfl⟩ := hfind.unique hfind'
      rw [ih hrest']

/-- An iteration gives one list of leaves. -/
theorem SearchYields.unique {m : MatchObject} {ps qs : List TriePath}
    (hps : SearchYields nodeId T m ps) (hqs : SearchYields nodeId T m qs) : ps = qs := by
  rw [SearchYields] at hps hqs
  split at hps
  · rename_i hexact
    rw [if_pos hexact] at hqs
    rw [hps, hqs]
  · rename_i hexact
    rw [if_neg hexact] at hqs
    split at hps
    · rename_i hrefs
      rw [if_pos hrefs] at hqs
      rw [hps, hqs]
    · rename_i hrefs
      rw [if_neg hrefs] at hqs
      obtain ⟨next, cont, hfind, hyields⟩ := hps
      obtain ⟨next', cont', hfind', hyields'⟩ := hqs
      obtain ⟨rfl, rfl⟩ := hfind.unique hfind'
      exact hyields.unique hyields'

/-- Without an exact field the chain of leaves is walked. -/
theorem searchCorrect_of_not_anyExact (hS : Shape nodeId fields T.child T.leaves)
    (hpos : ∀ l ∈ T.leaves, 0 < l.count) {m : MatchObject} (hexact : m.anyExact = false) :
    SearchCorrect nodeId T m := by
  refine ⟨T.leaves.map TrieLeaf.node, ?_, ?_, ?_⟩
  · rw [SearchYields, if_pos hexact]
  · refine List.Nodup.map_on ?_ (List.Nodup.of_map _ hS.nodup)
    intro l hl l' hl' h
    exact hS.eq_of_node_eq hl hl' h
  · intro p
    rw [List.mem_map]
    refine exists_congr fun l => and_congr_right fun hl => ?_
    have hm : doMatches m l.tpl = true := by simp [doMatches, hexact]
    simp [hm, hpos l hl]

/-- The first call of `find_next` starts at the root as if it had just come down to it. -/
theorem outcome_root (hS : Shape nodeId fields T.child T.leaves)
    (hpos : ∀ l ∈ T.leaves, 0 < l.count) (hne : fields ≠ []) (hleaves : T.leaves ≠ [])
    {mfs : List MatchField} (hm : List.Forall₂ MatchField.HasType mfs fields) :
    Outcome nodeId fields T true (Safe T [] mfs)
      (.begin [] (childPtr (T.child [])) mfs true []) [] (below T [] mfs) := by
  have hok := nodeOk_root hleaves hm
  have hroot : T.child [] ≠ .leaf := by
    intro hleaf
    have hnil := hok.stack_eq_nil hS hleaf
    rw [hnil] at hm
    cases hm
    exact hne rfl
  have hbegin : succeed T [] mfs [] = .begin [] (childPtr (T.child [])) mfs true [] := by
    cases hc : T.child [] with
    | leaf => exact absurd hc hroot
    | siblings nodes => simp only [succeed, hc]
    | hash total buckets => simp only [succeed, hc]
  rw [← hbegin]
  exact outcome_succeed hS hpos hok []

/-- A safe first call ends at the first match, with the others left in its frames. -/
theorem reach_root (hS : Shape nodeId fields T.child T.leaves)
    (hpos : ∀ l ∈ T.leaves, 0 < l.count) (hne : fields ≠ []) (hleaves : T.leaves ≠ [])
    {m : MatchObject} (hm : List.Forall₂ MatchField.HasType m.fields fields)
    (hsafe : Safe T [] m.fields) :
    match below T [] m.fields with
    | [] => FindNext nodeId T true (firstFrame T m) [] none []
    | x :: xs => ∃ cont, FindNext nodeId T true (firstFrame T m) [] (some x) cont ∧
        (∀ frm ∈ cont, FrameOk fields T frm) ∧ cont.flatMap (frameRest T) = xs := by
  have hreach := (outcome_root hS hpos hne hleaves hm).1 fun _ => hsafe
  cases hL : below T [] m.fields with
  | nil =>
    rw [hL] at hreach
    exact hreach.trans ⟨1, rfl⟩
  | cons x xs =>
    rw [hL] at hreach
    obtain ⟨cont', hsteps, hframes, hrem⟩ := hreach
    rw [List.append_nil] at hsteps
    exact ⟨cont', hsteps, hframes, hrem⟩

/-- The leaves below the root that the patterns accept are those of the matching tuples. -/
theorem mem_below_root (hS : Shape nodeId fields T.child T.leaves)
    (hpos : ∀ l ∈ T.leaves, 0 < l.count) (hleaves : T.leaves ≠ []) {m : MatchObject}
    (hexact : m.anyExact = true) (hm : List.Forall₂ MatchField.HasType m.fields fields)
    (x : TriePath) :
    x ∈ below T [] m.fields ↔
      ∃ l ∈ T.leaves, l.node = x ∧ 0 < l.count ∧ doMatches m l.tpl = true := by
  rw [mem_below hS (nodeOk_root hleaves hm)]
  refine exists_congr fun l => and_congr_right fun hl => and_congr_right fun hnode => ?_
  rw [← accepts_word (hS.node_eq l hl).1 hm hexact]
  constructor
  · rintro ⟨w, hw, hacc⟩
    have hword : w = word l.tpl := by
      rw [← hnode, (hS.node_eq l hl).2, List.append_nil] at hw
      exact (List.reverse_injective hw).symm
    exact ⟨hpos l hl, hword ▸ hacc⟩
  · rintro ⟨-, hacc⟩
    exact ⟨word l.tpl, by rw [← hnode, (hS.node_eq l hl).2, List.append_nil], hacc⟩

/-- With an exact field, the iteration over a trie that is not empty is correct exactly when the
first walk is safe. -/
theorem searchCorrect_iff_safe (hS : Shape nodeId fields T.child T.leaves)
    (hpos : ∀ l ∈ T.leaves, 0 < l.count) (hne : fields ≠ []) (hleaves : T.leaves ≠ [])
    (hrefs : T.numberOfReferences ≠ 0) {m : MatchObject} (hexact : m.anyExact = true)
    (hm : List.Forall₂ MatchField.HasType m.fields fields) :
    SearchCorrect nodeId T m ↔ Safe T [] m.fields := by
  constructor
  · intro hcorrect
    by_contra hsafe
    have hout := outcome_root hS hpos hne hleaves hm
    exact not_searchCorrect_of_fault hexact hrefs (hout.2 rfl hsafe) hcorrect
  · intro hsafe
    refine ⟨below T [] m.fields, ?_, nodup_below hS (nodeOk_root hleaves hm),
      mem_below_root hS hpos hleaves hexact hm⟩
    rw [SearchYields, hexact, if_neg (by simp), if_neg hrefs]
    have hreach := reach_root hS hpos hne hleaves hm hsafe
    cases hL : below T [] m.fields with
    | nil =>
      rw [hL] at hreach
      exact ⟨none, [], hreach, .atEnd _⟩
    | cons x xs =>
      rw [hL] at hreach
      obtain ⟨cont, hfind, hframes, hrem⟩ := hreach
      exact ⟨some x, cont, hfind, iteratorYields_frames hS hpos xs x cont hframes hrem⟩

/-- A trie without references has nothing to walk through. -/
theorem firstSafe_of_empty {spec : Multiset Tuple} (hinv : Inv nodeId fields T spec)
    (hrefs : T.numberOfReferences = 0) (mfs : List MatchField) :
    FirstSafe T (depthBound T) [] mfs := by
  have hleaves := hinv.leaves_eq_nil_iff.2 hrefs
  have hroot : T.child [] = .siblings [] := by
    refine (hinv.shape.childOk []).eq_siblings_nil ?_ ?_
    · rw [Ne, hinv.shape.leaf_iff, hleaves]
      simp
    · refine List.eq_nil_iff_forall_not_mem.2 fun d hd => ?_
      rw [hinv.shape.mem_children, hleaves] at hd
      simp at hd
  rw [depthBound]
  cases mfs <;> simp [FirstSafe, hroot, UpToFirst]

/-- The search of a trie is correct if its first walk is safe. -/
theorem searchCorrect_of_safe {spec : Multiset Tuple} (hne : fields ≠ [])
    (hinv : Inv nodeId fields T spec) {m : MatchObject}
    (hm : List.Forall₂ MatchField.HasType m.fields fields)
    (hsafe : m.anyExact = true → FirstSafe T (depthBound T) [] m.fields) :
    SearchCorrect nodeId T m := by
  have hpos := hinv.count_pos
  cases hexact : m.anyExact with
  | false => exact searchCorrect_of_not_anyExact hinv.shape hpos hexact
  | true =>
    by_cases hrefs : T.numberOfReferences = 0
    · have hleaves := hinv.leaves_eq_nil_iff.2 hrefs
      refine ⟨[], ?_, List.nodup_nil, by simp [hleaves]⟩
      rw [SearchYields, hexact, if_neg (by simp), if_pos hrefs]
    · have hleaves : T.leaves ≠ [] := fun hnil => hrefs (hinv.leaves_eq_nil_iff.1 hnil)
      exact (searchCorrect_iff_safe hinv.shape hpos hne hleaves hrefs hexact hm).2 (hsafe hexact)

/-- The search of a trie does not come to its end if its first walk is not safe. -/
theorem not_searchYields_of_not_safe {spec : Multiset Tuple} (hne : fields ≠ [])
    (hinv : Inv nodeId fields T spec) {m : MatchObject}
    (hm : List.Forall₂ MatchField.HasType m.fields fields)
    (hsafe : ¬ (m.anyExact = true → FirstSafe T (depthBound T) [] m.fields)) (ps : List TriePath) :
    ¬ SearchYields nodeId T m ps := by
  rw [Classical.not_imp] at hsafe
  obtain ⟨hexact, hunsafe⟩ := hsafe
  have hrefs : T.numberOfReferences ≠ 0 := fun hrefs =>
    hunsafe (firstSafe_of_empty hinv hrefs m.fields)
  have hleaves : T.leaves ≠ [] := fun hnil => hrefs (hinv.leaves_eq_nil_iff.1 hnil)
  have hout := outcome_root hinv.shape hinv.count_pos hne hleaves hm
  exact not_searchYields_of_fault hexact hrefs (hout.2 rfl hunsafe) ps

/-- **Iterating a match object over a trie gives every matching tuple once, and no other, exactly
when the first walk does not go back to a hash table.**  This is for every trie that insertions and
completed deletions can build and for every match object of the predicate; without an exact field
there is no walk. -/
theorem searchCorrect_iff (nodeId : BitVec 64 → ℕ) (hne : fields ≠ []) (ops : List (Op fields))
    (m : MatchObject) (hm : List.Forall₂ MatchField.HasType m.fields fields) :
    SearchCorrect nodeId (run nodeId ops) m ↔
      (m.anyExact = true →
        FirstSafe (run nodeId ops) (depthBound (run nodeId ops)) [] m.fields) := by
  have hinv : Inv nodeId fields (run nodeId ops) (specRun ops) := inv_run hne ops
  refine ⟨fun ⟨ps, hyields, _⟩ => ?_, searchCorrect_of_safe hne hinv hm⟩
  by_contra hsafe
  exact not_searchYields_of_not_safe hne hinv hm hsafe ps hyields

/-- The walk has read through a wrong pointer. -/
def isFault : SearchState → Bool
  | .fault => true
  | _ => false

theorem eq_fault {s : SearchState} (h : isFault s = true) : s = .fault := by
  cases s <;> first | rfl | cases h

/-- A tuple of two integers. -/
def pair (i j : BitVec 32) : TypedTuple [.int, .int] :=
  ⟨[.int i, .int j], .cons (.int i) (.cons (.int j) .nil)⟩

/-- Nine tuples with different first fields, which make the root a hash table; only the last has 5
as its second field. -/
def nineInserts : List (Op [.int, .int]) :=
  [.insert (pair 0 0), .insert (pair 1 0), .insert (pair 2 0), .insert (pair 3 0),
    .insert (pair 4 0), .insert (pair 5 0), .insert (pair 6 0), .insert (pair 7 0),
    .insert (pair 8 5)]

/-- The pattern with the first field free and the second 5. -/
def secondIsFive : MatchObject := ⟨true, [.any .int, .int 5]⟩

/-- **The walk goes wrong**: the first node of the table does not lead to a match, the frame of the
next one is taken for new, and that node is read as a hash table. -/
theorem nineInserts_not_searchCorrect :
    ¬ SearchCorrect (fun _ => 0) (run (fun _ => 0) nineInserts) secondIsFive := by
  refine not_searchCorrect_of_fault rfl (by decide +kernel) ⟨5, eq_fault ?_⟩
  decide +kernel

/-- With the second field matched by 0, the first node of the table leads to a match. -/
theorem nineInserts_searchCorrect :
    List.Forall₂ MatchField.HasType [.any .int, .int 0] [.int, .int] ∧
      SearchCorrect (fun _ => 0) (run (fun _ => 0) nineInserts) ⟨true, [.any .int, .int 0]⟩ := by
  have hm : List.Forall₂ MatchField.HasType [.any .int, .int 0] [.int, .int] :=
    .cons (.any _) (.cons (.int _) .nil)
  refine ⟨hm, (searchCorrect_iff _ (by simp) nineInserts ⟨true, [.any .int, .int 0]⟩ hm).2
    fun _ => ?_⟩
  have h : depthBound (run (fun _ => 0) nineInserts) = 19 := by decide +kernel
  rw [h]
  exact ⟨⟨trivial, fun _ => trivial⟩, by decide +kernel⟩

end Trie

end Meld
