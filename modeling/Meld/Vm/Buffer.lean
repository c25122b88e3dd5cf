import Meld.Db.NodeWork

/-!
# The buffer of facts to send

While a node runs, the facts that its rules derive for other nodes are kept in a `vm::buffer`.  The
first eight destinations have a place in an array, the others are in a map, and at every destination
the facts are grouped by predicate.  At the end of the run `sync` sends every group with one
`new_work_list` and the buffer is used again for the next run.  The array is not cleared: a place
gets empty when it is taken again.

* `Buffer`, `add`: the buffer and its operations.
* `sync`, `runNode`: what happens at the end of a run.  Whether a group is added to the database at
  once or left to the owner of the destination is decided by a lock, and arbitrary here.
* `Buffered`: the invariant while facts are buffered.  The groups that `sync` would send are those
  of the facts buffered so far, each destination once.
* `runNode_delivers`: in every state that runs lead to, the facts of the next run are delivered,
  each once and to its destination, and nothing else is.
-/

namespace Meld

/-- `buffer_pair`. -/
structure BufferPair where
  node : ℕ
  b : BufferNode

/-- `MAX_VM_BUFFER`. -/
def maxVmBuffer : ℕ := 8

/-- `vm::buffer`.  The nodes are numbered in the order of their addresses, and the map is a list. -/
structure Buffer where
  initial : ℕ → BufferPair
  sizeInitial : ℕ
  facts : List (ℕ × BufferNode)

namespace Buffer

/-- `lots_of_nodes`. -/
def lotsOfNodes (buf : Buffer) : Bool := buf.sizeInitial == maxVmBuffer

/-- `add_into_buffer_node`. -/
def addIntoBufferNode (tpl : Tuple) (pred : WorkPredicate) : BufferNode → BufferNode
  | [] => [⟨pred, [tpl]⟩]
  | item :: bn =>
    if item.pred = pred then { item with ls := tpl :: item.ls } :: bn
    else item :: addIntoBufferNode tpl pred bn

/-- `facts.insert(std::make_pair(n, buffer_node()))`. -/
def insertNode (n : ℕ) : List (ℕ × BufferNode) → List (ℕ × BufferNode)
  | [] => [(n, [])]
  | e :: facts => if n < e.1 then (n, []) :: e :: facts else e :: insertNode n facts

/-- Change what the map has for a node. -/
def modifyNode (n : ℕ) (f : BufferNode → BufferNode) :
    List (ℕ × BufferNode) → List (ℕ × BufferNode)
  | [] => []
  | e :: facts => if e.1 = n then (e.1, f e.2) :: facts else e :: modifyNode n f facts

/-- `add`.  The places of the array are searched first. -/
def add (buf : Buffer) (n : ℕ) (tpl : Tuple) (pred : WorkPredicate) : Buffer :=
  match (List.range buf.sizeInitial).find? fun i => (buf.initial i).node == n with
  | some i =>
    let bp := buf.initial i
    { buf with
      initial := Function.update buf.initial i { bp with b := addIntoBufferNode tpl pred bp.b } }
  | none =>
    if buf.lotsOfNodes then
      let facts := if buf.facts.any (·.1 == n) then buf.facts else insertNode n buf.facts
      { buf with facts := modifyNode n (addIntoBufferNode tpl pred) facts }
    else
      { buf with
        initial := Function.update buf.initial buf.sizeInitial ⟨n, addIntoBufferNode tpl pred []⟩
        sizeInitial := buf.sizeInitial + 1 }

/-- `clear`. -/
def clear (buf : Buffer) : Buffer :=
  { buf with
    facts := if buf.lotsOfNodes then [] else buf.facts
    sizeInitial := 0 }

/-- The groups that `sync` sends, in the order in which it sends them. -/
def sends (buf : Buffer) : List (ℕ × BufferNode) :=
  ((List.range buf.sizeInitial).map fun i => ((buf.initial i).node, (buf.initial i).b)) ++
    if buf.lotsOfNodes then buf.facts else []

end Buffer

/-- A fact on its way to another node. -/
structure BufferedFact where
  node : ℕ
  tpl : Tuple
  pred : WorkPredicate

/-- The facts for one node. -/
def factsTo (n : ℕ) (fs : List BufferedFact) : List WorkFact :=
  (fs.filter (·.node == n)).map fun f => ⟨f.tpl, f.pred, .positive, 0⟩

/-- `new_work_list`.  The database lock decides whether the thread adds the facts itself. -/
def newWorkList (P : WorkProgram) (nodes : ℕ → DbNode) (now : Bool) (target : ℕ) (b : BufferNode) :
    Option (ℕ → DbNode) := do
  let n ← if now then (nodes target).addBufferMyself P b
    else some ((nodes target).addBufferOthers b)
  some (Function.update nodes target n)

/-- The loops of `sync`. -/
def sendAll (P : WorkProgram) : (ℕ → DbNode) → (ℕ → Bool) → List (ℕ × BufferNode) →
    Option (ℕ → DbNode)
  | nodes, _, [] => some nodes
  | nodes, now, e :: es => do
    let nodes ← newWorkList P nodes (now 0) e.1 e.2
    sendAll P nodes (fun k => now (k + 1)) es

/-- `state::sync`. -/
def sync (P : WorkProgram) (nodes : ℕ → DbNode) (buf : Buffer) (now : ℕ → Bool) :
    Option ((ℕ → DbNode) × Buffer) := do
  let nodes ← sendAll P nodes now buf.sends
  some (nodes, buf.clear)

/-- The facts of a run are buffered, in the order in which its rules derive them, and sent. -/
def runNode (P : WorkProgram) (nodes : ℕ → DbNode) (buf : Buffer) (fs : List BufferedFact)
    (now : ℕ → Bool) : Option ((ℕ → DbNode) × Buffer) :=
  sync P nodes (fs.foldl (fun buf f => buf.add f.node f.tpl f.pred) buf) now

/-- What the rules buffer: facts of the predicates of the program that are no actions. -/
def BufferedFact.Valid (P : WorkProgram) (f : BufferedFact) : Prop :=
  f.pred ∈ P.predicates ∧ f.pred.isAction = false

/-- The buffers that runs leave.  The databases of the nodes may be any in each of the runs. -/
inductive BufferReach (P : WorkProgram) : Buffer → Prop where
  | create (initial : ℕ → BufferPair) : BufferReach P ⟨initial, 0, []⟩
  | run {buf buf' : Buffer} {nodes nodes' : ℕ → DbNode} {fs : List BufferedFact} {now : ℕ → Bool}
      (hr : BufferReach P buf) (hfs : ∀ f ∈ fs, f.Valid P)
      (hrun : runNode P nodes buf fs now = some (nodes', buf')) : BufferReach P buf'

/-! ## Groups -/

namespace Buffer

variable {P : WorkProgram}

/-- Every group of the buffer is of a predicate of the program that is no action, and not empty. -/
def GroupsOk (P : WorkProgram) (b : BufferNode) : Prop :=
  ∀ i ∈ b, i.pred ∈ P.predicates ∧ i.pred.isAction = false ∧ i.ls ≠ []

/-- One more fact. -/
theorem facts_addIntoBufferNode (tpl : Tuple) (pred : WorkPredicate) (b : BufferNode) :
    ((addIntoBufferNode tpl pred b).flatMap BufferItem.facts).Perm
      (⟨tpl, pred, .positive, 0⟩ :: b.flatMap BufferItem.facts) := by
  induction b with
  | nil => exact List.Perm.refl _
  | cons i b ih =>
    rw [addIntoBufferNode]
    split
    · rename_i hpred
      rw [List.flatMap_cons, List.flatMap_cons, BufferItem.facts, List.map_cons, hpred]
      rw [BufferItem.facts, hpred]
      exact List.Perm.refl _
    · rw [List.flatMap_cons, List.flatMap_cons]
      exact (ih.append_left _).trans List.perm_middle

theorem GroupsOk.addIntoBufferNode {b : BufferNode} (h : GroupsOk P b) {tpl : Tuple}
    {pred : WorkPredicate} (hpred : pred ∈ P.predicates) (hact : pred.isAction = false) :
    GroupsOk P (addIntoBufferNode tpl pred b) := by
  induction b with
  | nil =>
    intro i hi
    obtain rfl := List.mem_singleton.mp hi
    exact ⟨hpred, hact, List.cons_ne_nil _ _⟩
  | cons i b ih =>
    have hi := h i List.mem_cons_self
    have hb : GroupsOk P b := fun j hj => h j (List.mem_cons_of_mem _ hj)
    intro j hj
    rw [Buffer.addIntoBufferNode] at hj
    split at hj
    · rcases List.mem_cons.mp hj with rfl | hj
      · exact ⟨hi.1, hi.2.1, List.cons_ne_nil _ _⟩
      · exact hb j hj
    · rcases List.mem_cons.mp hj with rfl | hj
      · exact hi
      · exact ih hb j hj

/-! ## The destinations -/

/-- How the groups change when a fact is added: the group of its destination grows, or a new group
is put somewhere. -/
inductive Grows (n : ℕ) (f : BufferNode → BufferNode) :
    List (ℕ × BufferNode) → List (ℕ × BufferNode) → Prop where
  | old (l : List (ℕ × BufferNode)) (b : BufferNode) (r : List (ℕ × BufferNode)) :
      Grows n f (l ++ (n, b) :: r) (l ++ (n, f b) :: r)
  | new (l r : List (ℕ × BufferNode)) (h : n ∉ (l ++ r).map Prod.fst) :
      Grows n f (l ++ r) (l ++ (n, f []) :: r)

theorem Grows.append_left {n : ℕ} {f : BufferNode → BufferNode} {es es' : List (ℕ × BufferNode)}
    (h : Grows n f es es') {xs : List (ℕ × BufferNode)} (hxs : n ∉ xs.map Prod.fst) :
    Grows n f (xs ++ es) (xs ++ es') := by
  cases h with
  | old l b r =>
    rw [← List.append_assoc, ← List.append_assoc]
    exact .old (xs ++ l) b r
  | new l r hn =>
    rw [← List.append_assoc, ← List.append_assoc]
    refine .new (xs ++ l) r ?_
    rw [List.append_assoc, List.map_append, List.mem_append, not_or]
    exact ⟨hxs, hn⟩

/-- Changing the entry of a node that the map has. -/
theorem modifyNode_eq {n : ℕ} (f : BufferNode → BufferNode) {es : List (ℕ × BufferNode)}
    (h : n ∈ es.map Prod.fst) :
    ∃ l b r, es = l ++ (n, b) :: r ∧ modifyNode n f es = l ++ (n, f b) :: r := by
  induction es with
  | nil => exact absurd h List.not_mem_nil
  | cons e es ih =>
    by_cases he : e.1 = n
    · refine ⟨[], e.2, es, ?_, ?_⟩
      · rw [← he]
        rfl
      · rw [modifyNode, if_pos he, he]
        rfl
    · have hes : n ∈ es.map Prod.fst := by
        rcases List.mem_cons.mp h with h | h
        · exact absurd h.symm he
        · exact h
      obtain ⟨l, b, r, heq, hmod⟩ := ih hes
      refine ⟨e :: l, b, r, by rw [heq]; rfl, ?_⟩
      rw [modifyNode, if_neg he, hmod]
      rfl

/-- A new entry is put into the map and changed. -/
theorem modifyNode_insertNode {n : ℕ} (f : BufferNode → BufferNode) {es : List (ℕ × BufferNode)}
    (h : n ∉ es.map Prod.fst) :
    ∃ l r, es = l ++ r ∧ modifyNode n f (insertNode n es) = l ++ (n, f []) :: r := by
  induction es with
  | nil => exact ⟨[], [], rfl, by simp [insertNode, modifyNode]⟩
  | cons e es ih =>
    rw [List.map_cons, List.mem_cons, not_or] at h
    rw [insertNode]
    split
    · exact ⟨[], e :: es, rfl, by simp [modifyNode]⟩
    · obtain ⟨l, r, heq, hmod⟩ := ih h.2
      refine ⟨e :: l, r, by rw [heq]; rfl, ?_⟩
      rw [modifyNode, if_neg (fun he => h.1 he.symm), hmod]
      rfl

/-- The map grows by the fact. -/
theorem grows_facts (n : ℕ) (f : BufferNode → BufferNode) (es : List (ℕ × BufferNode)) :
    Grows n f es (modifyNode n f (if es.any (·.1 == n) then es else insertNode n es)) := by
  have hany : es.any (·.1 == n) = true ↔ n ∈ es.map Prod.fst := by
    simp [List.any_eq_true]
  by_cases h : n ∈ es.map Prod.fst
  · rw [if_pos (hany.mpr h)]
    obtain ⟨l, b, r, heq, hmod⟩ := modifyNode_eq f h
    rw [hmod, heq]
    exact .old l b r
  · rw [if_neg (fun ha => h (hany.mp ha))]
    obtain ⟨l, r, heq, hmod⟩ := modifyNode_insertNode f h
    rw [hmod, heq]
    exact .new l r (heq ▸ h)

/-- The groups in the array. -/
def inline (buf : Buffer) : List (ℕ × BufferNode) :=
  (List.range buf.sizeInitial).map fun i => ((buf.initial i).node, (buf.initial i).b)

/-- The array is not overfull, and the map is used when the array is full only. -/
structure Fits (buf : Buffer) : Prop where
  size_le : buf.sizeInitial ≤ maxVmBuffer
  spill : buf.lotsOfNodes = false → buf.facts = []

theorem Fits.sends_eq {buf : Buffer} (h : Fits buf) : buf.sends = buf.inline ++ buf.facts := by
  rw [sends, inline]
  split
  · rfl
  · rename_i hlots
    rw [h.spill (by simpa using hlots)]

/-- Writing one place of the array. -/
theorem map_range_update {buf : Buffer} {i k : ℕ} (hi : i < k) (bp : BufferPair) :
    ∃ l r, ((List.range k).map fun j => ((buf.initial j).node, (buf.initial j).b)) =
        l ++ ((buf.initial i).node, (buf.initial i).b) :: r ∧
      ((List.range k).map fun j => ((Function.update buf.initial i bp j).node,
        (Function.update buf.initial i bp j).b)) = l ++ (bp.node, bp.b) :: r := by
  obtain ⟨as, cs, hrange⟩ := List.append_of_mem (List.mem_range.mpr hi)
  have hnodup : (as ++ i :: cs).Nodup := hrange ▸ List.nodup_range
  have hout : i ∉ as ++ cs := (List.nodup_middle.mp hnodup).notMem
  rw [List.mem_append, not_or] at hout
  have hsame : ∀ js : List ℕ, i ∉ js →
      (js.map fun j => ((Function.update buf.initial i bp j).node,
        (Function.update buf.initial i bp j).b)) =
      js.map fun j => ((buf.initial j).node, (buf.initial j).b) := by
    intro js hjs
    refine List.map_congr_left fun j hj => ?_
    have hji : j ≠ i := by
      rintro rfl
      exact hjs hj
    rw [Function.update_of_ne hji]
  refine ⟨_, _, by rw [hrange, List.map_append, List.map_cons], ?_⟩
  rw [hrange, List.map_append, List.map_cons, hsame as hout.1, hsame cs hout.2,
    Function.update_self]

/-- **One fact more**: the groups grow by it, whether its destination is in the array, in the map or
new. -/
theorem Fits.add {buf : Buffer} (h : Fits buf) (n : ℕ) (tpl : Tuple) (pred : WorkPredicate) :
    Fits (buf.add n tpl pred) ∧
      Grows n (addIntoBufferNode tpl pred) buf.sends (buf.add n tpl pred).sends := by
  rw [h.sends_eq, Buffer.add]
  split
  · rename_i i hfind
    have hi : i < buf.sizeInitial := List.mem_range.mp (List.mem_of_find?_eq_some hfind)
    have hnode : (buf.initial i).node = n := by simpa using List.find?_some hfind
    have hfits : Fits (.mk (Function.update buf.initial i
        ⟨(buf.initial i).node, addIntoBufferNode tpl pred (buf.initial i).b⟩)
        buf.sizeInitial buf.facts) := ⟨h.size_le, h.spill⟩
    refine ⟨hfits, ?_⟩
    rw [hfits.sends_eq]
    obtain ⟨l, r, hold, hnew⟩ := @map_range_update buf _ _ hi
      ⟨(buf.initial i).node, addIntoBufferNode tpl pred (buf.initial i).b⟩
    rw [inline, inline, hold, hnew, hnode, List.append_assoc, List.append_assoc]
    exact .old l _ (r ++ buf.facts)
  · rename_i hfind
    have hout : n ∉ buf.inline.map Prod.fst := by
      rw [inline, List.map_map, List.mem_map]
      rintro ⟨i, hi, hnode⟩
      have := List.find?_eq_none.mp hfind i hi
      exact this (by simpa using hnode)
    split
    · rename_i hlots
      have hfits : Fits (.mk buf.initial buf.sizeInitial (modifyNode n (addIntoBufferNode tpl pred)
          (if buf.facts.any (·.1 == n) then buf.facts else insertNode n buf.facts))) :=
        ⟨h.size_le, fun hno => absurd (hlots.symm.trans hno) (by decide)⟩
      refine ⟨hfits, ?_⟩
      rw [hfits.sends_eq]
      exact (grows_facts n _ buf.facts).append_left hout
    · rename_i hlots
      have hempty := h.spill (by simpa using hlots)
      have hlt : buf.sizeInitial < maxVmBuffer := by
        rw [lotsOfNodes, beq_iff_eq] at hlots
        exact lt_of_le_of_ne h.size_le hlots
      have hfits : Fits (.mk
          (Function.update buf.initial buf.sizeInitial ⟨n, addIntoBufferNode tpl pred []⟩)
          (buf.sizeInitial + 1) buf.facts) := ⟨hlt, fun _ => hempty⟩
      refine ⟨hfits, ?_⟩
      rw [hfits.sends_eq]
      have hinline : inline (.mk
          (Function.update buf.initial buf.sizeInitial ⟨n, addIntoBufferNode tpl pred []⟩)
          (buf.sizeInitial + 1) buf.facts) =
          buf.inline ++ [(n, addIntoBufferNode tpl pred [])] := by
        rw [inline, inline, List.range_succ, List.map_append, List.map_singleton]
        dsimp only
        rw [Function.update_self]
        refine congrArg (· ++ _) (List.map_congr_left fun j hj => ?_)
        rw [Function.update_of_ne (Nat.ne_of_lt (List.mem_range.mp hj))]
      rw [hinline, List.append_assoc]
      refine .new buf.inline buf.facts ?_
      rw [hempty, List.append_nil]
      exact hout

/-! ## The facts of a run -/

/-- The buffer after the facts `fs` of a run: every destination has one group, with its facts. -/
structure Buffered (P : WorkProgram) (buf : Buffer) (fs : List BufferedFact) : Prop where
  fits : Fits buf
  nodup : (buf.sends.map Prod.fst).Nodup
  groups : ∀ e ∈ buf.sends, GroupsOk P e.2
  facts : ∀ e ∈ buf.sends, (e.2.flatMap BufferItem.facts).Perm (factsTo e.1 fs)
  mem_sends : ∀ n, n ∈ buf.sends.map Prod.fst ↔ ∃ f ∈ fs, f.node = n

theorem factsTo_append_self (f : BufferedFact) (fs : List BufferedFact) :
    (factsTo f.node (fs ++ [f])).Perm (⟨f.tpl, f.pred, .positive, 0⟩ :: factsTo f.node fs) := by
  rw [factsTo, List.filter_append, List.map_append]
  have h : [f].filter (·.node == f.node) = [f] := by simp
  rw [h, factsTo]
  exact List.perm_append_comm

theorem factsTo_append_of_ne {n : ℕ} {f : BufferedFact} (h : f.node ≠ n)
    (fs : List BufferedFact) : factsTo n (fs ++ [f]) = factsTo n fs := by
  simp [factsTo, h]

theorem factsTo_eq_nil {n : ℕ} {fs : List BufferedFact} (h : ∀ f ∈ fs, f.node ≠ n) :
    factsTo n fs = [] := by
  rw [factsTo, List.map_eq_nil_iff, List.filter_eq_nil_iff]
  intro f hf
  simpa using h f hf

/-- Both ways to grow, read together: one group is that of the destination, the others are old. -/
theorem Grows.split {n : ℕ} {f : BufferNode → BufferNode} {es es' : List (ℕ × BufferNode)}
    (h : Grows n f es es') (hnodup : (es.map Prod.fst).Nodup) :
    ∃ l b r, es' = l ++ (n, f b) :: r ∧ ((n, b) ∈ es ∨ b = [] ∧ n ∉ es.map Prod.fst) ∧
      (∀ e ∈ l ++ r, e ∈ es) ∧ (∀ k ∈ es.map Prod.fst, k = n ∨ k ∈ (l ++ r).map Prod.fst) ∧
      n ∉ (l ++ r).map Prod.fst ∧ ((l ++ r).map Prod.fst).Nodup := by
  cases h with
  | old l b r =>
    rw [List.map_append, List.map_cons, List.nodup_middle, List.nodup_cons,
      ← List.map_append] at hnodup
    refine ⟨l, b, r, rfl, Or.inl (by simp), ?_, ?_, hnodup.1, hnodup.2⟩
    · intro e he
      rcases List.mem_append.mp he with he | he
      · exact List.mem_append_left _ he
      · exact List.mem_append_right _ (List.mem_cons_of_mem _ he)
    · intro k hk
      rw [List.map_append, List.map_cons, List.mem_append, List.mem_cons] at hk
      rw [List.map_append, List.mem_append]
      rcases hk with hk | hk | hk
      · exact Or.inr (Or.inl hk)
      · exact Or.inl hk
      · exact Or.inr (Or.inr hk)
  | new l r hnot =>
    exact ⟨l, [], r, rfl, Or.inr ⟨rfl, hnot⟩, fun e he => he, fun k hk => Or.inr hk, hnot, hnodup⟩

/-- Buffering one more fact. -/
theorem Buffered.add {buf : Buffer} {fs : List BufferedFact} (h : Buffered P buf fs)
    {f : BufferedFact} (hf : f.Valid P) :
    Buffered P (buf.add f.node f.tpl f.pred) (fs ++ [f]) := by
  obtain ⟨hfits, hgrows⟩ := h.fits.add f.node f.tpl f.pred
  obtain ⟨l, b, r, hsends, hb, hold, hkeys, hnot, hnodup⟩ := hgrows.split h.nodup
  have hbgroups : GroupsOk P b := by
    rcases hb with hb | ⟨rfl, -⟩
    · exact h.groups _ hb
    · exact fun i hi => absurd hi List.not_mem_nil
  have hbfacts : (b.flatMap BufferItem.facts).Perm (factsTo f.node fs) := by
    rcases hb with hb | ⟨rfl, hnew⟩
    · exact h.facts _ hb
    · rw [factsTo_eq_nil fun g hg hgn => hnew ((h.mem_sends _).mpr ⟨g, hg, hgn⟩)]
      exact List.Perm.refl _
  have hmem : ∀ e ∈ l ++ (f.node, addIntoBufferNode f.tpl f.pred b) :: r,
      e = (f.node, addIntoBufferNode f.tpl f.pred b) ∨ e ∈ l ++ r := by
    intro e he
    rw [List.mem_append, List.mem_cons] at he
    rw [List.mem_append]
    rcases he with he | he | he
    · exact Or.inr (Or.inl he)
    · exact Or.inl he
    · exact Or.inr (Or.inr he)
  refine ⟨hfits, ?_, ?_, ?_, ?_⟩
  · rw [hsends, List.map_append, List.map_cons, List.nodup_middle, List.nodup_cons,
      ← List.map_append]
    exact ⟨hnot, hnodup⟩
  · intro e he
    rcases hmem e (hsends ▸ he) with rfl | he
    · exact hbgroups.addIntoBufferNode hf.1 hf.2
    · exact h.groups e (hold e he)
  · intro e he
    rcases hmem e (hsends ▸ he) with rfl | he
    · exact ((facts_addIntoBufferNode f.tpl f.pred b).trans (hbfacts.cons _)).trans
        (factsTo_append_self f fs).symm
    · have hne : f.node ≠ e.1 := fun heq => hnot (heq ▸ List.mem_map_of_mem he)
      rw [factsTo_append_of_ne hne]
      exact h.facts e (hold e he)
  · intro n
    have hsplit : n ∈ (l ++ (f.node, addIntoBufferNode f.tpl f.pred b) :: r).map Prod.fst ↔
        f.node = n ∨ n ∈ (l ++ r).map Prod.fst := by
      rw [List.map_append, List.map_cons, List.map_append, List.mem_append, List.mem_cons,
        List.mem_append, or_left_comm, eq_comm]
    rw [hsends, hsplit]
    constructor
    · rintro (hn | hn)
      · exact ⟨f, List.mem_append_right _ (List.mem_singleton_self f), hn⟩
      · obtain ⟨e, he, rfl⟩ := List.mem_map.mp hn
        obtain ⟨g, hg, hge⟩ := (h.mem_sends e.1).mp (List.mem_map_of_mem (hold e he))
        exact ⟨g, List.mem_append_left _ hg, hge⟩
    · rintro ⟨g, hg, rfl⟩
      rcases List.mem_append.mp hg with hg | hg
      · exact (hkeys _ ((h.mem_sends _).mpr ⟨g, hg, rfl⟩)).imp Eq.symm id
      · exact Or.inl (by rw [List.mem_singleton.mp hg])

/-- Nothing is buffered: this is what a run finds and leaves. -/
structure Idle (buf : Buffer) : Prop where
  size : buf.sizeInitial = 0
  facts : buf.facts = []

theorem Idle.buffered {buf : Buffer} (h : Idle buf) : Buffered P buf [] := by
  have hfits : Fits buf := ⟨h.size ▸ Nat.zero_le _, fun _ => h.facts⟩
  have hsends : buf.sends = [] := by
    rw [hfits.sends_eq, inline, h.size, h.facts]
    rfl
  refine ⟨hfits, ?_, ?_, ?_, ?_⟩
  · rw [hsends]
    exact List.nodup_nil
  · rw [hsends]
    exact fun e he => absurd he List.not_mem_nil
  · rw [hsends]
    exact fun e he => absurd he List.not_mem_nil
  · rw [hsends]
    simp

/-- **Buffering the facts of a run**, by induction on them. -/
theorem Buffered.foldl {buf : Buffer} {fs gs : List BufferedFact} (h : Buffered P buf fs)
    (hgs : ∀ g ∈ gs, g.Valid P) :
    Buffered P (gs.foldl (fun buf f => buf.add f.node f.tpl f.pred) buf) (fs ++ gs) := by
  induction gs generalizing buf fs with
  | nil => rwa [List.append_nil]
  | cons g gs ih =>
    have hrest := ih (h.add (hgs g List.mem_cons_self)) fun k hk =>
      hgs k (List.mem_cons_of_mem _ hk)
    rwa [List.append_assoc] at hrest

theorem Fits.clear {buf : Buffer} (h : Fits buf) : Idle buf.clear := by
  refine ⟨rfl, ?_⟩
  rw [Buffer.clear]
  dsimp only
  split
  · rfl
  · rename_i hlots
    exact h.spill (by simpa using hlots)

end Buffer

/-! ## Sending -/

section Sending

open Buffer

variable {P : WorkProgram} {nodes : ℕ → DbNode} {M : ℕ → ℕ → Multiset Tuple}

/-- The facts of a delivery may be read in any order. -/
theorem Delivered.perm {F G : List WorkFact} {n n' : DbNode} {M M' : ℕ → Multiset Tuple}
    (h : Delivered P F n M n' M') (hFG : F.Perm G) : Delivered P G n M n' M' := by
  refine ⟨h.ok, ?_, ?_, ?_, ?_⟩
  · intro pred hpred
    rw [h.linear pred hpred, linearTuples_perm hFG]
  · rw [h.persistent, persistentTuples_perm hFG]
  · rw [h.action, actionTuples_perm hFG]
  · obtain ⟨ids, hids, hm, hp, hnew⟩ := h.matcher
    refine ⟨ids, hids, hm, fun p => ?_, hnew⟩
    rw [hp p, (storedIds_perm hFG).mem_iff]

/-- One `new_work_list`, on either way. -/
theorem newWorkList_delivered {target : ℕ} (ok : NodeOk P (nodes target) (M target)) (now : Bool)
    {b : BufferNode} (hb : GroupsOk P b) :
    ∃ n' M', newWorkList P nodes now target b = some (Function.update nodes target n') ∧
      Delivered P (b.flatMap BufferItem.facts) (nodes target) (M target) n' M' := by
  cases now with
  | true =>
    obtain ⟨n', M', hrun, hd⟩ := run_delivered ok (d := .myself (.buffer b)) hb
    refine ⟨n', M', ?_, hd⟩
    have hrun' : (nodes target).addBufferMyself P b = some n' := hrun
    simp [newWorkList, hrun']
  | false =>
    obtain ⟨n', M', hrun, hd⟩ := run_delivered ok (d := .others (.buffer b)) hb
    refine ⟨n', M', ?_, hd⟩
    have hrun' : (nodes target).addBufferOthers b = n' := Option.some.inj hrun
    simp [newWorkList, hrun']

/-- The loops of `sync`, by induction on the groups: every destination gets its group, and the other
nodes are left alone. -/
theorem sendAll_delivered (ok : ∀ n, NodeOk P (nodes n) (M n)) (now : ℕ → Bool)
    {es : List (ℕ × BufferNode)} (hnodup : (es.map Prod.fst).Nodup)
    (hgroups : ∀ e ∈ es, GroupsOk P e.2) :
    ∃ nodes', sendAll P nodes now es = some nodes' ∧
      (∀ e ∈ es, ∃ M', Delivered P (e.2.flatMap BufferItem.facts) (nodes e.1) (M e.1)
        (nodes' e.1) M') ∧
      ∀ n ∉ es.map Prod.fst, nodes' n = nodes n := by
  induction es generalizing nodes M now with
  | nil => exact ⟨nodes, rfl, fun e he => absurd he List.not_mem_nil, fun _ _ => rfl⟩
  | cons e es ih =>
    rw [List.map_cons, List.nodup_cons] at hnodup
    obtain ⟨n', M', hnew, hd⟩ :=
      newWorkList_delivered (ok e.1) (now 0) (hgroups e List.mem_cons_self)
    have ok' : ∀ n, NodeOk P (Function.update nodes e.1 n' n) (Function.update M e.1 M' n) := by
      intro n
      by_cases hn : n = e.1
      · rw [hn, Function.update_self, Function.update_self]
        exact hd.ok
      · rw [Function.update_of_ne hn, Function.update_of_ne hn]
        exact ok n
    obtain ⟨nodes', hsend, hdel, hsame⟩ := ih ok' (fun k => now (k + 1)) hnodup.2
      fun g hg => hgroups g (List.mem_cons_of_mem _ hg)
    refine ⟨nodes', ?_, ?_, ?_⟩
    · rw [sendAll, hnew]
      exact hsend
    · intro g hg
      rcases List.mem_cons.mp hg with rfl | hg
      · refine ⟨M', ?_⟩
        rw [hsame g.1 hnodup.1, Function.update_self]
        exact hd
      · have hne : g.1 ≠ e.1 := fun heq => hnodup.1 (heq ▸ List.mem_map_of_mem hg)
        obtain ⟨N, hN⟩ := hdel g hg
        rw [Function.update_of_ne hne, Function.update_of_ne hne] at hN
        exact ⟨N, hN⟩
    · intro n hn
      rw [List.map_cons, List.mem_cons, not_or] at hn
      rw [hsame n hn.2, Function.update_of_ne hn.1]

/-- The run of a node whose buffer is idle. -/
theorem Buffer.Idle.runNode {buf : Buffer} (hidle : Idle buf) (ok : ∀ n, NodeOk P (nodes n) (M n))
    {fs : List BufferedFact} (hfs : ∀ f ∈ fs, f.Valid P) (now : ℕ → Bool) :
    ∃ nodes' buf', runNode P nodes buf fs now = some (nodes', buf') ∧ Idle buf' ∧
      (∀ n, ∃ M', Delivered P (factsTo n fs) (nodes n) (M n) (nodes' n) M') ∧
      ∀ n, (∀ f ∈ fs, f.node ≠ n) → nodes' n = nodes n := by
  have hbuf : Buffered P (fs.foldl (fun buf f => buf.add f.node f.tpl f.pred) buf) fs :=
    hidle.buffered.foldl hfs
  obtain ⟨nodes', hsend, hdel, hsame⟩ := sendAll_delivered ok now hbuf.nodup hbuf.groups
  refine ⟨nodes', _, ?_, hbuf.fits.clear, ?_, ?_⟩
  · rw [Meld.runNode, sync, hsend]
    rfl
  · intro n
    by_cases hn : n ∈ (fs.foldl (fun buf f => buf.add f.node f.tpl f.pred) buf).sends.map Prod.fst
    · obtain ⟨e, he, rfl⟩ := List.mem_map.mp hn
      obtain ⟨M', hd⟩ := hdel e he
      exact ⟨M', hd.perm (hbuf.facts e he)⟩
    · rw [hsame n hn, factsTo_eq_nil fun f hf heq => hn ((hbuf.mem_sends n).mpr ⟨f, hf, heq⟩)]
      exact ⟨M n, Delivered.refl (ok n)⟩
  · intro n hn
    refine hsame n fun hmem => ?_
    obtain ⟨f, hf, heq⟩ := (hbuf.mem_sends n).mp hmem
    exact hn f hf heq

theorem BufferReach.idle {buf : Buffer} (h : BufferReach P buf) : Idle buf := by
  induction h with
  | create initial => exact ⟨rfl, rfl⟩
  | run hr hfs hrun ih =>
    rename_i buf buf' nodes nodes' fs now
    have hbuf : Buffered P (fs.foldl (fun buf f => buf.add f.node f.tpl f.pred) buf) fs :=
      ih.buffered.foldl hfs
    rw [Meld.runNode, sync] at hrun
    simp only [Option.bind_eq_bind, Option.bind_eq_some_iff, Option.some.injEq,
      Prod.mk.injEq] at hrun
    obtain ⟨-, -, -, rfl⟩ := hrun
    exact hbuf.fits.clear

/-- **Every buffered fact is delivered once.**  After any number of runs, with any numbers of
destinations, the next run delivers its own facts: every node receives the facts that were buffered
for it, under their predicates and each once, and nothing else, whichever way each group goes.  The
buffer is then ready for the next run. -/
theorem runNode_delivers {buf : Buffer} (hbuf : BufferReach P buf)
    (ok : ∀ n, NodeOk P (nodes n) (M n)) {fs : List BufferedFact} (hfs : ∀ f ∈ fs, f.Valid P)
    (now : ℕ → Bool) :
    ∃ nodes' buf', runNode P nodes buf fs now = some (nodes', buf') ∧ BufferReach P buf' ∧
      (∀ n, ∃ M', Delivered P (factsTo n fs) (nodes n) (M n) (nodes' n) M') ∧
      ∀ n, (∀ f ∈ fs, f.node ≠ n) → nodes' n = nodes n := by
  obtain ⟨nodes', buf', hrun, -, hdel, hsame⟩ := hbuf.idle.runNode ok hfs now
  exact ⟨nodes', buf', hrun, .run hbuf hfs hrun, hdel, hsame⟩

end Sending

/-- Facts of the linear predicate, one for each of the nodes below `k`. -/
def oneFactEach (k : ℕ) : List BufferedFact :=
  (List.range k).map fun n => ⟨n, [.int 5], ⟨0, true, false, false, ⟨0, true, 0⟩⟩⟩

theorem oneFactEach_valid (k : ℕ) : ∀ f ∈ oneFactEach k, f.Valid threeKinds := by
  intro f hf
  obtain ⟨n, -, rfl⟩ := List.mem_map.mp hf
  exact ⟨List.mem_cons_self, rfl⟩

/-- Two runs, the first with more destinations than the array has places. -/
theorem runNode_delivers_twice :
    ∃ nodes₁ buf₁ nodes₂ buf₂,
      runNode threeKinds (fun _ => .create threeKinds) ⟨fun _ => ⟨0, []⟩, 0, []⟩ (oneFactEach 9)
        (fun _ => true) = some (nodes₁, buf₁) ∧
      runNode threeKinds nodes₁ buf₁ (oneFactEach 2) (fun _ => false) = some (nodes₂, buf₂) ∧
      ∀ n, ∃ M M', Delivered threeKinds (factsTo n (oneFactEach 2)) (nodes₁ n) M (nodes₂ n) M' := by
  obtain ⟨nodes₁, buf₁, hrun₁, hbuf₁, hdel₁, -⟩ := runNode_delivers
    (BufferReach.create fun _ => ⟨0, []⟩) (fun _ => nodeOk_create threeKinds)
    (oneFactEach_valid 9) fun _ => true
  choose M hM using hdel₁
  obtain ⟨nodes₂, buf₂, hrun₂, -, hdel₂, -⟩ := runNode_delivers hbuf₁ (fun n => (hM n).ok)
    (oneFactEach_valid 2) fun _ => false
  refine ⟨nodes₁, buf₁, nodes₂, buf₂, hrun₁, hrun₂, fun n => ?_⟩
  obtain ⟨M', hd⟩ := hdel₂ n
  exact ⟨M n, M', hd⟩

end Meld
