import Mathlib.Data.Finset.Card
import Mathlib.Data.Finset.Filter
import Mathlib.Order.Interval.Finset.Nat

/-!
# The tree barrier

The threads of the barrier are the nodes of a tree, numbered in the order in which `build` visits
them.  A thread that waits first waits for its children, resets its own counter, then counts itself
at its parent and spins on a bit that all threads share; the root flips that bit.

* `build`, `treeBarrier`: the tree.  `depthOf` is the loop that computes its depth.
* `BarrierPc`, `step`: the atomic reads and writes of `wait`, one thread at a time.  The numbers of
  calls entered and returned are kept beside the state of the code.
* `treeBarrier_wellFormed`: **every thread has a node whose counter is the number of its
  children**, and parents come before their children.
-/

namespace Meld

/-- The constant fields of `inner_node`. -/
structure InnerNode where
  parent : Option ℕ
  count : ℕ
  deriving DecidableEq

/-- `num_nodes` and the array `node` while the tree is built. -/
structure TreeBuilder where
  numNodes : ℕ
  node : ℕ → Option InnerNode

namespace TreeBuilder

/-- `node[this_id] = new inner_node(..)`. -/
def add (b : TreeBuilder) (parent : Option ℕ) (count : ℕ) : TreeBuilder where
  numNodes := b.numNodes + 1
  node := Function.update b.node b.numNodes (some ⟨parent, count⟩)

/-- `set_count`. -/
def setCount (b : TreeBuilder) (id count : ℕ) : TreeBuilder :=
  { b with node := Function.update b.node id ((b.node id).map fun n => { n with count := count }) }

/-- The loop over the children: how many of `n` calls returned `true`. -/
def children (call : TreeBuilder → Bool × TreeBuilder) : ℕ → TreeBuilder → ℕ × TreeBuilder
  | 0, b => (0, b)
  | n + 1, b =>
    let r := children call n b
    let q := call r.2
    (if q.1 then r.1 + 1 else r.1, q.2)

/-- `build`. -/
def build (size radix : ℕ) : ℕ → Option ℕ → TreeBuilder → Bool × TreeBuilder
  | 0, parent, b => if b.numNodes = size then (false, b) else (true, b.add parent 0)
  | depth + 1, parent, b =>
    if b.numNodes = size then (false, b)
    else
      let r := children (build size radix depth (some b.numNodes)) radix (b.add parent radix)
      (true, if r.1 ≠ radix then r.2.setCount b.numNodes r.1 else r.2)

end TreeBuilder

/-- The loop of the constructor that computes the depth.  Every round divides `s`, so that `s`
rounds are enough. -/
def depthLoop (radix : ℕ) : ℕ → ℕ → ℕ
  | 0, _ => 0
  | fuel + 1, s => if 1 < s then depthLoop radix fuel (s / radix) + 1 else 0

/-- The depth of a tree with `s` nodes. -/
def depthOf (radix s : ℕ) : ℕ := depthLoop radix s s

/-- The constructor of `tree_barrier`: the nodes of the tree. -/
def treeBarrier (size radix : ℕ) : ℕ → Option InnerNode :=
  (TreeBuilder.build size radix (depthOf radix size) none ⟨0, fun _ => none⟩).2.node

/-- Where a thread is in `wait`; the argument is `my_sense`. -/
inductive BarrierPc where
  | outside
  /-- `while(children_count > 0)` -/
  | spinChildren (mySense : Bool)
  /-- `children_count = count` -/
  | reset (mySense : Bool)
  /-- `parent->children_count--`, or the read of `outer->sense` at the root -/
  | signal (mySense : Bool)
  /-- `outer->sense = !read` -/
  | flip (mySense read : Bool)
  /-- `assert(outer->sense == my_sense)` -/
  | check (mySense : Bool)
  /-- `while(outer->sense != my_sense)` -/
  | spinSense (mySense : Bool)
  /-- `thread_sense = !my_sense` -/
  | leave (mySense : Bool)
  /-- the assertion has failed -/
  | aborted
  deriving DecidableEq

/-- The shared state, the threads, and the calls of `wait` entered and returned by each. -/
structure BarrierState where
  childrenCount : ℕ → ℕ
  sense : Bool
  threadSense : ℕ → Bool
  pc : ℕ → BarrierPc
  entered : ℕ → ℕ
  returned : ℕ → ℕ

namespace BarrierState

/-- The state after the constructor. -/
def init (node : ℕ → Option InnerNode) : BarrierState where
  childrenCount id := ((node id).map InnerNode.count).getD 0
  sense := false
  threadSense _ := true
  pc _ := .outside
  entered _ := 0
  returned _ := 0

/-- Thread `id` goes on at `pc`. -/
def goto (s : BarrierState) (id : ℕ) (pc : BarrierPc) : BarrierState :=
  { s with pc := Function.update s.pc id pc }

/-- `children_count--` of a `size_t`. -/
def decrement (c : ℕ) : ℕ := if c = 0 then 2 ^ 64 - 1 else c - 1

/-- **One atomic access of thread `id`**, whose node is `n`. -/
def step (s : BarrierState) (id : ℕ) (n : InnerNode) : BarrierState :=
  match s.pc id with
  | .outside =>
    { s.goto id (.spinChildren (s.threadSense id)) with
      entered := Function.update s.entered id (s.entered id + 1) }
  | .spinChildren b => if 0 < s.childrenCount id then s else s.goto id (.reset b)
  | .reset b =>
    { s.goto id (.signal b) with
      childrenCount := Function.update s.childrenCount id n.count }
  | .signal b =>
    match n.parent with
    | some p =>
      { s.goto id (.spinSense b) with
        childrenCount := Function.update s.childrenCount p (decrement (s.childrenCount p)) }
    | none => s.goto id (.flip b s.sense)
  | .flip b read => { s.goto id (.check b) with sense := !read }
  | .check b => s.goto id (if s.sense = b then .leave b else .aborted)
  | .spinSense b => if s.sense ≠ b then s else s.goto id (.leave b)
  | .leave b =>
    { s.goto id .outside with
      threadSense := Function.update s.threadSense id (!b)
      returned := Function.update s.returned id (s.returned id + 1) }
  | .aborted => s

/-- The states of a barrier for `size` threads: at every moment any thread may go on. -/
inductive Reach (size : ℕ) : BarrierState → Prop
  | init : Reach size (init (treeBarrier size 2))
  | step {s : BarrierState} (id : ℕ) (n : InnerNode) (h : Reach size s) (hid : id < size)
      (hn : treeBarrier size 2 id = some n) : Reach size (s.step id n)

end BarrierState

/-! ## The tree -/

namespace TreeBuilder

/-- The parent of a node, if there is one. -/
def parentOf (node : ℕ → Option InnerNode) (c : ℕ) : Option ℕ := (node c).bind InnerNode.parent

/-- The number of children of `id` among the nodes of an interval. -/
def childrenIn (node : ℕ → Option InnerNode) (lo hi id : ℕ) : ℕ :=
  ((Finset.Ico lo hi).filter fun c => parentOf node c = some id).card

/-- The nodes from `lo` to `hi` are trees whose roots have the parent `this`. -/
structure Forest (node : ℕ → Option InnerNode) (lo hi : ℕ) (this : ℕ) : Prop where
  parent : ∀ id, lo ≤ id → id < hi →
    ∃ n p, node id = some n ∧ n.parent = some p ∧ p < id ∧ (p = this ∨ lo ≤ p)
  count : ∀ id n, lo ≤ id → id < hi → node id = some n → n.count = childrenIn node lo hi id

/-- The nodes from `lo` to `hi` are one tree with the root `lo`, or there are none. -/
structure Block (node : ℕ → Option InnerNode) (lo hi : ℕ) (parent : Option ℕ) : Prop where
  root : lo < hi → ∃ n, node lo = some n ∧ n.parent = parent
  inner : ∀ id, lo < id → id < hi → ∃ n p, node id = some n ∧ n.parent = some p ∧ lo ≤ p ∧ p < id
  count : ∀ id n, lo ≤ id → id < hi → node id = some n → n.count = childrenIn node lo hi id

variable {node node' : ℕ → Option InnerNode} {lo mid hi this id : ℕ} {parent : Option ℕ}

theorem parentOf_congr {c : ℕ} (h : node' c = node c) : parentOf node' c = parentOf node c := by
  rw [parentOf, parentOf, h]

/-- The children in an interval are a fact about the nodes of the interval. -/
theorem childrenIn_congr (h : ∀ c, lo ≤ c → c < hi → node' c = node c) :
    childrenIn node' lo hi id = childrenIn node lo hi id := by
  rw [childrenIn, childrenIn]
  refine congrArg Finset.card (Finset.filter_congr fun c hc => ?_)
  rw [Finset.mem_Ico] at hc
  rw [parentOf_congr (h c hc.1 hc.2)]

/-- Two neighbouring intervals. -/
theorem childrenIn_append (hlo : lo ≤ mid) (hhi : mid ≤ hi) :
    childrenIn node lo hi id = childrenIn node lo mid id + childrenIn node mid hi id := by
  rw [childrenIn, childrenIn, childrenIn, ← Finset.Ico_union_Ico_eq_Ico hlo hhi,
    Finset.filter_union, Finset.card_union_of_disjoint]
  exact Finset.disjoint_filter_filter (Finset.Ico_disjoint_Ico_consecutive lo mid hi)

/-- An interval without children. -/
theorem childrenIn_eq_zero (h : ∀ c, lo ≤ c → c < hi → parentOf node c ≠ some id) :
    childrenIn node lo hi id = 0 := by
  rw [childrenIn, Finset.card_eq_zero, Finset.filter_eq_empty_iff]
  intro c hc
  rw [Finset.mem_Ico] at hc
  exact h c hc.1 hc.2

theorem Forest.congr (h : Forest node lo hi this) (heq : ∀ c, lo ≤ c → c < hi → node' c = node c) :
    Forest node' lo hi this := by
  refine ⟨fun id h1 h2 => ?_, fun id n h1 h2 hn => ?_⟩
  · rw [heq id h1 h2]
    exact h.parent id h1 h2
  · rw [heq id h1 h2] at hn
    rw [childrenIn_congr heq]
    exact h.count id n h1 h2 hn

/-- The parent of a node of a block. -/
theorem Block.parentOf_cases (h : Block node lo hi parent) {c : ℕ} (hlo : lo ≤ c) (hhi : c < hi) :
    (c = lo ∧ parentOf node c = parent) ∨ ∃ p, parentOf node c = some p ∧ lo ≤ p ∧ p < c := by
  rcases Nat.eq_or_lt_of_le hlo with heq | hlt
  · subst heq
    obtain ⟨n, hn, hp⟩ := h.root hhi
    refine Or.inl ⟨rfl, ?_⟩
    rw [parentOf, hn]
    exact hp
  · obtain ⟨n, p, hn, hp, hle, hlt'⟩ := h.inner c hlt hhi
    refine Or.inr ⟨p, ?_, hle, hlt'⟩
    rw [parentOf, hn]
    exact hp

/-- **A tree is put behind a forest.** -/
theorem Forest.append (h : Forest node lo mid this) (hb : Block node mid hi (some this))
    (hthis : this < lo) (hlo : lo ≤ mid) (hhi : mid ≤ hi) : Forest node lo hi this := by
  refine ⟨fun id h1 h2 => ?_, fun id n h1 h2 hn => ?_⟩
  · by_cases hid : id < mid
    · exact h.parent id h1 hid
    · rcases Nat.eq_or_lt_of_le (Nat.le_of_not_lt hid) with rfl | hlt
      · obtain ⟨n, hn, hp⟩ := hb.root h2
        exact ⟨n, this, hn, hp, by omega, Or.inl rfl⟩
      · obtain ⟨n, p, hn, hp, hle, hlt'⟩ := hb.inner id hlt h2
        exact ⟨n, p, hn, hp, hlt', Or.inr (by omega)⟩
  · rw [childrenIn_append hlo hhi]
    by_cases hid : id < mid
    · -- no node of the tree has a parent inside the forest
      have hzero : childrenIn node mid hi id = 0 := by
        refine childrenIn_eq_zero fun c hc1 hc2 hc => ?_
        rcases hb.parentOf_cases hc1 hc2 with ⟨-, hp⟩ | ⟨p, hp, hle, -⟩
        · rw [hc, Option.some_inj] at hp
          omega
        · rw [hc, Option.some_inj] at hp
          omega
      rw [hzero, Nat.add_zero]
      exact h.count id n h1 hid hn
    · -- and no node of the forest has one inside the tree
      have hzero : childrenIn node lo mid id = 0 := by
        refine childrenIn_eq_zero fun c hc1 hc2 hc => ?_
        obtain ⟨m, p, hm, hp, hlt, -⟩ := h.parent c hc1 hc2
        rw [parentOf, hm, Option.bind_some, hp, Option.some_inj] at hc
        omega
      rw [hzero, Nat.zero_add]
      exact hb.count id n (by omega) h2 hn

/-- The roots of a tree behind a forest. -/
theorem childrenIn_block (hb : Block node mid hi (some this)) (hthis : this < mid) :
    childrenIn node mid hi this = if mid < hi then 1 else 0 := by
  by_cases hlt : mid < hi
  · rw [if_pos hlt, childrenIn, Finset.card_eq_one]
    refine ⟨mid, ?_⟩
    ext c
    rw [Finset.mem_filter, Finset.mem_Ico, Finset.mem_singleton]
    constructor
    · rintro ⟨⟨hc1, hc2⟩, hc⟩
      rcases hb.parentOf_cases hc1 hc2 with ⟨heq, -⟩ | ⟨p, hp, hle, -⟩
      · exact heq
      · rw [hc, Option.some_inj] at hp
        omega
    · rintro rfl
      obtain ⟨n, hn, hp⟩ := hb.root hlt
      refine ⟨⟨le_refl _, hlt⟩, ?_⟩
      rw [parentOf, hn]
      exact hp
  · rw [if_neg hlt]
    exact childrenIn_eq_zero fun c hc1 hc2 => absurd hc2 (by omega)

/-- The number of nodes of a full tree. -/
def nodesOf (radix : ℕ) : ℕ → ℕ
  | 0 => 1
  | depth + 1 => 1 + radix * nodesOf radix depth

/-- What a call of `build` from `b` returns when it has room for `total` nodes. -/
structure Built (size : ℕ) (b : TreeBuilder) (parent : Option ℕ) (total : ℕ)
    (r : Bool × TreeBuilder) : Prop where
  flag : r.1 = decide (b.numNodes < size)
  num : r.2.numNodes = min size (b.numNodes + total)
  frame : ∀ c, c < b.numNodes → r.2.node c = b.node c
  block : Block r.2.node b.numNodes r.2.numNodes parent

/-- The loop over the children of `this`, from `b` on. -/
structure Looped (size : ℕ) (b : TreeBuilder) (this total : ℕ) (r : ℕ × TreeBuilder) : Prop where
  num : r.2.numNodes = min size (b.numNodes + total)
  frame : ∀ c, c < b.numNodes → r.2.node c = b.node c
  forest : Forest r.2.node b.numNodes r.2.numNodes this
  roots : r.1 = childrenIn r.2.node b.numNodes r.2.numNodes this

variable {size radix total : ℕ} {b : TreeBuilder}

/-- A tree that is full already. -/
theorem built_full (hfull : b.numNodes = size) : Built size b parent total (false, b) := by
  refine ⟨by simp [hfull], ?_, fun _ _ => rfl, fun h => absurd h (lt_irrefl _),
    fun id h1 h2 => absurd h2 (Nat.lt_asymm h1), fun id n h1 h2 => absurd h2 (Nat.not_lt.mpr h1)⟩
  show b.numNodes = min size (b.numNodes + total)
  omega

/-- **The loop over the children**, by induction on the number of calls. -/
theorem looped_children {call : TreeBuilder → Bool × TreeBuilder}
    (hcall : ∀ b', b'.numNodes ≤ size → this < b'.numNodes →
      Built size b' (some this) total (call b'))
    (htotal : 0 < total) (hb : b.numNodes ≤ size) (hthis : this < b.numNodes) (n : ℕ) :
    Looped size b this (n * total) (children call n b) := by
  induction n with
  | zero =>
    refine ⟨?_, fun _ _ => rfl, ⟨fun id h1 h2 => absurd h2 (Nat.not_lt.mpr h1),
      fun id m h1 h2 => absurd h2 (Nat.not_lt.mpr h1)⟩, ?_⟩
    · show b.numNodes = min size (b.numNodes + 0 * total)
      omega
    · exact (childrenIn_eq_zero fun c h1 h2 => absurd h2 (Nat.not_lt.mpr h1)).symm
  | succ n ih =>
    rw [children]
    obtain ⟨r, hr⟩ : ∃ r, r = children call n b := ⟨_, rfl⟩
    rw [← hr] at ih ⊢
    have hle : r.2.numNodes ≤ size := by
      rw [ih.num]
      exact Nat.min_le_left _ _
    have hge : b.numNodes ≤ r.2.numNodes := by
      rw [ih.num]
      omega
    have hq := hcall r.2 hle (lt_of_lt_of_le hthis hge)
    have hge' : r.2.numNodes ≤ (call r.2).2.numNodes := by
      rw [hq.num]
      omega
    -- the call leaves the forest built so far alone
    have hsame : ∀ c, b.numNodes ≤ c → c < r.2.numNodes → (call r.2).2.node c = r.2.node c :=
      fun c _ hc => hq.frame c hc
    refine ⟨?_, fun c hc => ?_, (ih.forest.congr hsame).append hq.block hthis hge hge', ?_⟩
    · show (call r.2).2.numNodes = min size (b.numNodes + (n + 1) * total)
      rw [hq.num, ih.num, Nat.succ_mul]
      omega
    · show (call r.2).2.node c = b.node c
      rw [hq.frame c (lt_of_lt_of_le hc hge), ih.frame c hc]
    · show (if (call r.2).1 then r.1 + 1 else r.1) =
        childrenIn (call r.2).2.node b.numNodes (call r.2).2.numNodes this
      rw [childrenIn_append hge hge', childrenIn_congr hsame, ← ih.roots,
        childrenIn_block hq.block (lt_of_lt_of_le hthis hge), hq.flag]
      by_cases hlt : r.2.numNodes < size
      · have hlt' : r.2.numNodes < (call r.2).2.numNodes := by
          rw [hq.num]
          omega
        simp [hlt, hlt']
      · have hlt' : ¬ r.2.numNodes < (call r.2).2.numNodes := by
          rw [hq.num]
          omega
        simp [hlt, hlt']

theorem nodesOf_pos (radix depth : ℕ) : 0 < nodesOf radix depth := by
  cases depth with
  | zero => exact Nat.one_pos
  | succ depth => exact Nat.lt_of_lt_of_le Nat.one_pos (Nat.le_add_right _ _)

/-- The node `this` on top of the trees of its children. -/
theorem Forest.block (h : Forest node (this + 1) hi this) (hhi : this < hi) {n : InnerNode}
    (hn : node this = some n) (hcount : n.count = childrenIn node (this + 1) hi this)
    (hparent : ∀ p, n.parent = some p → p < this) : Block node this hi n.parent := by
  have hself : ∀ id, this ≤ id → childrenIn node this (this + 1) id = 0 := by
    intro id hid
    refine childrenIn_eq_zero fun c hc1 hc2 hc => ?_
    obtain rfl : c = this := by omega
    rw [parentOf, hn, Option.bind_some] at hc
    exact absurd (hparent id hc) (Nat.not_lt.mpr hid)
  refine ⟨fun _ => ⟨n, hn, rfl⟩, fun id h1 h2 => ?_, fun id m h1 h2 hm => ?_⟩
  · obtain ⟨m, p, hm, hp, hlt, hcases⟩ := h.parent id h1 h2
    exact ⟨m, p, hm, hp, by omega, hlt⟩
  · rw [childrenIn_append (Nat.le_succ this) hhi, hself id h1, Nat.zero_add]
    rcases Nat.eq_or_lt_of_le h1 with heq | hlt
    · subst heq
      rw [hn, Option.some_inj] at hm
      rw [← hm]
      exact hcount
    · exact h.count id m hlt h2 hm

/-- **`build`** makes a tree below `parent`, as large as there is room. -/
theorem built_build (depth : ℕ) (hb : b.numNodes ≤ size)
    (hparent : ∀ p, parent = some p → p < b.numNodes) :
    Built size b parent (nodesOf radix depth) (build size radix depth parent b) := by
  induction depth generalizing b parent with
  | zero =>
    rw [build]
    split
    · next hfull => exact built_full hfull
    · next hroom =>
      have hnode : (b.add parent 0).node b.numNodes = some ⟨parent, 0⟩ := Function.update_self _ _ _
      refine ⟨by simp; omega, ?_, fun c hc => Function.update_of_ne (Nat.ne_of_lt hc) _ _, ?_⟩
      · show b.numNodes + 1 = min size (b.numNodes + nodesOf radix 0)
        rw [nodesOf]
        omega
      · refine Forest.block (n := ⟨parent, 0⟩) ⟨fun id h1 h2 => ?_, fun id n h1 h2 => ?_⟩
          (Nat.lt_succ_self _) hnode ?_ hparent
        · exact absurd h2 (Nat.not_lt.mpr h1)
        · exact absurd h2 (Nat.not_lt.mpr h1)
        · exact (childrenIn_eq_zero fun c h1 h2 => absurd h2 (Nat.not_lt.mpr h1)).symm
  | succ depth ih =>
    rw [build]
    split
    · next hfull => exact built_full hfull
    · next hroom =>
      obtain ⟨b', hb'⟩ : ∃ b', b' = b.add parent radix := ⟨_, rfl⟩
      have hnum : b'.numNodes = b.numNodes + 1 := by rw [hb', add]
      obtain ⟨r, hr⟩ : ∃ r, r = children (build size radix depth (some b.numNodes)) radix b' :=
        ⟨_, rfl⟩
      have hloop : Looped size b' b.numNodes (radix * nodesOf radix depth) r := by
        rw [hr]
        refine looped_children (fun b'' hle hlt => ih hle fun p hp => ?_) (nodesOf_pos radix depth)
          (by omega) (by omega) radix
        rw [Option.some_inj] at hp
        omega
      rw [← hb', ← hr]
      have hthis : r.2.node b.numNodes = some ⟨parent, radix⟩ := by
        rw [hloop.frame _ (by omega), hb', add]
        exact Function.update_self _ _ _
      -- `set_count` leaves the node with the number of its children either way
      obtain ⟨b₂, hb₂⟩ : ∃ b₂, b₂ = if r.1 ≠ radix then r.2.setCount b.numNodes r.1 else r.2 :=
        ⟨_, rfl⟩
      dsimp only
      rw [← hb₂]
      have hnum₂ : b₂.numNodes = r.2.numNodes := by
        rw [hb₂]
        split <;> rfl
      have hother : ∀ c, c ≠ b.numNodes → b₂.node c = r.2.node c := by
        intro c hc
        rw [hb₂]
        split
        · exact Function.update_of_ne hc _ _
        · rfl
      have hself : b₂.node b.numNodes = some ⟨parent, r.1⟩ := by
        rw [hb₂]
        split
        · rw [setCount]
          dsimp only
          rw [Function.update_self, hthis]
          rfl
        · next heq =>
          rw [hthis, Decidable.not_not.mp heq]
      have hsame : ∀ c, b.numNodes + 1 ≤ c → c < b₂.numNodes → b₂.node c = r.2.node c :=
        fun c hc _ => hother c (by omega)
      have htotal : b₂.numNodes = min size (b.numNodes + nodesOf radix (depth + 1)) := by
        rw [hnum₂, hloop.num, hnum, nodesOf]
        omega
      refine ⟨by simp; omega, htotal, fun c hc => ?_, ?_⟩
      · show b₂.node c = b.node c
        rw [hother c (Nat.ne_of_lt hc), hloop.frame c (by omega), hb', add]
        exact Function.update_of_ne (Nat.ne_of_lt hc) _ _
      · have hforest := hloop.forest
        rw [hnum, ← hnum₂] at hforest
        refine Forest.block (n := ⟨parent, r.1⟩) (hforest.congr hsame) ?_ hself ?_ hparent
        · show b.numNodes < b₂.numNodes
          have hpos := nodesOf_pos radix (depth + 1)
          omega
        · show r.1 = childrenIn b₂.node (b.numNodes + 1) b₂.numNodes b.numNodes
          rw [childrenIn_congr hsame, hnum₂, ← hnum]
          exact hloop.roots

end TreeBuilder

/-- The tree is deep enough for all threads. -/
theorem lt_two_pow_depthLoop (fuel s : ℕ) (h : s ≤ fuel) : s < 2 ^ (depthLoop 2 fuel s + 1) := by
  induction fuel generalizing s with
  | zero =>
    obtain rfl : s = 0 := by omega
    exact Nat.two_pow_pos _
  | succ fuel ih =>
    rw [depthLoop]
    split
    · next hs =>
      have hhalf := ih (s / 2) (by omega)
      rw [Nat.pow_succ]
      omega
    · omega

theorem nodesOf_two (depth : ℕ) : TreeBuilder.nodesOf 2 depth + 1 = 2 ^ (depth + 1) := by
  induction depth with
  | zero => rfl
  | succ depth ih =>
    rw [TreeBuilder.nodesOf, Nat.pow_succ, ← ih]
    omega

/-- **The tree of a barrier**: every thread has a node, the root has no parent, every other node has
a parent before it, and the counters are the numbers of children. -/
structure WellFormed (node : ℕ → Option InnerNode) (size : ℕ) : Prop where
  root : ∃ n, node 0 = some n ∧ n.parent = none
  inner : ∀ id, 0 < id → id < size → ∃ n p, node id = some n ∧ n.parent = some p ∧ p < id
  count : ∀ id n, id < size → node id = some n →
    n.count = ((Finset.range size).filter fun c => TreeBuilder.parentOf node c = some id).card

/-- The barrier of the threads is well formed. -/
theorem treeBarrier_wellFormed {size : ℕ} (hsize : 1 ≤ size) :
    WellFormed (treeBarrier size 2) size := by
  have hbuilt : TreeBuilder.Built size ⟨0, fun _ => none⟩ none
      (TreeBuilder.nodesOf 2 (depthOf 2 size))
      (TreeBuilder.build size 2 (depthOf 2 size) none ⟨0, fun _ => none⟩) :=
    TreeBuilder.built_build _ (Nat.zero_le _) (by simp)
  have hnum := hbuilt.num
  have hdepth := lt_two_pow_depthLoop size size (le_refl _)
  have hnodes := nodesOf_two (depthOf 2 size)
  rw [Nat.zero_add, Nat.min_eq_left] at hnum
  · have hblock := hbuilt.block
    rw [hnum] at hblock
    refine ⟨hblock.root hsize, fun id h1 h2 => ?_, fun id n h hn => ?_⟩
    · obtain ⟨n, p, hn, hp, -, hlt⟩ := hblock.inner id h1 h2
      exact ⟨n, p, hn, hp, hlt⟩
    · rw [Finset.range_eq_Ico]
      exact hblock.count id n (Nat.zero_le _) h hn
  · rw [depthOf] at hnodes ⊢
    omega

end Meld
