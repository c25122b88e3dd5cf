import Mathlib.Algebra.BigOperators.Ring.Finset
import Mathlib.Order.Interval.Finset.Nat
import Meld.Lib.Drift
import Meld.Thread.CoordPins

/-!
# Static nodes that come and go

A running program creates nodes, and a node without references, rules to try and facts is deleted:
by the thread that has run it, or by one that has removed the last fact that points to it.
`delete_node` looks at neither `static_node` nor the count of its thread, so that a static node that
is deleted stays in the count for good.

Which facts point to a node is left open, but for the nodes that a program starts with, whose
references are never given back.

* `Population`, `population`: the threads, with nodes that come and go.
* `Counted`: the counts are right.
* `Forgets`: the steps that delete a static node.
* `lead_step`: what a step does to the counts and to what they count.
* `static_nodes_iff`: when the counts are right.
-/

namespace Meld
namespace Coord

open State

variable {π : Type}

/-! ## Nodes that come and go -/

/-- The threads, the nodes that exist, the references to each, and the nodes for which
`is_initial_node` holds. -/
structure Population (π : Type) where
  coord : State π
  live : Finset ℕ
  refs : ℕ → ℕ
  initial : Finset ℕ

/-- A step of the threads; a node that a thread creates; a fact that comes or goes, so that a node
has another number of references; and a thread at a node in `gc_nodes`, after a rule. -/
inductive Happening (π : Type) where
  | act (e : Event π)
  | create (t n : ℕ)
  | reference (n refs : ℕ)
  | collect (n : ℕ)

/-- The nodes that an event works on: those that it names, the node that its thread works on, and
the stolen node that comes to a queue. -/
def Event.uses (s : State π) : Event π → List ℕ
  | .setNodeAffinity _ n affinity => [n, affinity]
  | .takeFacts t | .runRules t _ _ | .seeNewOwner t | .check t | .handOver t | .finish t =>
    (s.thread t).currentNode.toList
  | .adopt t => (s.thread t).buffer.take 1
  | e => e.node.toList

theorem Event.mem_uses_of_pinned {s : State π} {e : Event π} {n : ℕ} (h : n ∈ e.pinned s) :
    n ∈ e.uses s := by
  cases e with
  | setNodeStatic | setNodeMoving | setNodeCpu | setNodeAffinity =>
    obtain rfl := Option.some.inj h
    exact List.mem_cons_self
  | adopt t =>
    rw [Event.pinned, Option.mem_def, List.head?_eq_some_iff] at h
    obtain ⟨rest, hrest⟩ := h
    rw [Event.uses, hrest]
    exact List.mem_cons_self
  | _ => exact absurd h (Option.not_mem_none n)

/-- `thread::create_node`.  The default priority is that of the program. -/
def createNode (P : Program π) (defaultPriority : π) (s : State π) (t n : ℕ) :
    Result (State π) := do
  let db ← Result.ofOption ((DbNode.create P.work).addLinearFact P.work P.init.2 P.init.1)
  let r : Node π :=
    ⟨t, none, defaultPriority, defaultPriority, { db with unprocessedFacts := true }⟩
  .ok { s.setNode n r with link := Function.update s.link n ⟨0, 0, .idle⟩ }

namespace Population

/-- `garbage_collect`. -/
def garbageCollect (s : Population π) (n : ℕ) : Bool :=
  let db := (s.coord.node n).db
  s.refs n = 0 && db.matcher.predicateExistence.empty && !db.unprocessedFacts

/-- `delete_node`, if the node is garbage. -/
def tryDelete (s : Population π) (n : ℕ) : Population π :=
  if s.garbageCollect n then { s with live := s.live.erase n } else s

/-- What is done with references and garbage in an event that leads to `c`. -/
def after (s : Population π) (c : State π) : Event π → Population π
  | .initNode _ n => { s with coord := c, refs := Function.update s.refs n (s.refs n + 1) }
  | .finish t =>
    match (s.coord.thread t).currentNode with
    | some n => { s.tryDelete n with coord := c }
    | none => { s with coord := c }
  | _ => { s with coord := c }

/-- One step.  A step that works on a node that is gone has no meaning. -/
def step [LinearOrder π] (P : Program π) (defaultPriority : π) (s : Population π) :
    Happening π → Option (Population π)
  | .act e =>
    if ∀ n ∈ e.uses s.coord, n ∈ s.live then
      match Coord.step P s.coord e with
      | .ok c => some (s.after c e)
      | .error _ => none
    else none
  | .create t n =>
    if s.coord.started ∧ n ∉ s.live ∧ 0 < n ∧ n < 2 ^ 64 then
      match createNode P defaultPriority s.coord t n with
      | .ok c =>
        some { s with coord := c, live := insert n s.live, refs := Function.update s.refs n 0 }
      | .error _ => none
    else none
  | .reference n refs =>
    if n ∈ s.live ∧ n ∉ s.initial then some { s with refs := Function.update s.refs n refs }
    else none
  | .collect n => if n ∈ s.live then some (s.tryDelete n) else none

/-- The start: the nodes of the program exist, and the constructors of the threads have run. -/
structure Start (s : Population π) : Prop where
  coord : Initial s.coord
  staticNodes : ∀ t, (s.coord.thread t).staticNodes = 0
  live : s.live = s.initial
  address : ∀ n ∈ s.live, 0 < n ∧ n < 2 ^ 64

/-- The nodes that are static at a thread. -/
def staticAt (s : Population π) (t : ℕ) : Finset ℕ :=
  s.live.filter fun n => (s.coord.node n).static = some t

/-- **The counts are right**, and none can go below zero: a thread that a node is static at counts
one node at least. -/
structure Counted (s : Population π) : Prop where
  staticNodes : ∀ t, (s.coord.thread t).staticNodes.toNat = (s.staticAt t).card
  positive : ∀ n ∈ s.live, ∀ t, (s.coord.node n).static = some t →
    0 < (s.coord.thread t).staticNodes

/-- The node that a step deletes if it is garbage. -/
def candidate (s : Population π) : Happening π → Option ℕ
  | .act (.finish t) => (s.coord.thread t).currentNode
  | .collect n => some n
  | _ => none

/-- **The steps that forget the count**: a static node is deleted. -/
def Forgets (s : Population π) (h : Happening π) : Prop :=
  ∃ n ∈ s.candidate h, s.garbageCollect n = true ∧ (s.coord.node n).static.isSome

instance (s : Population π) (h : Happening π) : Decidable (s.Forgets h) :=
  inferInstanceAs (Decidable (∃ _ ∈ _, _))

end Population

/-- The steps as a machine. -/
def population [LinearOrder π] (P : Program π) (defaultPriority : π) :
    Machine (Happening π) Unit (Population π) :=
  ⟨fun s h => (s.step P defaultPriority h).map fun s' => ((), s')⟩

/-! ## The nodes that are counted -/

namespace Population

variable {P : Program π} {s s' : Population π} {c : State π} {t n m : ℕ}

/-- A node that is created is not static. -/
theorem createNode_same {defaultPriority : π}
    (h : createNode P defaultPriority s.coord t n = .ok c) :
    (c.node n).static = none ∧ (∀ x, x ≠ n → c.node x = s.coord.node x) ∧
      c.thread = s.coord.thread := by
  obtain ⟨db, -, h⟩ := Result.bind_eq_ok h
  obtain rfl := Except.ok.inj h
  refine ⟨?_, fun x hx => Function.update_of_ne hx _ _, rfl⟩
  simp only [State.setNode, Function.update_self]

/-- What a thread counts over the nodes that are static at it. -/
def lead (s : Population π) (t : ℕ) : BitVec 64 :=
  (s.coord.thread t).staticNodes - ∑ n ∈ s.live, share (s.coord.node n).static t

/-- What a step should have taken from the count of the thread and has not. -/
def forgotten (s : Population π) (h : Happening π) (t : ℕ) : BitVec 64 :=
  match s.candidate h with
  | some n => if s.garbageCollect n then share (s.coord.node n).static t else 0
  | none => 0

/-- Nodes are at addresses. -/
def Addressed (s : Population π) : Prop := ∀ n ∈ s.live, 0 < n ∧ n < 2 ^ 64

theorem sum_share (s : Population π) (t : ℕ) :
    ∑ n ∈ s.live, share (s.coord.node n).static t = BitVec.ofNat 64 (s.staticAt t).card := by
  simp only [share, staticAt, Finset.sum_boole]
  exact BitVec.natCast_eq_ofNat _ _

theorem Addressed.card_lt (h : s.Addressed) (t : ℕ) : (s.staticAt t).card < 2 ^ 64 := by
  have hsub : s.staticAt t ⊆ Finset.Ioo 0 (2 ^ 64) := fun n hn =>
    Finset.mem_Ioo.2 (h n (Finset.mem_filter.1 hn).1)
  have hle := Finset.card_le_card hsub
  rw [Nat.card_Ioo] at hle
  omega

/-- **The counts are right** exactly if no thread counts anything over its nodes. -/
theorem Addressed.counted_iff (h : s.Addressed) : s.Counted ↔ ∀ t, s.lead t = 0 := by
  have hiff : ∀ t, s.lead t = 0 ↔ (s.coord.thread t).staticNodes.toNat = (s.staticAt t).card := by
    intro t
    have hcard : (BitVec.ofNat 64 (s.staticAt t).card).toNat = (s.staticAt t).card := by
      rw [BitVec.toNat_ofNat, Nat.mod_eq_of_lt (h.card_lt t)]
    rw [lead, sub_eq_zero, sum_share, ← BitVec.toNat_inj, hcard]
  constructor
  · exact fun hc t => (hiff t).2 (hc.staticNodes t)
  · intro hall
    refine ⟨fun t => (hiff t).1 (hall t), fun n hn t hstatic => ?_⟩
    -- the node itself is counted
    have hpos : 0 < (s.staticAt t).card :=
      Finset.card_pos.2 ⟨n, Finset.mem_filter.2 ⟨hn, hstatic⟩⟩
    rw [← (hiff t).1 (hall t)] at hpos
    exact BitVec.lt_def.2 hpos

/-! ### Steps -/

/-- Another state of the threads, in which at most one node has become static or moving. -/
theorem lead_of_pins (h : Pins s.coord c m) (hm : m ∈ s.live) :
    lead { s with coord := c } t = s.lead t := by
  have hfun : (fun n => (c.node n).static) =
      Function.update (fun n => (s.coord.node n).static) m (c.node m).static := by
    funext x
    by_cases hx : x = m
    · subst hx
      rw [Function.update_self]
    · rw [Function.update_of_ne hx, h.static x hx]
  have hsum := sum_update (fun o => share o t) (fun n => (s.coord.node n).static) hm
    (c.node m).static
  rw [← hfun] at hsum
  simp only [lead, hsum, h.staticNodes]
  abel

theorem lead_of_same (h : ∀ m, Pins s.coord c m) : lead { s with coord := c } t = s.lead t := by
  obtain ⟨hstatic, hcount⟩ := same_of_pins h
  simp only [lead, hstatic, hcount]

@[simp] theorem tryDelete_coord (n : ℕ) : (s.tryDelete n).coord = s.coord := by
  rw [tryDelete]
  split <;> rfl

theorem live_tryDelete_subset (n : ℕ) : (s.tryDelete n).live ⊆ s.live := by
  rw [tryDelete]
  split
  · exact Finset.erase_subset n s.live
  · exact Finset.Subset.refl s.live

/-- A node that is deleted stays in the count. -/
theorem lead_tryDelete (hn : n ∈ s.live) :
    (s.tryDelete n).lead t =
      s.lead t + if s.garbageCollect n then share (s.coord.node n).static t else 0 := by
  rw [tryDelete]
  split
  · simp only [lead, ← Finset.add_sum_erase s.live _ hn]
    abel
  · rw [add_zero]

theorem lead_create [LinearOrder π] {defaultPriority : π} {refs : ℕ → ℕ} (hn : n ∉ s.live)
    (h : createNode P defaultPriority s.coord m n = .ok c) :
    lead { s with coord := c, live := insert n s.live, refs := refs } t = s.lead t := by
  obtain ⟨hnone, hother, hthread⟩ := createNode_same h
  have hsum : ∑ x ∈ s.live, share (c.node x).static t =
      ∑ x ∈ s.live, share (s.coord.node x).static t :=
    Finset.sum_congr rfl fun x hx => by rw [hother x (ne_of_mem_of_not_mem hx hn)]
  simp only [lead, Finset.sum_insert hn, hnone, hsum, hthread]
  rw [show share none t = 0 from rfl, zero_add]

section Steps

variable [LinearOrder π] {defaultPriority : π} {h : Happening π}

/-- **What a step does**, and when it is made. -/
theorem step_cases (hs : s.step P defaultPriority h = some s') :
    (∃ e c, h = .act e ∧ (∀ n ∈ e.uses s.coord, n ∈ s.live) ∧ Coord.step P s.coord e = .ok c ∧
      s' = s.after c e) ∨
    (∃ u n c, h = .create u n ∧ (s.coord.started ∧ n ∉ s.live ∧ 0 < n ∧ n < 2 ^ 64) ∧
      createNode P defaultPriority s.coord u n = .ok c ∧
      s' = { s with coord := c, live := insert n s.live, refs := Function.update s.refs n 0 }) ∨
    (∃ n refs, h = .reference n refs ∧ (n ∈ s.live ∧ n ∉ s.initial) ∧
      s' = { s with refs := Function.update s.refs n refs }) ∨
    ∃ n, h = .collect n ∧ n ∈ s.live ∧ s' = s.tryDelete n := by
  cases h with
  | act e =>
    rw [step] at hs
    split at hs
    · next huses =>
      split at hs
      · next c hc => exact Or.inl ⟨e, c, rfl, huses, hc, (Option.some.inj hs).symm⟩
      · cases hs
    · cases hs
  | create u n =>
    rw [step] at hs
    split at hs
    · next hn =>
      split at hs
      · next c hc => exact Or.inr (Or.inl ⟨u, n, c, rfl, hn, hc, (Option.some.inj hs).symm⟩)
      · cases hs
    · cases hs
  | reference n refs =>
    obtain ⟨hn, heq⟩ := Option.ite_none_right_eq_some.1 hs
    exact Or.inr (Or.inr (Or.inl ⟨n, refs, rfl, hn, (Option.some.inj heq).symm⟩))
  | collect n =>
    obtain ⟨hn, heq⟩ := Option.ite_none_right_eq_some.1 hs
    exact Or.inr (Or.inr (Or.inr ⟨n, rfl, hn, (Option.some.inj heq).symm⟩))

omit [LinearOrder π] in
/-- Only the end of a node's turn deletes it, in a step that makes no node static. -/
theorem after_cases (s : Population π) (c : State π) (e : Event π) :
    (∃ n, s.candidate (.act e) = some n ∧ n ∈ e.uses s.coord ∧ e.pinned s.coord = none ∧
      s.after c e = { s.tryDelete n with coord := c }) ∨
    (s.candidate (.act e) = none ∧ ∃ refs, s.after c e = { s with coord := c, refs := refs }) := by
  cases e with
  | finish u =>
    cases hcur : (s.coord.thread u).currentNode with
    | none => exact Or.inr ⟨hcur, s.refs, by rw [after, hcur]⟩
    | some n =>
      refine Or.inl ⟨n, hcur, ?_, rfl, by rw [after, hcur]⟩
      simp only [Event.uses, hcur, Option.toList_some, List.mem_singleton]
  | _ => exact Or.inr ⟨rfl, _, rfl⟩

/-- **One step** leaves what the threads count as it is, but for a static node that is deleted. -/
theorem lead_step (hs : s.step P defaultPriority h = some s') :
    s'.lead t = s.lead t + s.forgotten h t := by
  obtain ⟨e, c, rfl, huses, hc, rfl⟩ | ⟨u, n, c, rfl, hn, hc, rfl⟩ | ⟨n, refs, rfl, -, rfl⟩ |
    ⟨n, rfl, hn, rfl⟩ := step_cases hs
  · obtain ⟨n, hcand, huse, hpinned, hafter⟩ | ⟨hcand, refs, hafter⟩ := s.after_cases c e
    · have hsame : ∀ m, Pins (s.tryDelete n).coord c m := fun m => by
        rw [tryDelete_coord]
        exact step_pins hc (by rw [hpinned]; exact fun x hx => absurd hx (Option.not_mem_none x))
      have hlead : lead { s.tryDelete n with coord := c } t = (s.tryDelete n).lead t :=
        lead_of_same hsame
      rw [hafter, hlead, lead_tryDelete (huses n huse)]
      simp only [forgotten, hcand]
    · -- references apart, this is a step of the threads
      have hcoord : lead { s with coord := c } t = s.lead t := by
        cases hpinned : e.pinned s.coord with
        | none =>
          refine lead_of_same fun m => step_pins hc ?_
          rw [hpinned]
          exact fun x hx => absurd hx (Option.not_mem_none x)
        | some n =>
          refine lead_of_pins (step_pins hc ?_) (huses n (Event.mem_uses_of_pinned hpinned))
          rw [hpinned]
          exact fun m hm => (Option.some.inj hm).symm
      rw [hafter, forgotten, hcand, add_zero]
      exact hcoord
  · exact (lead_create hn.2.1 hc).trans (add_zero _).symm
  · exact (add_zero _).symm
  · exact lead_tryDelete hn

/-- Nodes are created at addresses. -/
theorem Addressed.step (ha : s.Addressed) (hs : s.step P defaultPriority h = some s') :
    s'.Addressed := by
  obtain ⟨e, c, rfl, -, -, rfl⟩ | ⟨u, n, c, rfl, hn, -, rfl⟩ | ⟨n, refs, rfl, -, rfl⟩ |
    ⟨n, rfl, -, rfl⟩ := step_cases hs
  · obtain ⟨n, -, -, -, hafter⟩ | ⟨-, refs, hafter⟩ := s.after_cases c e
    · rw [hafter]
      exact fun x hx => ha x (live_tryDelete_subset n hx)
    · rw [hafter]
      exact ha
  · intro x hx
    obtain rfl | hx := Finset.mem_insert.1 hx
    · exact hn.2.2
    · exact ha x hx
  · exact ha
  · exact fun x hx => ha x (live_tryDelete_subset n hx)

omit [LinearOrder π] in
/-- A step forgets a count exactly if it deletes a static node. -/
theorem forgotten_eq_zero : (∀ t, s.forgotten h t = 0) ↔ ¬ s.Forgets h := by
  rw [Forgets]
  cases hc : s.candidate h with
  | none =>
    refine iff_of_true (fun t => by simp only [forgotten, hc]) ?_
    rintro ⟨n, hn, -⟩
    exact absurd hn nofun
  | some n =>
    have hvalue : ∀ t, s.forgotten h t =
        if s.garbageCollect n then share (s.coord.node n).static t else 0 := fun t => by
      simp only [forgotten, hc]
    constructor
    · rintro hall ⟨n', hn', hgarbage, hstatic⟩
      obtain rfl := Option.some.inj hn'
      obtain ⟨t, ht⟩ := Option.isSome_iff_exists.1 hstatic
      have hzero := hall t
      rw [hvalue, if_pos hgarbage, share, if_pos ht] at hzero
      exact absurd hzero (by decide)
    · intro hnot t
      rw [hvalue]
      split
      · next hgarbage =>
        refine if_neg fun ht => hnot ⟨n, rfl, hgarbage, ?_⟩
        rw [ht]
        rfl
      · rfl

omit [LinearOrder π] in
theorem Start.counted (hs : s.Start) : s.Counted := by
  have hempty : ∀ t, s.staticAt t = ∅ := by
    intro t
    refine Finset.filter_eq_empty_iff.2 fun n _ hstatic => ?_
    rw [hs.coord.static] at hstatic
    exact absurd hstatic nofun
  refine ⟨fun t => ?_, fun n _ t hstatic => ?_⟩
  · rw [hempty, hs.staticNodes]
    rfl
  · rw [hs.coord.static] at hstatic
    exact absurd hstatic nofun

end Steps

end Population

/-- **The counts of static nodes** are right all the time exactly if no static node is deleted. -/
theorem static_nodes_iff [LinearOrder π] (P : Program π) (defaultPriority : π)
    {s : Population π} (hs : s.Start) (run : List (Happening π)) :
    (population P defaultPriority).Always Population.Counted s run ↔
      (population P defaultPriority).Along (fun s h =>
        (population P defaultPriority).step s h ≠ none → ¬ s.Forgets h) s run := by
  have hmade : ∀ {s : Population π} {h r}, (population P defaultPriority).step s h = some r →
      s.step P defaultPriority h = some r.2 := by
    intro s h r hr
    obtain ⟨s', hs', rfl⟩ := Option.map_eq_some_iff.1 hr
    exact hs'
  have hok : ∀ s h r, s.Addressed → (population P defaultPriority).step s h = some r →
      r.2.Addressed := fun s h r ha hr => ha.step (hmade hr)
  refine Machine.always_iff hok ?_ hs.address hs.counted
  intro s h r ha hcounted hr
  have hzero := ha.counted_iff.1 hcounted
  rw [(ha.step (hmade hr)).counted_iff, ← Population.forgotten_eq_zero]
  refine forall_congr' fun t => ?_
  rw [Population.lead_step (hmade hr), hzero t, zero_add]

/-- A program with one node to start with. -/
def firstNode : Population ℕ := ⟨start, {1}, fun _ => 0, {1}⟩

theorem start_firstNode : firstNode.Start :=
  ⟨initial_start, fun _ => rfl, rfl, by decide⟩

/-- The first node creates another one, sends it a fact and ends. -/
def createsOne : List (Happening ℕ) :=
  [.act (.initNode 0 1), .act .synchronize, .act (.popNormal 0 .moving), .act (.takeFacts 0),
    .create 0 2,
    .act (.newWork 0 2 (.tuple [] ⟨0, true, false, false, ⟨0, false, 0⟩⟩ .positive 0) true),
    .act (.runRules 0 (.create twoFacts.linear) (.create twoFacts.rules)),
    .act (.check 0), .act (.finish 0)]

/-- The new node makes itself static, uses up its facts and ends. -/
def endsStatic : List (Happening ℕ) :=
  [.act (.popNormal 0 .moving), .act (.takeFacts 0), .act (.setNodeStatic 0 2),
    .act (.runRules 0 (.create twoFacts.linear) (.create twoFacts.rules)),
    .act (.check 0), .act (.finish 0)]

/-- While it is static, the count is right. -/
theorem static_nodes_createsOne :
    (population (scheduled false) 0).Always Population.Counted firstNode
      (createsOne ++ endsStatic.take 5) :=
  (static_nodes_iff (scheduled false) 0 start_firstNode _).2 (by decide +kernel)

/-- When it is gone, it is still counted. -/
theorem not_forall_static_nodes : ¬ ∀ (P : Program ℕ) (defaultPriority : ℕ) (s : Population ℕ)
    (run : List (Happening ℕ)), s.Start →
    (population P defaultPriority).Always Population.Counted s run := by
  intro hall
  have hend : ((population (scheduled false) 0).run firstNode (createsOne ++ endsStatic)).map
      (fun r => ((r.2.coord.thread 0).staticNodes.toNat, (r.2.staticAt 0).card)) =
      some (1, 0) := by decide +kernel
  obtain ⟨r, hr, heq⟩ := Option.map_eq_some_iff.1 hend
  have hcounted := hall _ 0 _ (createsOne ++ endsStatic) start_firstNode 15 r (by
    rw [List.take_of_length_le (by decide)]
    exact hr)
  have hcount : (r.2.coord.thread 0).staticNodes.toNat = 1 := congrArg Prod.fst heq
  have hcard : (r.2.staticAt 0).card = 0 := congrArg Prod.snd heq
  have := hcounted.staticNodes 0
  omega

end Coord
end Meld
