import Meld.Thread.CoordFacts

/-!
# A node that is asked for while it is stolen

A rule may send a node to a thread with `set_node_cpu` or `set_node_affinity`, while another thread
steals the node.  The thief has taken the node out of its queue without the lock of the node, and
decides later, from `is_static` and the owner, whether somebody has asked for the node meanwhile.
The test compares the owner with the thread it has stolen from.  If that is the thread that the node
was sent to, then the owner is the same as before, the request looks like a `set_node_static`, and
the thief keeps the node.

There is a second way to lose a request.  The thread that works on a node looks for a new owner
before it takes the lock, and lets the node go with the lock if no facts are left.  A request
between the two is not seen.

* `Requests`, `Requested`: the request for a thread, and the states after it.
* `Kept`: the condition on the steps of thieves and of the thread that works on the node.
* `Bound`: what holds of the node after the request, with `Bound.act`: a step keeps it.
* `AtHome`, `requested_atHome`: the node belongs to the thread, or its owner works on it and will
  hand it over.
* `not_forall_requested_atHome`: a request that is lost.
-/

namespace Meld
namespace Coord

open State

variable {π : Type} [LinearOrder π] {P : Program π} {s s' : State π} {N n t T : ℕ}

/-- A request of the node `n` for the thread `T`: `set_node_cpu`, or `set_node_affinity` with a node
of the thread. -/
def Requests (P : Program π) (s : State π) (n T : ℕ) : Event π → Prop
  | .setNodeCpu _ m newOwner => P.schedulingMechanism = true ∧ m = n ∧ newOwner = T
  | .setNodeAffinity _ m affinity =>
    P.schedulingMechanism = true ∧ m = n ∧ (s.node affinity).owner = T
  | _ => False

/-- The states after a request, with no other coordination operation on the node since then.  There
is a condition on the steps before the request and one on the request and the steps after it. -/
inductive Requested (P : Program π) (N : ℕ) (before during : State π → Event π → Prop) (n T : ℕ) :
    State π → Prop where
  | request {s s' : State π} {e : Event π} (h : Reach P N before s)
      (hnode : ∀ m ∈ e.node, 0 < m ∧ m ≤ N) (hreq : Requests P s n T e) (hok : during s e)
      (hstep : step P s e = .ok s') : Requested P N before during n T s'
  | step {s s' : State π} {e : Event π} (h : Requested P N before during n T s)
      (hnode : ∀ m ∈ e.node, 0 < m ∧ m ≤ N) (hother : e.coordinated ≠ some n)
      (hok : during s e) (hstep : step P s e = .ok s') : Requested P N before during n T s'

/-- **The condition on the steps that touch the node**: a thief that takes a stolen node which is
static has not stolen it from its owner, and no thread lets a node go that has a new owner. -/
def Kept (s : State π) (n : ℕ) : Event π → Prop
  | .adopt t => (s.thread t).buffer.head? = some n → s.nodeState n = .stealing →
      (s.node n).static.isSome → (s.node n).owner ≠ (s.thread t).target
  | .finish t => (s.thread t).currentNode = some n →
      (s.node n).db.unprocessedFacts = false → (s.node n).hasNewOwner = false
  | _ => True

/-- The node is static for the thread, and belongs to it, in a queue unless it is idle; or its owner
works on it, and will hand it to the thread. -/
def AtHome (s : State π) (n T : ℕ) : Prop :=
  (s.node n).static = some T ∧
    ((s.node n).owner = T ∧ (s.nodeState n = .idle ∨ ∃ M k, WellQueued s M ∧ n ∈ M T k) ∨
      (s.thread (s.node n).owner).currentNode = some n)

/-! ## The invariant -/

/-- **What holds of the node after the request.** -/
structure Bound (s : State π) (n T : ℕ) : Prop where
  started : s.started = true
  static : (s.node n).static = some T
  owner : (s.node n).owner = T ∨ s.nodeState n = .working

section Bound

omit [LinearOrder π] in
theorem Bound.same (h : Bound s n T) (hst : s'.started = s.started)
    (hstatic : (s'.node n).static = (s.node n).static)
    (howner : (s'.node n).owner = (s.node n).owner)
    (hw : s.nodeState n = .working → s'.nodeState n = .working) : Bound s' n T := by
  refine ⟨hst.trans h.started, hstatic.trans h.static, ?_⟩
  obtain ho | hq := h.owner
  · exact Or.inl (howner.trans ho)
  · exact Or.inr (hw hq)

omit [LinearOrder π] in
/-- A step on another node. -/
theorem Bound.elsewhere (h : Bound s n T) {m : ℕ} (hs : Handles s s' m) (hm : n ≠ m) :
    Bound s' n T := by
  have hnode := hs.node n hm
  refine h.same hs.started (by rw [hnode]) (by rw [hnode]) fun hw => ?_
  rw [hs.nodeState n hm, hw]

/-- A step that leaves a node its owner, and a node that is worked on its state. -/
theorem Bound.outcome (h : Bound s n T) {m : ℕ} {q : QueueId} {r : Node π}
    (o : Outcome P s s' m q r) (hstatic : r.static = (s.node m).static)
    (howner : r.owner = (s.node m).owner) (hq : s.nodeState m = .working → q = .working) :
    Bound s' n T := by
  by_cases hm : n = m
  · subst hm
    exact h.same o.handles.started (by rw [o.record, hstatic]) (by rw [o.record, howner])
      fun hw => o.state.trans (hq hw)
  · exact h.elsewhere o.handles hm

omit [LinearOrder π] in
theorem Bound.edits (h : Bound s n T) {m : ℕ} {r : Node π} (e : Edits s s' m r)
    (hstatic : r.static = (s.node m).static) (howner : r.owner = (s.node m).owner) :
    Bound s' n T := by
  by_cases hm : n = m
  · subst hm
    exact h.same e.started (by rw [e.record, hstatic]) (by rw [e.record, howner]) fun hw => by
      rw [e.nodeState, hw]
  · exact h.elsewhere e.handles hm

omit [LinearOrder π] in
/-- Only threads change. -/
theorem Bound.threads (h : Bound s n T) (hst : s'.started = s.started) (hnode : s'.node = s.node)
    (hlink : s'.link = s.link) : Bound s' n T :=
  h.same hst (by rw [hnode]) (by rw [hnode]) fun hw => by
    rw [State.nodeState, hlink]
    exact hw

theorem Bound.taken (h : Bound s n T) (ht : Taken P s t s') : Bound s' n T := by
  cases ht with
  | none => exact h.threads rfl rfl rfl
  | some o hstate ho =>
    have h₁ : Bound _ n T := h.outcome o rfl rfl fun _ => rfl
    exact h₁.threads rfl rfl rfl

omit [LinearOrder π] in
/-- The owner of a node that is not worked on is the thread. -/
theorem Bound.owner_eq (h : Bound s n T) (hq : s.nodeState n ≠ .working) : (s.node n).owner = T :=
  h.owner.resolve_right hq

theorem Bound.handOver (h : Bound s n T) (I : Inv P N s) (hN : N < 2 ^ 30)
    (hs : handOver P s t = .ok s') : Bound s' n T := by
  obtain ⟨m, newOwner, s₁, r, -, -, hstatic, rfl, hr, o⟩ := handOver_outcome I hN hs
  have h₁ : Bound s₁ n T := by
    by_cases hm : n = m
    · subst hm
      have hT : newOwner = T := Option.some.inj (hstatic.symm.trans h.static)
      refine ⟨o.handles.started.trans h.started, ?_, Or.inl ?_⟩
      · rw [o.record, hr]
        exact h.static
      · rw [o.record, hr]
        exact hT
    · exact h.elsewhere o.handles hm
  exact h₁.threads rfl rfl rfl

/-- A thread lets a node go: if it is this one, its owner is the thread. -/
theorem Bound.finish (h : Bound s n T) (I : Inv P N s) (hok : Kept s n (.finish t : Event π))
    (hs : finish s t = .ok s') : Bound s' n T := by
  obtain ⟨m, -, hcur, ⟨-, rfl⟩ | ⟨hfacts, s₁, rfl, o⟩⟩ := finish_outcome I hs
  · exact h.threads rfl rfl rfl
  · have h₁ : Bound s₁ n T := by
      by_cases hm : n = m
      · subst hm
        have hnone := hok hcur hfacts
        rw [Node.hasNewOwner, h.static] at hnone
        have ho : (s.node n).owner = T := by simpa using hnone
        exact ⟨o.handles.started.trans h.started, by rw [o.record]; exact h.static,
          Or.inl (by rw [o.record]; exact ho)⟩
      · exact h.elsewhere o.handles hm
    exact h₁.threads rfl rfl rfl

/-- A stolen node is not one that a thread works on. -/
theorem Bound.steal (h : Bound s n T) (I : Inv P N s) (hN : N < 2 ^ 30) {u : ℕ}
    (hs : steal P s t u = .ok s') : Bound s' n T := by
  rw [Coord.steal] at hs
  split at hs
  · exact absurd hs (by simp)
  obtain ⟨r, hr, hs⟩ := Result.bind_eq_ok hs
  obtain rfl := Except.ok.inj hs
  obtain ⟨-, hp, hmoving⟩ := stealNodes_places I hN hr
  have h₁ : Bound r.1 n T := by
    refine h.same hp.started (by rw [hp.node]) (by rw [hp.node]) fun hw => ?_
    rw [hp.elsewhere n, hw]
    intro hn
    obtain hq | hq := (hmoving n hn).2 <;> exact absurd (hq.symm.trans hw) (by decide)
  exact h₁.threads rfl rfl rfl

/-- A thief finds a place for the node: its owner is the thread, and stays it. -/
theorem Bound.adopt (h : Bound s n T) (I : Inv P N s) (hN : N < 2 ^ 30)
    (hok : Kept s n (.adopt t : Event π)) (hs : adopt P s t = .ok s') : Bound s' n T := by
  obtain ⟨m, rest, s₁, hbuf, hs₁, hcase⟩ := adopt_outcome I hN hs
  have h₁ : Bound s₁ n T := by
    rw [hs₁]
    exact h.threads rfl rfl rfl
  have hnode : s₁.node = s.node := by
    rw [hs₁]
    rfl
  obtain ⟨-, rfl⟩ | ⟨hq, r, o, ⟨-, -, rfl⟩ | ⟨hnot, -⟩⟩ := hcase
  · exact h₁
  · refine h₁.outcome o (by rw [hnode]) (by rw [hnode]) fun hw => ?_
    have hw : s.nodeState m = .working := by
      rw [hs₁] at hw
      exact hw
    exact absurd (hq.symm.trans hw) (by decide)
  · by_cases hm : n = m
    · subst hm
      have hsome : (s.node n).static.isSome := by rw [h.static]; rfl
      exact absurd ⟨hsome, hok (by rw [hbuf]; rfl) hq hsome⟩ hnot
    · exact h₁.elsewhere o.handles hm

/-- A change of priority, or of the queue. -/
theorem Bound.requeued (h : Bound s n T) {m : ℕ} (hm : n ≠ m) {r : Node π}
    (hr : Requeued P s s' m r) : Bound s' n T := by
  obtain ⟨q, o, -⟩ := hr
  exact h.elsewhere o.handles hm

/-- **A step that is no coordination operation on the node**, under the condition. -/
theorem Bound.act (h : Bound s n T) (I : Inv P N s) (hN : N < 2 ^ 30) {e : Event π}
    (hnode : ∀ m ∈ e.node, 0 < m ∧ m ≤ N) (hother : e.coordinated ≠ some n)
    (hown : OwnQueue P s e) (hkept : Kept s n e) (hs : act P s e = .ok s') : Bound s' n T := by
  have hne : ∀ m, e.coordinated = some m → n ≠ m := by
    rintro m hm rfl
    exact hother hm
  cases e with
  | initNode t m => exact absurd hs (by simp [Coord.act])
  | synchronize => exact absurd hs (by simp [Coord.act])
  | newWork t m w locked =>
    obtain ⟨q, db, d, o, -, -, ⟨-, hq⟩ | ⟨hidle, -⟩⟩ := newWork_outcome I hN (hnode m rfl) hs
    · exact h.outcome o rfl rfl fun hw => hq.trans hw
    · exact h.outcome o rfl rfl fun hw => absurd (hidle.symm.trans hw) (by decide)
  | popBest t => exact h.taken (popBest_taken I hN hs).2.2
  | popNormal t w => exact h.taken (popNormal_taken I hs).2.2
  | takeFacts t =>
    obtain ⟨m, db, -, -, -, e⟩ := takeFacts_edits hs
    exact h.edits e rfl rfl
  | runRules t linear matcher =>
    obtain ⟨m, -, -, e⟩ := runRules_edits hs
    exact h.edits e rfl rfl
  | seeNewOwner t =>
    obtain ⟨m, facts, -, -, -, e⟩ := seeNewOwner_edits hs
    exact h.edits e rfl rfl
  | check t =>
    have hs : check s t = .ok s' := hs
    rw [check] at hs
    obtain ⟨m, -, hs⟩ := Result.bind_eq_ok hs
    obtain rfl := Except.ok.inj hs
    exact h.threads rfl rfl rfl
  | handOver t => exact h.handOver I hN hs
  | finish t => exact h.finish I hkept hs
  | steal t u => exact h.steal I hN hs
  | adopt t => exact h.adopt I hN hkept hs
  | setNodePriority t m priority =>
    obtain ⟨p, hr⟩ := setNodePriority_prioritised I hN (hnode m rfl) hs
    exact h.requeued (hne m rfl) hr
  | addNodePriority t m priority =>
    obtain ⟨p, hr⟩ := addNodePriority_prioritised I hN (hnode m rfl) hs
    exact h.requeued (hne m rfl) hr
  | removeNodePriority t m =>
    obtain ⟨p, hr⟩ := removeNodePriority_prioritised I hN (hnode m rfl) hs
    exact h.requeued (hne m rfl) hr
  | setDefaultNodePriority t m priority =>
    obtain ⟨p, e⟩ := setDefaultNodePriority_edits hs
    exact h.elsewhere e.handles (hne m rfl)
  | scheduleNext t m =>
    obtain ⟨p, hr⟩ := scheduleNext_prioritised I hN (hnode m rfl) hs
    exact h.requeued (hne m rfl) hr
  | setNodeStatic t m =>
    by_cases hoff : P.schedulingMechanism = false
    · have hs : setNodeStatic P s t m = .ok s' := hs
      rw [setNodeStatic, if_pos (by rw [hoff]; decide)] at hs
      obtain rfl := Except.ok.inj hs
      exact h
    · obtain ⟨st, hr⟩ := setNodeStatic_requeued I hN (hnode m rfl) (hown.resolve_left hoff) hs
      exact h.requeued (hne m rfl) hr
  | setNodeMoving t m =>
    by_cases hoff : P.schedulingMechanism = false
    · have hs : setNodeMoving P s t m = .ok s' := hs
      rw [setNodeMoving, if_pos (by rw [hoff]; decide)] at hs
      obtain rfl := Except.ok.inj hs
      exact h
    · obtain ⟨st, hr⟩ := setNodeMoving_requeued I hN (hnode m rfl) (hown.resolve_left hoff) hs
      exact h.requeued (hne m rfl) hr
  | setNodeCpu t m newOwner =>
    obtain rfl | ⟨q, r, o, -⟩ := setNodeCpu_outcome I hN (hnode m rfl) hown hs
    · exact h
    · exact h.elsewhere o.handles (hne m rfl)
  | setNodeAffinity t m affinity =>
    have hs : setNodeCpu P s t m (s.node affinity).owner = .ok s' := hs
    obtain rfl | ⟨q, r, o, -⟩ := setNodeCpu_outcome I hN (hnode m rfl) hown hs
    · exact h
    · exact h.elsewhere o.handles (hne m rfl)

end Bound

/-! ## The request -/

/-- The branches of `set_node_owner`: the node is static for the new owner, and belongs to it unless
a thread works on it. -/
theorem Reassigned.bound {newOwner : ℕ} {q : QueueId} {r : Node π}
    (h : Reassigned P s t n newOwner q r) (hcurrent :
      (s.thread t).currentNode = some n → s.nodeState n = .working) :
    r.static = some newOwner ∧ (r.owner = newOwner ∨ q = .working) := by
  cases h with
  | own hcur => exact ⟨rfl, Or.inr (hcurrent hcur)⟩
  | stay _ ho => exact ⟨rfl, Or.inl ho⟩
  | stealing | queued | idle => exact ⟨rfl, Or.inl rfl⟩
  | working => exact ⟨rfl, Or.inr rfl⟩

theorem setNodeOwner_bound (I : Inv P N s) (hN : N < 2 ^ 30) (hn : 0 < n ∧ n ≤ N)
    (hst : s.started = true) (hlocal : (s.thread t).currentNode = some n ∨ (s.node n).owner = T ∨
      Local s t n) (hs : setNodeOwner P s t n T = .ok s') : Bound s' n T := by
  obtain ⟨q, r, o, hr⟩ := setNodeOwner_outcome I hN hn hlocal hs
  obtain ⟨hstatic, howner⟩ := hr.bound fun hcur => (I.book.current t n hcur).1
  refine ⟨o.handles.started.trans hst, by rw [o.record, hstatic], ?_⟩
  rw [o.record, o.state]
  exact howner

/-- **The request.** -/
theorem Requests.bound (I : Inv P N s) (hN : N < 2 ^ 30) {e : Event π}
    (hnode : ∀ m ∈ e.node, 0 < m ∧ m ≤ N) (hreq : Requests P s n T e) (hown : OwnQueue P s e)
    (hs : step P s e = .ok s') : Bound s' n T := by
  obtain ⟨t, m, rfl, -, -⟩ | ⟨rfl, -, -⟩ | ⟨hst, hs⟩ := step_cases hs
  · exact absurd hreq id
  · exact absurd hreq id
  cases e with
  | setNodeCpu t m newOwner =>
    obtain ⟨hon, rfl, rfl⟩ := hreq
    have hs : setNodeCpu P s t m newOwner = .ok s' := hs
    rw [setNodeCpu, if_neg (by simpa using hon)] at hs
    exact setNodeOwner_bound I hN (hnode m rfl) hst (hown.resolve_left (by simp [hon])) hs
  | setNodeAffinity t m affinity =>
    obtain ⟨hon, rfl, rfl⟩ := hreq
    have hs : setNodeAffinity P s t m affinity = .ok s' := hs
    rw [setNodeAffinity, if_neg (by simpa using hon)] at hs
    exact setNodeOwner_bound I hN (hnode m rfl) hst (hown.resolve_left (by simp [hon])) hs
  | _ => exact absurd hreq id

theorem Requested.bound (hN : N < 2 ^ 30)
    (h : Requested P N (OwnQueue P) (fun s e => OwnQueue P s e ∧ Kept s n e) n T s) :
    Inv P N s ∧ Bound s n T := by
  induction h with
  | request h hnode hreq hok hstep =>
    have I := h.inv hN fun _ _ hown => hown
    exact ⟨step_inv I hN hnode hok.1 hstep, hreq.bound I hN hnode hok.1 hstep⟩
  | step h hnode hother hok hstep ih =>
    obtain ⟨I, hbound⟩ := ih
    refine ⟨step_inv I hN hnode hok.1 hstep, ?_⟩
    obtain ⟨t, m, rfl, hst, -⟩ | ⟨rfl, hst, -⟩ | ⟨-, hs⟩ := step_cases hstep
    · exact absurd (hbound.started.symm.trans hst) (by decide)
    · exact absurd (hbound.started.symm.trans hst) (by decide)
    · exact hbound.act I hN hnode hother hok.1 hok.2 hs

/-- **A request is not lost**: in every state after it in which the node is not being stolen, the
node is static for the thread and belongs to it, or its owner works on it, under the condition.  As
this is so in every later state too, the thread that works on the node hands it over when it lets it
go. -/
theorem requested_atHome (hN : N < 2 ^ 30)
    (h : Requested P N (OwnQueue P) (fun s e => OwnQueue P s e ∧ Kept s n e) n T s)
    (hq : s.nodeState n ≠ .stealing) : AtHome s n T := by
  obtain ⟨I, hbound⟩ := h.bound hN
  refine ⟨hbound.static, ?_⟩
  by_cases hw : s.nodeState n = .working
  · exact Or.inr (I.book.working n hw)
  have ho := hbound.owner_eq hw
  refine Or.inl ⟨ho, ?_⟩
  by_cases hidle : s.nodeState n = .idle
  · exact Or.inl hidle
  obtain ⟨k, hk⟩ : ∃ k : Kind, s.nodeState n = k.number := by
    obtain hk | hs | hw' := busy_of_not_changing (I.book.settled n) hidle
    · exact hk
    · exact absurd hs hq
    · exact absurd hw' hw
  obtain ⟨M, hM⟩ := I.wellQueued hN
  obtain ⟨u, hu⟩ := hM.queued hk
  obtain rfl : T = u := ho.symm.trans (hM.owner hu)
  exact Or.inr ⟨M, k, hM, hu⟩

/-! ## Runs on inputs -/

instance (e : Event π) : Decidable (Kept s n e) :=
  match e with
  | .adopt _ => inferInstanceAs (Decidable (_ → _ → _ → _ ≠ _))
  | .finish _ => inferInstanceAs (Decidable (_ → _ → _ = _))
  | .initNode _ _ | .synchronize | .newWork _ _ _ _ | .popBest _ | .popNormal _ _ | .takeFacts _
  | .runRules _ _ _ | .seeNewOwner _ | .check _ | .handOver _ | .steal _ _ | .setNodePriority _ _ _
  | .addNodePriority _ _ _ | .removeNodePriority _ _ | .setDefaultNodePriority _ _ _
  | .scheduleNext _ _ | .setNodeStatic _ _ | .setNodeMoving _ _ | .setNodeCpu _ _ _
  | .setNodeAffinity _ _ _ => isTrue trivial

section Run

variable {before during : State π → Event π → Prop} [∀ s e, Decidable (before s e)]
variable [∀ s e, Decidable (during s e)]

theorem run_singleton {e : Event π} (h : run P N during s [e] = some s') :
    (∀ m ∈ e.node, 0 < m ∧ m ≤ N) ∧ during s e ∧ step P s e = .ok s' := by
  rw [run] at h
  split at h
  · next hok =>
    split at h
    · next s₁ hstep =>
      obtain rfl := Option.some.inj h
      exact ⟨hok.1, hok.2, hstep⟩
    · exact absurd h.symm (Option.some_ne_none _)
  · exact absurd h.symm (Option.some_ne_none _)

omit [∀ s e, Decidable (before s e)] in
theorem Requested.run {es : List (Event π)} (h : Requested P N before during n T s)
    (hrun : run P N (fun s e => e.coordinated ≠ some n ∧ during s e) s es = some s') :
    Requested P N before during n T s' := by
  induction es generalizing s with
  | nil =>
    obtain rfl := Option.some.inj hrun
    exact h
  | cons e es ih =>
    rw [Coord.run] at hrun
    split at hrun
    · next hok =>
      split at hrun
      · next s₁ hstep => exact ih (h.step hok.1 hok.2.1 hok.2.2 hstep) hrun
      · exact absurd hrun.symm (Option.some_ne_none _)
    · exact absurd hrun.symm (Option.some_ne_none _)

/-- A run with a request after its first part. -/
theorem Requested.of_run {first second : List (Event π)} {e : Event π} (hinit : Initial s)
    (hreq : ∀ s, Requests P s n T e)
    (hrun : ((Coord.run P N before s first).bind fun s => (Coord.run P N during s [e]).bind fun s =>
      Coord.run P N (fun s e => e.coordinated ≠ some n ∧ during s e) s second) = some s') :
    Requested P N before during n T s' := by
  obtain ⟨s₁, h₁, hrun⟩ := Option.bind_eq_some_iff.mp hrun
  obtain ⟨s₂, h₂, hrun⟩ := Option.bind_eq_some_iff.mp hrun
  obtain ⟨hnode, hok, hstep⟩ := run_singleton h₂
  exact (Requested.request ((Reach.init hinit).run h₁) hnode (hreq s₁) hok hstep).run hrun

end Run

/-- The first thread sets up two nodes, and the second thread steals one of them. -/
def stolen : List (Event ℕ) := [.initNode 0 1, .initNode 0 2, .synchronize, .steal 1 0]

/-- While the node is stolen, the first thread sends it to a third one, and the thief brings it
there. -/
theorem requested_atHome_third : ∃ s : State ℕ, s.nodeState 1 = .normalStatic ∧ AtHome s 1 2 := by
  have hend : ((run (scheduled false) 2 (OwnQueue (scheduled false)) start stolen).bind fun s =>
      (run (scheduled false) 2 (fun s e => OwnQueue (scheduled false) s e ∧ Kept s 1 e) s
        [.setNodeCpu 0 1 2]).bind fun s =>
      run (scheduled false) 2 (fun s e => e.coordinated ≠ some 1 ∧
        OwnQueue (scheduled false) s e ∧ Kept s 1 e) s [.adopt 1]).map (fun s => s.nodeState 1) =
      some .normalStatic := by decide +kernel
  obtain ⟨s, hrun, hstate⟩ := Option.map_eq_some_iff.mp hend
  have hreq : ∀ s, Requests (scheduled false) s 1 2 (.setNodeCpu 0 1 2) := fun _ => ⟨rfl, rfl, rfl⟩
  have h := Requested.of_run initial_start hreq hrun
  exact ⟨s, hstate, requested_atHome (by decide) h (by rw [hstate]; decide)⟩

/-- **A request that is lost**: while the node is stolen, the thread that it was stolen from asks
for it, and the thief keeps it. -/
theorem not_forall_requested_atHome : ¬ ∀ s : State ℕ,
    Requested (scheduled false) 2 (fun _ e => e.coordinated ≠ some 1) (fun _ _ => True) 1 0 s →
      s.nodeState 1 ≠ .stealing → AtHome s 1 0 := by
  intro hall
  have hend : ((run (scheduled false) 2 (fun _ e => e.coordinated ≠ some 1) start stolen).bind
      fun s => (run (scheduled false) 2 (fun _ _ => True) s [.setNodeCpu 0 1 0]).bind fun s =>
        run (scheduled false) 2 (fun _ e => e.coordinated ≠ some 1 ∧ True) s [.adopt 1]).map
      (fun s => (s.nodeState 1, (s.node 1).static)) = some (.normalStatic, some 1) := by
    decide +kernel
  obtain ⟨s, hrun, hs⟩ := Option.map_eq_some_iff.mp hend
  simp only [Prod.mk.injEq] at hs
  obtain ⟨hstate, hstatic⟩ := hs
  have hreq : ∀ s, Requests (scheduled false) s 1 0 (.setNodeCpu 0 1 0) := fun _ => ⟨rfl, rfl, rfl⟩
  have h := Requested.of_run initial_start hreq hrun
  obtain ⟨hhome, -⟩ := hall s h (by rw [hstate]; decide)
  exact absurd (hhome.symm.trans hstatic) (by decide)

/-- **A request that is not seen**: the thread that works on the node has found no new owner and no
facts, and then the first thread asks for the node. -/
theorem not_atHome_finished : ∃ s : State ℕ,
    Requested (scheduled false) 2 (fun _ e => e.coordinated ≠ some 1) (fun _ _ => True) 1 0 s ∧
      s.nodeState 1 = .idle ∧ (s.node 1).owner = 1 := by
  have hend : ((run (scheduled false) 2 (fun _ e => e.coordinated ≠ some 1) start
      (stolen ++ [.adopt 1, .popNormal 1 .moving, .takeFacts 1, .check 1])).bind
      fun s => (run (scheduled false) 2 (fun _ _ => True) s [.setNodeCpu 0 1 0]).bind fun s =>
        run (scheduled false) 2 (fun _ e => e.coordinated ≠ some 1 ∧ True) s [.finish 1]).map
      (fun s => (s.nodeState 1, (s.node 1).owner)) = some (.idle, 1) := by
    decide +kernel
  obtain ⟨s, hrun, hs⟩ := Option.map_eq_some_iff.mp hend
  simp only [Prod.mk.injEq] at hs
  have hreq : ∀ s, Requests (scheduled false) s 1 0 (.setNodeCpu 0 1 0) := fun _ => ⟨rfl, rfl, rfl⟩
  exact ⟨s, Requested.of_run initial_start hreq hrun, hs.1, hs.2⟩

end Coord
end Meld
