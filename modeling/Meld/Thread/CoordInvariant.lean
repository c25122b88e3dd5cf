import Meld.Thread.CoordLife

/-!
# Every node in its place

In a run in which `set_node_static`, `set_node_moving`, `set_node_cpu` and `set_node_affinity` are
called for a queued node by its owner only, every queue stays a proper queue of its thread.  The
other threads of a program may call these functions as well, and then the node is taken out of a
queue in which it is not.

* `OwnQueue`: the condition on the calls.
* `act_inv`: a step keeps the invariant.
* `WellQueued`, `reach_wellQueued`: the queues in every state of a run.
-/

namespace Meld
namespace Coord

open State

variable {π : Type} [LinearOrder π] {P : Program π} {s s' : State π} {N n : ℕ}

omit [LinearOrder π] in
/-- **What holds outside the queues is kept** when only `n` is handled and `n` is in order
afterwards. -/
theorem Book.handled (b : Book P N s)
    (hfresh : s'.started = false → ∀ w x, s'.nodeState x = (Kind.priority w).number →
      P.initialPriority ≠ P.noPriority ∧ (s'.obj P x).priority = P.initialPriority)
    (hstate : ∀ x, x ≠ n → s'.nodeState x = s.nodeState x)
    (howner : ∀ x, x ≠ n → (s'.node x).owner = (s.node x).owner)
    (hcur : ∀ t x, x ≠ n →
      ((s'.thread t).currentNode = some x ↔ (s.thread t).currentNode = some x))
    (hbuf : ∀ t x, x ≠ n → x ∈ (s.thread t).buffer → x ∈ (s'.thread t).buffer)
    (hn : s'.nodeState n ≠ .idle → 0 < n ∧ n ≤ N) (hsettled : ¬ Changing (s'.nodeState n))
    (hcurrent : ∀ t, (s'.thread t).currentNode = some n →
      s'.nodeState n = .working ∧ (s'.node n).owner = t)
    (hworking : s'.nodeState n = .working → (s'.thread (s'.node n).owner).currentNode = some n)
    (hstealing : s'.nodeState n = .stealing → ∃ t, n ∈ (s'.thread t).buffer) :
    Book P N s' := by
  refine ⟨?_, ?_, ?_, ?_, ?_, ?_⟩
  · intro x hx
    by_cases hxn : x = n
    · subst hxn
      exact hn hx
    · rw [hstate x hxn] at hx
      exact b.bounded x hx
  · intro x
    by_cases hxn : x = n
    · subst hxn
      exact hsettled
    · rw [hstate x hxn]
      exact b.settled x
  · intro t x hx
    by_cases hxn : x = n
    · subst hxn
      exact hcurrent t hx
    · rw [hstate x hxn, howner x hxn]
      exact b.current t x ((hcur t x hxn).mp hx)
  · intro x hx
    by_cases hxn : x = n
    · subst hxn
      exact hworking hx
    · rw [hstate x hxn] at hx
      rw [howner x hxn]
      exact (hcur _ x hxn).mpr (b.working x hx)
  · intro x hx
    by_cases hxn : x = n
    · subst hxn
      exact hstealing hx
    · rw [hstate x hxn] at hx
      obtain ⟨t, ht⟩ := b.stealing x hx
      exact ⟨t, hbuf t x hxn ht⟩
  · exact hfresh

omit [LinearOrder π] in
/-- Once the threads have started there are no fresh heaps. -/
theorem fresh_of_started (hst : s'.started = true) : s'.started = false → ∀ w x,
    s'.nodeState x = (Kind.priority w).number →
      P.initialPriority ≠ P.noPriority ∧ (s'.obj P x).priority = P.initialPriority := by
  intro hf
  rw [hst] at hf
  exact absurd hf (by decide)

/-- An operation on one node. -/
theorem Inv.outcome (I : Inv P N s) (hst : s.started = true) (hn : 0 < n ∧ n ≤ N) {q : QueueId}
    {r : Node π} (o : Outcome P s s' n q r) (ha : Admits s n q r) : Inv P N s' := by
  have b := I.book
  refine ⟨o.queued, b.handled (fresh_of_started (o.handles.started.trans hst))
    o.handles.nodeState ?_ ?_ ?_
    (fun _ => hn) ?_ ?_ ?_ ?_⟩
  · intro x hx
    rw [o.handles.node x hx]
  · intro t x _
    rw [(o.handles.thread t).currentNode]
  · intro t x _ hx
    rw [(o.handles.thread t).buffer]
    exact hx
  · rw [o.state]
    rcases ha with ⟨rfl, -⟩ | ⟨-, k, rfl⟩
    · exact b.settled n
    · exact fun hc => unqueued_of_changing hc k rfl
  · intro t ht
    rw [(o.handles.thread t).currentNode] at ht
    obtain ⟨hw, ho⟩ := b.current t n ht
    rw [o.state, o.record]
    rcases ha with ⟨rfl, howner⟩ | ⟨hne, -⟩
    · exact ⟨hw, (howner.resolve_right (not_not.mpr hw)).trans ho⟩
    · exact absurd hw hne
  · intro hw
    rw [o.state] at hw
    rw [(o.handles.thread _).currentNode, o.record]
    rcases ha with ⟨rfl, howner⟩ | ⟨-, k, rfl⟩
    · rw [howner.resolve_right (not_not.mpr hw)]
      exact b.working n hw
    · exact absurd hw.symm (unqueued_working k)
  · intro hs
    rw [o.state] at hs
    rcases ha with ⟨rfl, -⟩ | ⟨-, k, rfl⟩
    · obtain ⟨t, ht⟩ := b.stealing n hs
      refine ⟨t, ?_⟩
      rw [(o.handles.thread t).buffer]
      exact ht
    · exact absurd hs.symm (unqueued_stealing k)

theorem Inv.requeued (I : Inv P N s) (hst : s.started = true) (hn : 0 < n ∧ n ≤ N) {r : Node π}
    (h : Requeued P s s' n r) (ho : r.owner = (s.node n).owner) : Inv P N s' := by
  obtain ⟨q, o, ha⟩ := h.admits ho
  exact I.outcome hst hn o ha

/-- The node that a thread works on. -/
theorem Inv.edit_current (I : Inv P N s) (hst : s.started = true) {t : ℕ}
    (hcur : (s.thread t).currentNode = some n) {r : Node π} (e : Edits s s' n r)
    (ho : r.owner = (s.node n).owner) : Inv P N s' := by
  have hw := (I.book.current t n hcur).1
  exact I.requeued hst (I.book.bounded n (by rw [hw]; decide)) (e.requeued I ho) ho

/-- Fields of threads change that nothing depends on. -/
theorem Inv.setThread (I : Inv P N s) (hst : s.started = true) {t : ℕ} {r : Thread}
    (hqueues : r.queues = (s.thread t).queues) (hprios : r.prios = (s.thread t).prios)
    (hcur : r.currentNode = (s.thread t).currentNode) (hbuf : r.buffer = (s.thread t).buffer) :
    Inv P N (s.setThread t r) := by
  obtain ⟨M, hM⟩ := I.queued
  have b := I.book
  have hthread : ∀ t', ((s.setThread t r).thread t').currentNode = (s.thread t').currentNode ∧
      ((s.setThread t r).thread t').buffer = (s.thread t').buffer := by
    intro t'
    by_cases ht : t' = t
    · subst ht
      simp only [State.setThread, Function.update_self]
      exact ⟨hcur, hbuf⟩
    · simp only [State.setThread, Function.update_of_ne ht, and_self]
  refine ⟨⟨M, hM.setThread hqueues hprios⟩, b.bounded, b.settled, ?_, ?_, ?_, ?_⟩
  · intro t' m hm
    rw [(hthread t').1] at hm
    exact b.current t' m hm
  · intro m hm
    rw [(hthread _).1]
    exact b.working m hm
  · intro m hm
    obtain ⟨t', ht'⟩ := b.stealing m hm
    exact ⟨t', by rw [(hthread t').2]; exact ht'⟩
  · intro hf
    exact absurd (hst.symm.trans hf) (by decide)

section Threads

variable {t : ℕ} {s₁ : State π} {q : QueueId} {r : Node π} {c : Option ℕ}

omit [LinearOrder π] in
@[simp] theorem nodeState_setCurrent (x : ℕ) : (s.setCurrent t c).nodeState x = s.nodeState x := rfl

omit [LinearOrder π] in
@[simp] theorem node_setCurrent : (s.setCurrent t c).node = s.node := rfl

omit [LinearOrder π] in
theorem currentNode_setCurrent (t' : ℕ) : ((s.setCurrent t c).thread t').currentNode =
    if t' = t then c else (s.thread t').currentNode := by
  by_cases ht : t' = t
  · subst ht
    simp only [setCurrent, State.setThread, Function.update_self, if_true]
  · simp only [setCurrent, State.setThread, Function.update_of_ne ht, if_neg ht]

omit [LinearOrder π] in
@[simp] theorem buffer_setCurrent (t' : ℕ) :
    ((s.setCurrent t c).thread t').buffer = (s.thread t').buffer := by
  by_cases ht : t' = t
  · subst ht
    simp only [setCurrent, State.setThread, Function.update_self]
  · simp only [setCurrent, State.setThread, Function.update_of_ne ht]

theorem Queued.setCurrent {M : ℕ → Kind → List ℕ} (h : Queued P s M) :
    Queued P (s.setCurrent t c) M := h.setThread rfl rfl

/-- A thread takes a node or lets it go: who works on the others stays. -/
theorem Outcome.works_iff (o : Outcome P s s₁ n q r) {t' x : ℕ}
    (hold : (s.thread t).currentNode ≠ some x) (hnew : c ≠ some x) :
    ((s₁.setCurrent t c).thread t').currentNode = some x ↔
      (s.thread t').currentNode = some x := by
  rw [currentNode_setCurrent, (o.handles.thread t').currentNode]
  by_cases ht : t' = t
  · subst ht
    rw [if_pos rfl]
    exact iff_of_false hnew hold
  · rw [if_neg ht]

/-- **A thread lets its node go.** -/
theorem Inv.release (I : Inv P N s) (hst : s.started = true)
    (hcur : (s.thread t).currentNode = some n) (o : Outcome P s s₁ n q r)
    (hq : q = .idle ∨ ∃ k : Kind, q = k.number) : Inv P N (s₁.setCurrent t none) := by
  have b := I.book
  obtain ⟨hw, ho⟩ := b.current t n hcur
  obtain ⟨M, hM⟩ := o.queued
  have hstate : (s₁.setCurrent t none).nodeState n = q := o.state
  have hthread : ∀ t', ((s₁.setCurrent t none).thread t').currentNode =
      if t' = t then none else (s.thread t').currentNode := by
    intro t'
    rw [currentNode_setCurrent, (o.handles.thread t').currentNode]
  refine ⟨⟨M, hM.setCurrent⟩, b.handled (fresh_of_started (o.handles.started.trans hst))
    o.handles.nodeState ?_ ?_ ?_
    (fun _ => b.bounded n (by rw [hw]; decide)) ?_ ?_ ?_ ?_⟩
  · intro x hx
    rw [node_setCurrent, o.handles.node x hx]
  · intro t' x hx
    exact o.works_iff (by rw [hcur]; exact fun h => hx (Option.some.inj h).symm) nofun
  · intro t' x _ hx
    rw [buffer_setCurrent, (o.handles.thread t').buffer]
    exact hx
  · rw [hstate]
    rcases hq with rfl | ⟨k, rfl⟩
    · rintro (h | h | h) <;> exact absurd h (by decide)
    · exact fun hc => unqueued_of_changing hc k rfl
  · intro t' ht'
    rw [hthread t'] at ht'
    by_cases ht : t' = t
    · rw [if_pos ht] at ht'
      exact absurd ht' (by simp)
    · rw [if_neg ht] at ht'
      exact absurd ((b.current t' n ht').2.symm.trans ho) ht
  · intro hc
    rw [hstate] at hc
    rcases hq with rfl | ⟨k, rfl⟩
    · exact absurd hc (by decide)
    · exact absurd hc.symm (unqueued_working k)
  · intro hc
    rw [hstate] at hc
    rcases hq with rfl | ⟨k, rfl⟩
    · exact absurd hc (by decide)
    · exact absurd hc.symm (unqueued_stealing k)

/-- **A thread takes a node.** -/
theorem Inv.taken (I : Inv P N s) (hst : s.started = true)
    (hcur : (s.thread t).currentNode = none) (h : Taken P s t s') : Inv P N s' := by
  have b := I.book
  cases h with
  | none => exact I.setThread hst rfl rfl hcur.symm rfl
  | @some s₁ n k o hstate ho =>
    obtain ⟨M, hM⟩ := o.queued
    have hthread : ∀ t', ((s₁.setCurrent t (some n)).thread t').currentNode =
        if t' = t then some n else (s.thread t').currentNode := by
      intro t'
      rw [currentNode_setCurrent, (o.handles.thread t').currentNode]
    have hwork : (s₁.setCurrent t (some n)).nodeState n = .working := o.state
    have howner : ((s₁.setCurrent t (some n)).node n).owner = t := by
      rw [node_setCurrent, o.record]
      exact ho
    refine ⟨⟨M, hM.setCurrent⟩, b.handled (fresh_of_started (o.handles.started.trans hst))
    o.handles.nodeState ?_ ?_
      ?_ (fun _ => b.bounded n (by rw [hstate]; exact k.number_ne_idle)) ?_ ?_ ?_ ?_⟩
    · intro x hx
      rw [node_setCurrent, o.handles.node x hx]
    · intro t' x hx
      exact o.works_iff (by rw [hcur]; nofun) fun h => hx (Option.some.inj h).symm
    · intro t' x _ hx
      rw [buffer_setCurrent, (o.handles.thread t').buffer]
      exact hx
    · rw [hwork]
      rintro (h | h | h) <;> exact absurd h (by decide)
    · intro t' ht'
      refine ⟨hwork, ?_⟩
      rw [hthread t'] at ht'
      by_cases ht : t' = t
      · rw [ht]
        exact howner
      · rw [if_neg ht] at ht'
        have hw := (b.current t' n ht').1
        rw [hstate] at hw
        exact absurd hw.symm (unqueued_working k)
    · intro _
      rw [howner, hthread t, if_pos rfl]
    · intro hc
      rw [hwork] at hc
      exact absurd hc (by decide)

/-- **A thread steals nodes.** -/
theorem Inv.steal (I : Inv P N s) (hst : s.started = true) (hN : N < 2 ^ 30) {u : ℕ}
    (h : steal P s t u = .ok s') : Inv P N s' := by
  have b := I.book
  rw [Coord.steal] at h
  split at h
  · exact absurd h (by simp)
  next hidle =>
  obtain ⟨-, hidle⟩ := not_or.mp hidle
  obtain ⟨-, hbuf⟩ := not_or.mp hidle
  have hbuf : (s.thread t).buffer = [] := not_not.mp hbuf
  obtain ⟨r, hr, h⟩ := Result.bind_eq_ok h
  obtain rfl := Except.ok.inj h
  obtain ⟨⟨M, hM⟩, hp, hmoving⟩ := stealNodes_places I hN hr
  obtain ⟨m, hm⟩ : ∃ m, m = r.2 := ⟨_, rfl⟩
  rw [← hm] at hp hmoving ⊢
  have hsame : ∀ t', ((r.1.setThread t { r.1.thread t with target := u, buffer := m }).thread
      t').currentNode = (s.thread t').currentNode ∧
      ((r.1.setThread t { r.1.thread t with target := u, buffer := m }).thread t').buffer =
        if t' = t then m else (s.thread t').buffer := by
    intro t'
    by_cases ht : t' = t
    · subst ht
      simp only [State.setThread, Function.update_self, if_true, (hp.thread t').currentNode,
        and_self]
    · simp only [State.setThread, Function.update_of_ne ht, if_neg ht, (hp.thread t').currentNode,
        (hp.thread t').buffer, and_self]
  have hnotwork : ∀ x ∈ m, s.nodeState x ≠ .working := by
    intro x hx hw
    rcases (hmoving x hx).2 with hs | hs <;> exact absurd (hs.symm.trans hw) (by decide)
  refine ⟨⟨M, hM.setThread rfl rfl⟩, ?_, ?_, ?_, ?_, ?_, ?_⟩
  · refine hp.bounded b.bounded fun x hx => b.bounded x ?_
    rcases (hmoving x hx).2 with hs | hs <;> rw [hs] <;> decide
  · intro x
    show ¬ Changing (r.1.nodeState x)
    by_cases hx : x ∈ m
    · rw [hp.self x hx]
      rintro (h | h | h) <;> exact absurd h (by decide)
    · rw [hp.elsewhere x hx]
      exact b.settled x
  · intro t' x hx
    rw [(hsame t').1] at hx
    obtain ⟨hw, ho⟩ := b.current t' x hx
    have hxm : x ∉ m := fun hxm => hnotwork x hxm hw
    show r.1.nodeState x = .working ∧ (r.1.node x).owner = t'
    rw [hp.elsewhere x hxm, hp.node]
    exact ⟨hw, ho⟩
  · intro x hx
    have hx : r.1.nodeState x = .working := hx
    have hxm : x ∉ m := by
      intro hxm
      rw [hp.self x hxm] at hx
      exact absurd hx (by decide)
    rw [hp.elsewhere x hxm] at hx
    rw [(hsame _).1]
    show (s.thread (r.1.node x).owner).currentNode = some x
    rw [hp.node]
    exact b.working x hx
  · intro x hx
    have hx : r.1.nodeState x = .stealing := hx
    by_cases hxm : x ∈ m
    · exact ⟨t, by rw [(hsame t).2, if_pos rfl]; exact hxm⟩
    · rw [hp.elsewhere x hxm] at hx
      obtain ⟨t', ht'⟩ := b.stealing x hx
      refine ⟨t', ?_⟩
      rw [(hsame t').2, if_neg]
      · exact ht'
      · -- the buffer of the thief was empty
        rintro rfl
        rw [hbuf] at ht'
        exact absurd ht' List.not_mem_nil
  · intro hf
    exact absurd ((hp.started.trans hst).symm.trans hf) (by decide)

omit [LinearOrder π] in
theorem buffer_setThread (rest : List ℕ) (t' : ℕ) :
    ((s.setThread t { s.thread t with buffer := rest }).thread t').currentNode =
        (s.thread t').currentNode ∧
      ((s.setThread t { s.thread t with buffer := rest }).thread t').buffer =
        if t' = t then rest else (s.thread t').buffer := by
  by_cases ht : t' = t
  · subst ht
    simp only [State.setThread, Function.update_self, if_true, and_self]
  · simp only [State.setThread, Function.update_of_ne ht, if_neg ht, and_self]

/-- **A stolen node comes to a queue.** -/
theorem Inv.adopt (I : Inv P N s) (hst : s.started = true) (hN : N < 2 ^ 30)
    (h : adopt P s t = .ok s') : Inv P N s' := by
  have b := I.book
  obtain ⟨n, rest, s₁, hbuf, hs₁, hcase⟩ := adopt_outcome I hN h
  have hbuffer : ∀ t' x, x ≠ n → x ∈ (s.thread t').buffer → x ∈ (s₁.thread t').buffer := by
    intro t' x hx hmem
    rw [hs₁, (buffer_setThread rest t').2]
    by_cases ht : t' = t
    · subst ht
      rw [hbuf] at hmem
      rw [if_pos rfl]
      exact (List.mem_cons.mp hmem).resolve_left hx
    · rw [if_neg ht]
      exact hmem
  have hcurrent : ∀ t', (s₁.thread t').currentNode = (s.thread t').currentNode := by
    intro t'
    rw [hs₁, (buffer_setThread rest t').1]
  rcases hcase with ⟨hne, rfl⟩ | ⟨hstealing, r, o, -⟩
  · obtain ⟨M, hM⟩ := I.queued
    have hM' : Queued P s' M := by
      rw [hs₁]
      exact hM.setThread rfl rfl
    have hnode : s'.node = s.node := by rw [hs₁]; rfl
    have hstate : s'.nodeState = s.nodeState := by rw [hs₁]; rfl
    refine ⟨⟨M, hM'⟩, b.handled (n := n) (fresh_of_started ?_) (fun x _ => by rw [hstate])
      (fun x _ => by rw [hnode]) (fun t' x _ => by rw [hcurrent t']) hbuffer ?_ ?_ ?_ ?_ ?_⟩
    · rw [hs₁]
      exact hst
    · rw [hstate]
      exact b.bounded n
    · rw [hstate]
      exact b.settled n
    · intro t' ht'
      rw [hcurrent t'] at ht'
      rw [hstate, hnode]
      exact b.current t' n ht'
    · intro hw
      rw [hstate] at hw
      rw [hnode, hcurrent]
      exact b.working n hw
    · intro hs
      rw [hstate] at hs
      exact absurd hs hne
  · have hstate : s'.nodeState n = _ := o.state
    have hs₁state : ∀ x, s₁.nodeState x = s.nodeState x := fun x => by rw [hs₁]; rfl
    have hs₁node : s₁.node = s.node := by rw [hs₁]; rfl
    refine ⟨o.queued, b.handled (n := n) (fresh_of_started ?_) ?_ ?_ ?_ ?_ ?_ ?_ ?_ ?_ ?_⟩
    · rw [o.handles.started, hs₁]
      exact hst
    · intro x hx
      rw [o.handles.nodeState x hx, hs₁state]
    · intro x hx
      rw [o.handles.node x hx, hs₁node]
    · intro t' x _
      rw [(o.handles.thread t').currentNode, hcurrent t']
    · intro t' x hx hmem
      rw [(o.handles.thread t').buffer]
      exact hbuffer t' x hx hmem
    · intro _
      exact b.bounded n (by rw [hstealing]; decide)
    · rw [hstate]
      exact fun hc => unqueued_of_changing hc _ rfl
    · intro t' ht'
      rw [(o.handles.thread t').currentNode, hcurrent t'] at ht'
      have hw := (b.current t' n ht').1
      exact absurd (hstealing.symm.trans hw) (by decide)
    · intro hw
      rw [hstate] at hw
      exact absurd hw.symm (unqueued_working _)
    · intro hs
      rw [hstate] at hs
      exact absurd hs.symm (unqueued_stealing _)

end Threads

/-! ## Runs -/

/-- **The condition on the calls**: a thread that takes a node out of a queue to make it static or
moving, or to give it away, is the owner of the node.  The other cases are those in which the
function does not come to a queue. -/
def OwnQueue (P : Program π) (s : State π) : Event π → Prop
  | .setNodeStatic t n => P.schedulingMechanism = false ∨ (s.thread t).currentNode = some n ∨
      (s.node n).static.isSome ∨ Local s t n
  | .setNodeMoving t n => P.schedulingMechanism = false ∨ (s.thread t).currentNode = some n ∨
      (s.node n).static.isNone ∨ Local s t n
  | .setNodeCpu t n newOwner => P.schedulingMechanism = false ∨
      (s.thread t).currentNode = some n ∨ (s.node n).owner = newOwner ∨ Local s t n
  | .setNodeAffinity t n affinity => P.schedulingMechanism = false ∨
      (s.thread t).currentNode = some n ∨ (s.node n).owner = (s.node affinity).owner ∨ Local s t n
  | _ => True

theorem setNodePriority_prioritised (I : Inv P N s) (hN : N < 2 ^ 30) (hn : 0 < n ∧ n ≤ N) {t : ℕ}
    {priority : π} (h : setNodePriority P s t n priority = .ok s') : Prioritised P s s' n := by
  have hsame : Prioritised P s s n := ⟨_, (Edits.refl s n).requeued I rfl⟩
  rw [setNodePriority] at h
  split at h
  · obtain rfl := Except.ok.inj h
    exact hsame
  split at h
  · obtain rfl := Except.ok.inj h
    exact hsame
  split at h
  · next ho => exact doSetNodePriority_prioritised I hN hn ho h
  · exact doSetNodePriorityOther_prioritised I hN hn h

theorem addNodePriority_prioritised (I : Inv P N s) (hN : N < 2 ^ 30) (hn : 0 < n ∧ n ≤ N) {t : ℕ}
    {priority : π} (h : addNodePriority P s t n priority = .ok s') : Prioritised P s s' n := by
  have hsame : Prioritised P s s n := ⟨_, (Edits.refl s n).requeued I rfl⟩
  rw [addNodePriority] at h
  split at h
  · obtain rfl := Except.ok.inj h
    exact hsame
  split at h
  · obtain rfl := Except.ok.inj h
    exact hsame
  simp only at h
  split at h
  · next ho => exact doSetNodePriority_prioritised I hN hn ho h
  · exact doSetNodePriorityOther_prioritised I hN hn h

theorem scheduleNext_prioritised (I : Inv P N s) (hN : N < 2 ^ 30) (hn : 0 < n ∧ n ≤ N) {t : ℕ}
    (h : scheduleNext P s t n = .ok s') : Prioritised P s s' n := by
  rw [scheduleNext] at h
  split at h
  · next ho => exact doSetNodePriority_prioritised I hN hn ho h
  · obtain rfl := Except.ok.inj h
    exact ⟨_, (Edits.refl s n).requeued I rfl⟩

theorem removeNodePriority_prioritised (I : Inv P N s) (hN : N < 2 ^ 30) (hn : 0 < n ∧ n ≤ N)
    {t : ℕ} (h : removeNodePriority P s t n = .ok s') : Prioritised P s s' n := by
  rw [removeNodePriority] at h
  split at h
  · obtain rfl := Except.ok.inj h
    exact ⟨_, (Edits.refl s n).requeued I rfl⟩
  split at h
  · obtain rfl := Except.ok.inj h
    exact ⟨_, (edits_level s n _).requeued I rfl⟩
  split at h
  · next ho => exact doRemoveNodePriority_prioritised I hN hn ho h
  · exact doRemoveNodePriorityOther_prioritised I hN hn h

omit [LinearOrder π] in
theorem setDefaultNodePriority_edits {priority : π}
    (h : setDefaultNodePriority P s n priority = .ok s') :
    ∃ p, Edits s s' n { s.node n with defaultPriorityLevel := p } := by
  rw [setDefaultNodePriority] at h
  split at h
  · obtain rfl := Except.ok.inj h
    exact ⟨_, Edits.refl s n⟩
  · obtain rfl := Except.ok.inj h
    exact ⟨_, edits_setNode s n _⟩

/-- What `set_node_cpu` and `set_node_affinity` leave, with the mechanism switched off or on. -/
theorem setNodeCpu_outcome (I : Inv P N s) (hN : N < 2 ^ 30) (hn : 0 < n ∧ n ≤ N) {t : ℕ}
    {newOwner : ℕ} (hok : P.schedulingMechanism = false ∨ (s.thread t).currentNode = some n ∨
      (s.node n).owner = newOwner ∨ Local s t n)
    (h : setNodeCpu P s t n newOwner = .ok s') :
    s' = s ∨ ∃ q r, Outcome P s s' n q r ∧ Reassigned P s t n newOwner q r := by
  rw [setNodeCpu] at h
  split at h
  · obtain rfl := Except.ok.inj h
    exact Or.inl rfl
  · next hon =>
    exact Or.inr (setNodeOwner_outcome I hN hn
      (hok.resolve_left fun hoff => hon (by rw [hoff]; decide)) h)

/-- **A step keeps every node in its place.** -/
theorem act_inv (I : Inv P N s) (hst : s.started = true) (hN : N < 2 ^ 30) {e : Event π}
    (hnode : ∀ n ∈ e.node, 0 < n ∧ n ≤ N) (hok : OwnQueue P s e) (h : act P s e = .ok s') :
    Inv P N s' := by
  cases e with
  | initNode t n => exact absurd h (by simp [act])
  | synchronize => exact absurd h (by simp [act])
  | newWork t n w locked =>
    obtain ⟨q, db, d, o, -, -, hq⟩ := newWork_outcome I hN (hnode n rfl) h
    refine I.outcome hst (hnode n rfl) o ?_
    rcases hq with ⟨-, hq⟩ | ⟨hidle, hq⟩
    · exact Or.inl ⟨hq, Or.inl rfl⟩
    · exact Or.inr ⟨by rw [hidle]; decide, _, hq⟩
  | popBest t =>
    obtain ⟨hcur, -, htaken⟩ := popBest_taken I hN h
    exact I.taken hst hcur htaken
  | popNormal t w =>
    obtain ⟨hcur, -, htaken⟩ := popNormal_taken I h
    exact I.taken hst hcur htaken
  | takeFacts t =>
    obtain ⟨n, db, -, hcur, -, e⟩ := takeFacts_edits h
    exact I.edit_current hst hcur e rfl
  | runRules t linear matcher =>
    obtain ⟨n, -, hcur, e⟩ := runRules_edits h
    exact I.edit_current hst hcur e rfl
  | seeNewOwner t =>
    obtain ⟨n, facts, -, hcur, -, e⟩ := seeNewOwner_edits h
    exact I.edit_current hst hcur e rfl
  | check t =>
    have h : check s t = .ok s' := h
    rw [check] at h
    obtain ⟨n, -, h⟩ := Result.bind_eq_ok h
    obtain rfl := Except.ok.inj h
    exact I.setThread hst rfl rfl rfl rfl
  | handOver t =>
    obtain ⟨n, newOwner, s₁, r, -, hcur, -, rfl, -, o⟩ := handOver_outcome I hN h
    exact I.release hst hcur o (Or.inr ⟨_, rfl⟩)
  | finish t =>
    obtain ⟨n, -, hcur, ⟨-, rfl⟩ | ⟨-, s₁, rfl, o⟩⟩ := finish_outcome I h
    · exact I.setThread hst rfl rfl rfl rfl
    · exact I.release hst hcur o (Or.inl rfl)
  | steal t u => exact I.steal hst hN h
  | adopt t => exact I.adopt hst hN h
  | setNodePriority t n priority =>
    obtain ⟨p, hr⟩ := setNodePriority_prioritised I hN (hnode n rfl) h
    exact I.requeued hst (hnode n rfl) hr rfl
  | addNodePriority t n priority =>
    obtain ⟨p, hr⟩ := addNodePriority_prioritised I hN (hnode n rfl) h
    exact I.requeued hst (hnode n rfl) hr rfl
  | removeNodePriority t n =>
    obtain ⟨p, hr⟩ := removeNodePriority_prioritised I hN (hnode n rfl) h
    exact I.requeued hst (hnode n rfl) hr rfl
  | setDefaultNodePriority t n priority =>
    obtain ⟨p, e⟩ := setDefaultNodePriority_edits h
    exact I.requeued hst (hnode n rfl) (e.requeued I rfl) rfl
  | scheduleNext t n =>
    obtain ⟨p, hr⟩ := scheduleNext_prioritised I hN (hnode n rfl) h
    exact I.requeued hst (hnode n rfl) hr rfl
  | setNodeStatic t n =>
    by_cases hoff : P.schedulingMechanism = false
    · have h : setNodeStatic P s t n = .ok s' := h
      rw [setNodeStatic, if_pos (by rw [hoff]; decide)] at h
      obtain rfl := Except.ok.inj h
      exact I
    · obtain ⟨st, hr⟩ := setNodeStatic_requeued I hN (hnode n rfl) (hok.resolve_left hoff) h
      exact I.requeued hst (hnode n rfl) hr rfl
  | setNodeMoving t n =>
    by_cases hoff : P.schedulingMechanism = false
    · have h : setNodeMoving P s t n = .ok s' := h
      rw [setNodeMoving, if_pos (by rw [hoff]; decide)] at h
      obtain rfl := Except.ok.inj h
      exact I
    · obtain ⟨st, hr⟩ := setNodeMoving_requeued I hN (hnode n rfl) (hok.resolve_left hoff) h
      exact I.requeued hst (hnode n rfl) hr rfl
  | setNodeCpu t n newOwner =>
    rcases setNodeCpu_outcome I hN (hnode n rfl) hok h with rfl | ⟨q, r, o, hr⟩
    · exact I
    · exact I.outcome hst (hnode n rfl) o hr.admits
  | setNodeAffinity t n affinity =>
    -- the same call with the owner of the other node
    have h : setNodeCpu P s t n (s.node affinity).owner = .ok s' := h
    rcases setNodeCpu_outcome I hN (hnode n rfl) hok h with rfl | ⟨q, r, o, hr⟩
    · exact I
    · exact I.outcome hst (hnode n rfl) o hr.admits

/-- Setting up a node keeps every node in its place. -/
theorem initNode_inv (I : Inv P N s) (hst : s.started = false) (hN : N < 2 ^ 30)
    (hn : 0 < n ∧ n ≤ N) {t : ℕ} (h : initNode P s t n = .ok s') : Inv P N s' := by
  have b := I.book
  obtain ⟨hidle, k, db, o, -, hfresh⟩ := initNode_outcome I hst hN hn h
  refine ⟨o.queued, b.handled (fun _ => hfresh) o.handles.nodeState ?_ ?_ ?_ (fun _ => hn) ?_ ?_ ?_
    ?_⟩
  · intro x hx
    rw [o.handles.node x hx]
  · intro t' x _
    rw [(o.handles.thread t').currentNode]
  · intro t' x _ hx
    rw [(o.handles.thread t').buffer]
    exact hx
  · rw [o.state]
    exact fun hc => unqueued_of_changing hc k rfl
  · intro t' ht'
    rw [(o.handles.thread t').currentNode] at ht'
    have hw := (b.current t' n ht').1
    exact absurd (hidle.symm.trans hw) (by decide)
  · intro hw
    rw [o.state] at hw
    exact absurd hw.symm (unqueued_working k)
  · intro hs
    rw [o.state] at hs
    exact absurd hs.symm (unqueued_stealing k)

/-- **What a step can be**: a node is set up, the threads start, or one of them goes on. -/
theorem step_cases {e : Event π} (h : step P s e = .ok s') :
    (∃ t n, e = .initNode t n ∧ s.started = false ∧ initNode P s t n = .ok s') ∨
    (e = .synchronize ∧ s.started = false ∧ s' = { s with started := true }) ∨
    (s.started = true ∧ act P s e = .ok s') := by
  have hact : (if s.started = true then act P s e else .error .disabled) = .ok s' →
      s.started = true ∧ act P s e = .ok s' := by
    intro h
    split at h
    · next hst => exact ⟨hst, h⟩
    · exact absurd h (by simp)
  cases e with
  | initNode t n =>
    have h : (if s.started = true then .error .disabled else initNode P s t n) = .ok s' := h
    split at h
    · exact absurd h (by simp)
    · next hst => exact Or.inl ⟨t, n, rfl, by simpa using hst, h⟩
  | synchronize =>
    have h : (if s.started = true then .error .disabled else .ok { s with started := true }) =
        (.ok s' : Result (State π)) := h
    split at h
    · exact absurd h (by simp)
    · next hst => exact Or.inr (Or.inl ⟨rfl, by simpa using hst, (Except.ok.inj h).symm⟩)
  | newWork | popBest | popNormal | takeFacts | runRules | seeNewOwner | check | handOver | finish
  | steal | adopt | setNodePriority | addNodePriority | removeNodePriority
  | setDefaultNodePriority | scheduleNext | setNodeStatic | setNodeMoving | setNodeCpu
  | setNodeAffinity => exact Or.inr (Or.inr (hact h))

theorem step_inv (I : Inv P N s) (hN : N < 2 ^ 30) {e : Event π}
    (hnode : ∀ n ∈ e.node, 0 < n ∧ n ≤ N) (hok : OwnQueue P s e) (h : step P s e = .ok s') :
    Inv P N s' := by
  rcases step_cases h with ⟨t, n, rfl, hst, h⟩ | ⟨rfl, -, rfl⟩ | ⟨hst, h⟩
  · exact initNode_inv I hst hN (hnode n rfl) h
  · obtain ⟨M, hM⟩ := I.queued
    have b := I.book
    exact ⟨⟨M, hM.congr rfl (fun t k => by cases k <;> rfl) fun _ => Or.inl rfl⟩,
      b.bounded, b.settled, b.current, b.working, b.stealing, fresh_of_started rfl⟩
  · exact act_inv I hst hN hnode hok h

theorem inv_init (h : Initial s) : Inv P N s := by
  refine ⟨⟨fun _ _ => [], ?_, ?_⟩, ?_, ?_, ?_, ?_, ?_, ?_⟩
  · intro t k
    cases k with
    | normal w =>
      refine DoubleQueue.holds_nil ?_ ?_ ?_
      · simp only [State.normal, h.queues]
      · simp only [State.normal, h.queues]
      · simp only [State.normal, h.queues]
    | priority w =>
      have hheap : ((s.heaps P t).get w).heap = [] := by
        rw [Priorities.heap_get, heap_heaps, h.prios]
      refine ⟨h.prios t w, ?_, ?_, ?_⟩
      · intro i _ hi
        rw [hheap] at hi
        exact absurd hi (Nat.not_lt_zero i)
      · intro i x hx
        rw [hheap] at hx
        exact absurd hx (by simp)
      · intro x hx
        rw [hheap] at hx
        exact absurd hx List.not_mem_nil
  · intro t k x
    rw [h.nodeState x]
    exact iff_of_false List.not_mem_nil fun hc => unqueued_idle k hc.2
  · intro x hx
    exact absurd (h.nodeState x) hx
  · intro x
    rw [h.nodeState x]
    rintro (hc | hc | hc) <;> exact absurd hc (by decide)
  · intro t n hn
    rw [h.currentNode t] at hn
    exact absurd hn (by simp)
  · intro n hn
    exact absurd ((h.nodeState n).symm.trans hn) (by decide)
  · intro n hn
    exact absurd ((h.nodeState n).symm.trans hn) (by decide)
  · intro _ w x hx
    rw [h.nodeState x] at hx
    exact absurd hx (unqueued_idle (.priority w))

theorem Reach.inv (hN : N < 2 ^ 30) {allowed : State π → Event π → Prop}
    (hallowed : ∀ s e, allowed s e → OwnQueue P s e) (h : Reach P N allowed s) : Inv P N s := by
  induction h with
  | init h => exact inv_init h
  | step h hnode hok hstep ih => exact step_inv ih hN hnode (hallowed _ _ hok) hstep

/-! ## The queues in every state -/

/-- The members of a queue: those that the links lead to from its head, or those in the array. -/
def Members (s : State π) (t : ℕ) : Kind → List ℕ → Prop
  | .normal w, l => ((s.thread t).queues w).head = l.headD 0 ∧
      ((s.thread t).queues w).tail = l.getLastD 0 ∧
      Linked.Seg (DoubleQueue.links s.link) 0 l 0 ∧ 0 ∉ l
  | .priority w, l => (s.thread t).prios w = l

/-- The number of members that a queue has counted. -/
def total (s : State π) (t : ℕ) : Kind → ℕ
  | .normal w => ((s.thread t).queues w).total.toNat
  | .priority w => ((s.thread t).prios w).length

/-- **Every node is in one queue at most**, this queue is one of its owner, the state of the node
says which, and the queues have counted their members. -/
structure WellQueued (s : State π) (M : ℕ → Kind → List ℕ) : Prop where
  members : ∀ t k, Members s t k (M t k)
  nodup : ∀ t k, (M t k).Nodup
  once : ∀ {t k t' k' x}, x ∈ M t k → x ∈ M t' k' → t' = t ∧ k' = k
  owner : ∀ {t k x}, x ∈ M t k → (s.node x).owner = t
  state : ∀ {t k x}, x ∈ M t k → s.nodeState x = k.number
  queued : ∀ {k x}, s.nodeState x = k.number → ∃ t, x ∈ M t k
  total : ∀ t k, total s t k = (M t k).length

theorem Has.members {t : ℕ} {k : Kind} {l : List ℕ} (h : Has P s t k l) : Members s t k l := by
  cases k with
  | normal w =>
    have hholds : (s.normal t w).Holds l := h
    exact ⟨hholds.head, hholds.tail, hholds.seg, hholds.null⟩
  | priority w => exact h.1

theorem Has.total {t : ℕ} {k : Kind} {l : List ℕ} (h : Has P s t k l) (hl : l.length < 2 ^ 64) :
    total s t k = l.length := by
  cases k with
  | normal w =>
    have htotal := DoubleQueue.Holds.total h
    have htotal : ((s.thread t).queues w).total = BitVec.ofNat 64 l.length := htotal
    rw [Coord.total, htotal, BitVec.toNat_ofNat, Nat.mod_eq_of_lt hl]
  | priority w => rw [Coord.total, h.1]

theorem Inv.wellQueued (I : Inv P N s) (hN : N < 2 ^ 30) : ∃ M, WellQueued s M := by
  obtain ⟨M, hM⟩ := I.queued
  refine ⟨M, fun t k => (hM.has t k).members, fun t k => (hM.has t k).nodup, hM.unique,
    fun hx => ((hM.mem _ _ _).mp hx).1, fun hx => ((hM.mem _ _ _).mp hx).2,
    fun hx => ⟨_, (hM.mem _ _ _).mpr ⟨rfl, hx⟩⟩, ?_⟩
  intro t k
  exact (hM.has t k).total (lt_trans (hM.length_lt hN I.book.bounded) (by decide))

/-- **In every state of a run in which the calls for queued nodes come from their owners, every node
is in its place.** -/
theorem reach_wellQueued (hN : N < 2 ^ 30) (h : Reach P N (OwnQueue P) s) :
    ∃ M, WellQueued s M :=
  (h.inv hN fun _ _ hok => hok).wellQueued hN

/-! ## Runs on inputs -/

/-- A run of given steps, as long as they are allowed. -/
def run (P : Program π) (N : ℕ) (allowed : State π → Event π → Prop)
    [∀ s e, Decidable (allowed s e)] (s : State π) : List (Event π) → Option (State π)
  | [] => some s
  | e :: es =>
    if (∀ n ∈ e.node, 0 < n ∧ n ≤ N) ∧ allowed s e then
      match step P s e with
      | .ok s' => run P N allowed s' es
      | .error _ => none
    else none

theorem Reach.run {allowed : State π → Event π → Prop} [∀ s e, Decidable (allowed s e)]
    {es : List (Event π)} (h : Reach P N allowed s) (hrun : run P N allowed s es = some s') :
    Reach P N allowed s' := by
  induction es generalizing s with
  | nil =>
    obtain rfl := Option.some.inj hrun
    exact h
  | cons e es ih =>
    rw [Coord.run] at hrun
    split at hrun
    · next hok =>
      split at hrun
      · next s₁ hstep => exact ih (h.step hok.1 hok.2 hstep) hrun
      · exact absurd hrun (by simp)
    · exact absurd hrun (by simp)

/-- The states that are numbers of queues. -/
def queueNumbers : List QueueId := [.normalMoving, .normalStatic, .priorityMoving, .priorityStatic]

theorem mem_queueNumbers {q : QueueId} : q ∈ queueNumbers ↔ ∃ k : Kind, q = k.number := by
  constructor
  · intro hq
    rcases List.mem_cons.mp hq with rfl | hq
    · exact ⟨.normal .moving, rfl⟩
    rcases List.mem_cons.mp hq with rfl | hq
    · exact ⟨.normal .stati, rfl⟩
    rcases List.mem_cons.mp hq with rfl | hq
    · exact ⟨.priority .moving, rfl⟩
    · rw [List.mem_singleton.mp hq]
      exact ⟨.priority .stati, rfl⟩
  · rintro ⟨k, rfl⟩
    rcases k with (_ | _) | (_ | _) <;> decide

instance (t n : ℕ) : Decidable (Local s t n) :=
  decidable_of_iff (s.nodeState n ∈ queueNumbers → (s.node n).owner = t)
    (imp_congr_left mem_queueNumbers)

instance (e : Event π) : Decidable (OwnQueue P s e) :=
  match e with
  | .setNodeStatic _ _ | .setNodeMoving _ _ | .setNodeCpu _ _ _ | .setNodeAffinity _ _ _ =>
    inferInstanceAs (Decidable (_ ∨ _ ∨ _ ∨ Local _ _ _))
  | .initNode _ _ | .synchronize | .newWork _ _ _ _ | .popBest _ | .popNormal _ _ | .takeFacts _
  | .runRules _ _ _ | .seeNewOwner _ | .check _ | .handOver _ | .finish _ | .steal _ _ | .adopt _
  | .setNodePriority _ _ _ | .addNodePriority _ _ _ | .removeNodePriority _ _
  | .setDefaultNodePriority _ _ _ | .scheduleNext _ _ => isTrue trivial

/-- A program with one predicate for the first fact of a node and one for `JUST_MOVED`. -/
def twoFacts : WorkProgram where
  rules := ⟨2, [[0]], by decide⟩
  predicates := [⟨0, true, false, false, ⟨0, false, 0⟩⟩, ⟨1, true, false, false, ⟨1, false, 0⟩⟩]
  numPredicates_eq := rfl
  id_eq := by
    intro i p hp
    match i with
    | 0 | 1 => simp_all; rw [← hp]
    | i + 2 => simp at hp
  linearId_eq := by
    intro i p hp
    match i with
    | 0 | 1 => simp_all; rw [← hp]
    | i + 2 => simp at hp

/-- The program with or without the fact `JUST_MOVED`. -/
def scheduled (moved : Bool) : Program ℕ where
  work := twoFacts
  schedulingMechanism := true
  isPriorityDesc := true
  noPriority := 0
  maxPriority := 1000
  initialPriority := 0
  add := (· + ·)
  bits := id
  ofBits := id
  ofBits_bits := fun _ => rfl
  justMoved := if moved then some (⟨1, true, false, false, ⟨1, false, 0⟩⟩, []) else none
  init := (⟨0, true, false, false, ⟨0, false, 0⟩⟩, [])

/-- The state before the nodes are set up. -/
def start : State ℕ where
  node := fun _ => ⟨0, none, 0, 0, DbNode.create twoFacts⟩
  link := fun _ => ⟨0, 0, .idle⟩
  thread := fun _ => ⟨fun _ => ⟨0, 0, 0⟩, fun _ => [], none, .running, false, 0, [], 0⟩
  started := false

theorem initial_start : Initial start :=
  ⟨rfl, fun _ => rfl, fun _ => rfl, fun _ => ⟨fun _ => rfl, rfl, rfl⟩, fun _ _ => rfl,
    fun _ _ => rfl, fun _ => rfl, fun _ => rfl, fun _ => rfl⟩

/-- Two threads set up a node each.  The first makes its node static and gives it a priority, and
sends it to the second, which runs it. -/
def ownCalls : List (Event ℕ) :=
  [.initNode 0 1, .initNode 1 2, .synchronize, .setNodeStatic 0 1, .setNodePriority 1 1 5,
    .setNodeCpu 0 1 1, .popBest 1, .takeFacts 1]

theorem reach_wellQueued_ownCalls : ∃ s,
    run (scheduled true) 2 (OwnQueue (scheduled true)) start ownCalls = some s ∧
      s.nodeState 1 = .working ∧ ∃ M, WellQueued s M := by
  have hend : (run (scheduled true) 2 (OwnQueue (scheduled true)) start ownCalls).map
      (fun s => s.nodeState 1) = some .working := by decide +kernel
  obtain ⟨s, hrun, hstate⟩ := Option.map_eq_some_iff.mp hend
  exact ⟨s, hrun, hstate, reach_wellQueued (by decide) ((Reach.init initial_start).run hrun)⟩

/-- The second thread makes a node static that waits in a queue of the first. -/
def foreignStatic : List (Event ℕ) := [.initNode 0 1, .synchronize, .setNodeStatic 1 1]

/-- **A node in a queue of a thread that is not its owner**: the other thread takes it for a member
of its own queue. -/
theorem not_forall_wellQueued : ¬ ∀ s : State ℕ,
    Reach (scheduled false) 1 (fun _ _ => True) s → ∃ M, WellQueued s M := by
  intro hall
  have hend : (run (scheduled false) 1 (fun _ _ => True) start foreignStatic).map (fun s =>
      (s.nodeState 1, (s.node 1).owner, ((s.thread 0).queues .stati).head)) =
      some (.normalStatic, 0, 0) := by decide +kernel
  obtain ⟨s, hrun, hs⟩ := Option.map_eq_some_iff.mp hend
  simp only [Prod.mk.injEq] at hs
  obtain ⟨hstate, howner, hhead⟩ := hs
  obtain ⟨M, hM⟩ := hall s ((Reach.init initial_start).run hrun)
  obtain ⟨t, ht⟩ := hM.queued (k := .normal .stati) hstate
  obtain rfl : 0 = t := howner.symm.trans (hM.owner ht)
  -- the queue of the owner is empty
  obtain ⟨hhd, -, -, hnull⟩ : _ ∧ _ ∧ _ ∧ _ := hM.members 0 (.normal .stati)
  rw [hhead] at hhd
  cases hl : M 0 (.normal .stati) with
  | nil =>
    rw [hl] at ht
    exact absurd ht List.not_mem_nil
  | cons x l =>
    rw [hl] at hhd hnull
    exact hnull (by rw [show (0 : ℕ) = x from hhd]; exact List.mem_cons_self)

end Coord
end Meld
