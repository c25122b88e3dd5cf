import Meld.Thread.CoordOutcome

/-!
# The life of a node

What the steps of the threads leave outside coordination: work comes to a node, a thread takes a
node out of its queues, runs it and lets it go, and other threads steal nodes.  Each step is
described by what it does to the node it is about, and by the fields of the thread.

* `newWork_outcome`, `takeFacts_edits`, `runRules_edits`, `seeNewOwner_edits`: facts.
* `popNormal_outcome`, `popBest_outcome`: a thread takes a node.
* `handOver_outcome`, `finish_outcome`: a thread lets a node go.
* `steal_places`, `adopt_outcome`: nodes are stolen and come to a queue again.
-/

namespace Meld
namespace Coord

open State

variable {π : Type} [LinearOrder π] {P : Program π} {s s' : State π} {N n t : ℕ}

/-! ## Facts -/

/-- **New work**: an idle node comes to a queue of its owner. -/
theorem newWork_outcome (I : Inv P N s) (hN : N < 2 ^ 30) (hn : 0 < n ∧ n ≤ N) {w : Work}
    {locked : Bool} (h : newWork P s t n w locked = .ok s') :
    ∃ q db d, Outcome P s s' n q { s.node n with db := db } ∧
      Delivery.run P.work (s.node n).db d = some db ∧ (d = .myself w ∨ d = .others w) ∧
      ((s.nodeState n ≠ .idle ∧ q = s.nodeState n) ∨
        s.nodeState n = .idle ∧ q = ((s.node n).kind P).number) := by
  obtain ⟨M, hM⟩ := I.queued
  rw [newWork] at h
  obtain ⟨db, hdb, h⟩ := Result.bind_eq_ok h
  have o := (edits_setNode s n { s.node n with db := db }).outcome hM (Or.inl rfl)
  have hd : ∀ d, Result.ofOption (Delivery.run P.work (s.node n).db d) = .ok db →
      Delivery.run P.work (s.node n).db d = some db := fun d hd => Result.ofOption_eq_ok hd
  have hd' : (if (s.node n).owner = t ∨ locked = true then Delivery.myself w else .others w) =
      .myself w ∨ (if (s.node n).owner = t ∨ locked = true then Delivery.myself w else .others w) =
      .others w := by
    split
    · exact Or.inl rfl
    · exact Or.inr rfl
  split at h
  · next hidle =>
    rw [hidle] at o
    exact ⟨_, db, _, o.addToQueue hN (o.bounded I.book.bounded hn) hn unqueued_idle rfl h,
      hd _ hdb, hd', Or.inr ⟨hidle, rfl⟩⟩
  · next hidle =>
    obtain rfl := Except.ok.inj h
    exact ⟨_, db, _, o, hd _ hdb, hd', Or.inl ⟨hidle, rfl⟩⟩

omit [LinearOrder π] in
theorem working_ok {phase : Phase} (h : working s t phase = .ok n) :
    (s.thread t).phase = phase ∧ (s.thread t).currentNode = some n := by
  rw [working] at h
  split at h
  · next hp =>
    cases hc : (s.thread t).currentNode with
    | none => rw [hc] at h; exact absurd h (by simp)
    | some m =>
      rw [hc] at h
      obtain rfl := Except.ok.inj h
      exact ⟨hp, rfl⟩
  · exact absurd h (by simp)

omit [LinearOrder π] in
theorem takeFacts_edits (h : takeFacts P s t = .ok s') :
    ∃ n db, (s.thread t).phase = .running ∧ (s.thread t).currentNode = some n ∧
      (s.node n).db.processIncomingTuples P.work = some db ∧
      Edits s s' n
        { s.node n with
          db :=
            { db with
              store :=
                { db.store with incomingPersistentTuples := [], incomingActionTuples := [] }
              unprocessedFacts := false } } := by
  rw [takeFacts] at h
  obtain ⟨n, hn, h⟩ := Result.bind_eq_ok h
  obtain ⟨db, hdb, h⟩ := Result.bind_eq_ok h
  obtain rfl := Except.ok.inj h
  obtain ⟨hphase, hcur⟩ := working_ok hn
  exact ⟨n, db, hphase, hcur, Result.ofOption_eq_ok hdb, edits_setNode s n _⟩

omit [LinearOrder π] in
theorem runRules_edits {linear : LinearStore} {matcher : RuleMatcher}
    (h : runRules s t linear matcher = .ok s') :
    ∃ n, (s.thread t).phase = .running ∧ (s.thread t).currentNode = some n ∧
      Edits s s' n
        { s.node n with db := { (s.node n).db with linear := linear, matcher := matcher } } := by
  rw [runRules] at h
  obtain ⟨n, hn, h⟩ := Result.bind_eq_ok h
  obtain rfl := Except.ok.inj h
  obtain ⟨hphase, hcur⟩ := working_ok hn
  exact ⟨n, hphase, hcur, edits_setNode s n _⟩

omit [LinearOrder π] in
theorem seeNewOwner_edits (h : seeNewOwner s t = .ok s') :
    ∃ n facts, (s.thread t).phase = .running ∧ (s.thread t).currentNode = some n ∧
      ((s.node n).db.unprocessedFacts = true → facts = true) ∧
      Edits s s' n
        { s.node n with db := { (s.node n).db with unprocessedFacts := facts } } := by
  rw [seeNewOwner] at h
  obtain ⟨n, hn, h⟩ := Result.bind_eq_ok h
  obtain ⟨hphase, hcur⟩ := working_ok hn
  split at h
  · obtain rfl := Except.ok.inj h
    exact ⟨n, true, hphase, hcur, fun _ => rfl, edits_setNode s n _⟩
  · obtain rfl := Except.ok.inj h
    exact ⟨n, _, hphase, hcur, id, Edits.refl s n⟩

/-! ## Taking a node -/

omit [LinearOrder π] in
/-- Writing back a list that did not change. -/
theorem putNormal_self (w : Which) : s.putNormal t w (s.normal t w) = s := by
  simp only [putNormal, State.normal, setThread, Function.update_eq_self]

/-- Writing back heaps that did not change. -/
theorem putHeaps_self : s.putHeaps P t (s.heaps P t) = s := by
  have hprios : (s.heaps P t).heap = (s.thread t).prios := by
    funext w
    exact heap_heaps t w
  have hlink : (fun n => writeObj P (s.link n) ((s.heaps P t).obj n)) = s.link := by
    funext n
    simp only [writeObj, heaps, State.obj, if_true]
  simp only [putHeaps, hprios, hlink, setThread, Function.update_eq_self]

/-- What a thread that takes a node from a queue of a kind leaves: it works on no node, or on one
that was there. -/
inductive Taken (P : Program π) (s : State π) (t : ℕ) : State π → Prop where
  | none : Taken P s t (s.setCurrent t none)
  | some {s₁ : State π} {n : ℕ} {k : Kind} (o : Outcome P s s₁ n .working (s.node n))
      (hstate : s.nodeState n = k.number) (ho : (s.node n).owner = t) :
      Taken P s t (s₁.setCurrent t (some n))

theorem Places.outcome {q : QueueId} (h : Places s s' [n] q) (hM : ∃ M, Queued P s' M) :
    Outcome P s s' n q (s.node n) :=
  ⟨h.handles, hM, h.self n (List.mem_singleton_self n), by rw [h.node]⟩

/-- **A thread takes the first node of a list.** -/
theorem popNormal_taken (I : Inv P N s) {w : Which} (h : popNormal s t w = .ok s') :
    (s.thread t).currentNode = none ∧ (s.thread t).buffer = [] ∧ Taken P s t s' := by
  obtain ⟨M, hM⟩ := I.queued
  rw [popNormal] at h
  split at h
  · exact absurd h (by simp)
  next hidle =>
  obtain ⟨hcur, hbuf⟩ := not_or.mp hidle
  refine ⟨by simpa using hcur, not_not.mp hbuf, ?_⟩
  obtain rfl := Except.ok.inj h
  rcases hM.popHead (t := t) (w := w) unqueued_working with ⟨-, hpop⟩ | ⟨n, hn, hpop, hn0, hM', hp⟩
  · rw [hpop, putNormal_self]
    exact .none
  · obtain ⟨ho, hstate⟩ := (hM.mem t (.normal w) n).mp hn
    simp only [hpop, if_neg hn0]
    exact .some (hp.outcome hM') hstate ho

/-- **A thread takes the best node of its heaps.** -/
theorem popBest_taken (I : Inv P N s) (hN : N < 2 ^ 30) (h : popBest P s t = .ok s') :
    (s.thread t).currentNode = none ∧ (s.thread t).buffer = [] ∧ Taken P s t s' := by
  obtain ⟨M, hM⟩ := I.queued
  rw [popBest] at h
  split at h
  · exact absurd h (by simp)
  next hidle =>
  obtain ⟨hcur, hbuf⟩ := not_or.mp hidle
  refine ⟨by simpa using hcur, not_not.mp hbuf, ?_⟩
  obtain ⟨r, hr, h⟩ := Result.bind_eq_ok h
  obtain rfl := Except.ok.inj h
  have hr := Result.ofOption_eq_ok hr
  rcases hM.popBest (t := t) hN I.book.bounded unqueued_working with
    hpop | ⟨w, n, q, hn, hpop, hM', hp⟩
  · rw [hpop] at hr
    obtain rfl := Option.some.inj hr
    rw [putHeaps_self]
    exact .none
  · rw [hpop] at hr
    obtain rfl := Option.some.inj hr
    obtain ⟨ho, hstate⟩ := (hM.mem t (.priority w) n).mp hn
    exact .some (hp.outcome hM') hstate ho

/-! ## Letting a node go -/

/-- What `handOver` does: the node that the thread works on is edited, and queued. -/
theorem handOver_cases (I : Inv P N s) (h : handOver P s t = .ok s') :
    ∃ n newOwner s₁, (s.thread t).phase = .handing ∧ (s.thread t).currentNode = some n ∧
      (s.node n).static = some newOwner ∧ s' = s₁.setCurrent t none ∧
      0 < n ∧ n ≤ N ∧ Unqueued (s.nodeState n) ∧
      Edits s ((s.setOwner n newOwner).removeTemporaryPriority n) n
        { (s.node n).removeTemporaryPriority with owner := newOwner } ∧
      State.moveNodeToNewOwner P ((s.setOwner n newOwner).removeTemporaryPriority n) n newOwner =
        .ok s₁ := by
  rw [handOver] at h
  obtain ⟨n, hn, h⟩ := Result.bind_eq_ok h
  obtain ⟨hphase, hcur⟩ := working_ok hn
  obtain ⟨hw, -⟩ := I.book.current t n hcur
  cases hstatic : (s.node n).static with
  | none => simp only [hstatic] at h; exact absurd h (by simp)
  | some newOwner =>
    simp only [hstatic] at h
    obtain ⟨s₁, h₁, h⟩ := Result.bind_eq_ok h
    obtain rfl := Except.ok.inj h
    have e : Edits s (s.setOwner n newOwner) n _ := edits_setNode s n _
    have e' : Edits _ ((s.setOwner n newOwner).removeTemporaryPriority n) n _ :=
      edits_setNode (s.setOwner n newOwner) n _
    rw [e.record] at e'
    have hq : Unqueued (s.nodeState n) := by
      rw [hw]
      exact unqueued_working
    obtain ⟨hn0, hnN⟩ := I.book.bounded n (by rw [hw]; decide)
    exact ⟨n, newOwner, s₁, hphase, hcur, hstatic, rfl, hn0, hnN, hq, e.trans e', h₁⟩

/-- **A node with a new owner** comes to a queue there. -/
theorem handOver_outcome (I : Inv P N s) (hN : N < 2 ^ 30) (h : handOver P s t = .ok s') :
    ∃ n newOwner s₁ r, (s.thread t).phase = .handing ∧ (s.thread t).currentNode = some n ∧
      (s.node n).static = some newOwner ∧ s' = s₁.setCurrent t none ∧
      r = { (s.node n).removeTemporaryPriority with
        owner := newOwner, db := movedDb P (s.node n).db } ∧
      Outcome P s s₁ n (Node.kind P r).number r := by
  obtain ⟨n, newOwner, s₁, hphase, hcur, hstatic, hs', hn0, hnN, hq, e, h₁⟩ := handOver_cases I h
  obtain ⟨M, hM⟩ := I.queued
  have o := e.outcome hM (Or.inr hq)
  exact ⟨n, newOwner, s₁, _, hphase, hcur, hstatic, hs', rfl,
    o.moveNodeToNewOwner hN I.book.bounded ⟨hn0, hnN⟩ hq rfl h₁⟩

/-- A node that is in no queue becomes idle. -/
theorem makeInactive_places (hM : ∃ M, Queued P s M) (hq : Unqueued (s.nodeState n)) :
    (∃ M, Queued P (makeInactive s n) M) ∧ Places s (makeInactive s n) [n] .idle := by
  obtain ⟨M, h⟩ := hM
  have hstate : (makeInactive s n).nodeState n = .idle := by
    simp only [makeInactive, State.nodeState, Function.update_self]
  have hlink : ∀ x, x ≠ n → (makeInactive s n).link x = s.link x := fun x hx =>
    Function.update_of_ne hx _ _
  refine ⟨⟨M, ?_, ?_⟩, rfl, rfl, fun _ => Thread.Same.refl _, ?_, ?_⟩
  · intro t k
    refine (h.has t k).congr (SameQueue.refl s t k) fun x hx => hlink x ?_
    rintro rfl
    exact h.notMem hq hx
  · intro t k x
    by_cases hx : x = n
    · subst hx
      rw [hstate]
      exact iff_of_false (h.notMem hq) fun hc => unqueued_idle k hc.2
    · rw [h.mem t k x, State.nodeState, State.nodeState, hlink x hx]
      exact Iff.rfl
  · intro x hx
    rw [State.nodeState, hlink x (by simpa using hx)]
    rfl
  · intro x hx
    rw [List.mem_singleton.mp hx]
    exact hstate

/-- **A node without facts** becomes idle. -/
theorem finish_outcome (I : Inv P N s) (h : finish s t = .ok s') :
    ∃ n, (s.thread t).phase = .finishing ∧ (s.thread t).currentNode = some n ∧
      ((s.node n).db.unprocessedFacts = true ∧
        s' = s.setThread t { s.thread t with phase := .running } ∨
      (s.node n).db.unprocessedFacts = false ∧ ∃ s₁, s' = s₁.setCurrent t none ∧
        Outcome P s s₁ n .idle (s.node n).removeTemporaryPriority) := by
  rw [finish] at h
  obtain ⟨n, hn, h⟩ := Result.bind_eq_ok h
  obtain ⟨hphase, hcur⟩ := working_ok hn
  obtain ⟨hw, ho⟩ := I.book.current t n hcur
  refine ⟨n, hphase, hcur, ?_⟩
  split at h
  · next hfacts =>
    obtain rfl := Except.ok.inj h
    refine Or.inr ⟨by simpa using hfacts, _, rfl, ?_⟩
    obtain ⟨hM, hp⟩ := makeInactive_places I.queued (by rw [hw]; exact unqueued_working)
    exact (hp.outcome hM).edit (edits_setNode _ n _) (Or.inl rfl)
  · next hfacts =>
    obtain rfl := Except.ok.inj h
    exact Or.inl ⟨by simpa using hfacts, rfl⟩

/-! ## Stealing -/

omit [LinearOrder π] in
/-- A thread changes fields that belong to no queue. -/
theorem sameQueue_setThread {r : Thread} (hqueues : r.queues = (s.thread t).queues)
    (hprios : r.prios = (s.thread t).prios) (t' : ℕ) (k : Kind) :
    SameQueue s (s.setThread t r) t' k := by
  by_cases ht : t' = t
  · subst ht
    cases k <;> simp only [SameQueue, setThread, Function.update_self, hqueues, hprios]
  · cases k <;> simp only [SameQueue, setThread, Function.update_of_ne ht]

theorem Queued.setThread {M : ℕ → Kind → List ℕ} (h : Queued P s M) {r : Thread}
    (hqueues : r.queues = (s.thread t).queues) (hprios : r.prios = (s.thread t).prios) :
    Queued P (s.setThread t r) M :=
  h.congr rfl (sameQueue_setThread hqueues hprios) fun _ => Or.inl rfl

/-- The state in which `steal_nodes` looks for nodes: the thread has changed its turn. -/
def stealStart (s : State π) (u : ℕ) : State π :=
  s.setThread u { s.thread u with stealFlag := !(s.thread u).stealFlag }

/-- The branches of `steal_nodes`. -/
theorem stealNodes_cases {u max : ℕ} {r : State π × List ℕ} (h : stealNodes P s u max = .ok r) :
    stealNormal (stealStart s u) u max = .ok r ∨
      stealPriority P (stealStart s u) u max = .ok r ∨ r = (stealStart s u, []) := by
  rw [stealNodes] at h
  split at h
  · split at h
    · exact Or.inl h
    · split at h
      · exact Or.inr (Or.inl h)
      · exact Or.inr (Or.inr (Except.ok.inj h).symm)
  · split at h
    · exact Or.inr (Or.inl h)
    · split at h
      · exact Or.inl h
      · exact Or.inr (Or.inr (Except.ok.inj h).symm)

omit [LinearOrder π] in
theorem places_stealStart (s : State π) (u : ℕ) : Places s (stealStart s u) [] .stealing := by
  refine ⟨rfl, rfl, ?_, fun _ _ => rfl, fun _ hx => absurd hx List.not_mem_nil⟩
  intro t
  by_cases ht : t = u
  · subst ht
    simp only [stealStart, State.setThread, Function.update_self]
    exact ⟨rfl, rfl, rfl, rfl⟩
  · simp only [stealStart, State.setThread, Function.update_of_ne ht]
    exact Thread.Same.refl _

/-- **`steal_nodes`** takes moving nodes of the thread `u`. -/
theorem stealNodes_places (I : Inv P N s) (hN : N < 2 ^ 30) {u max : ℕ}
    {r : State π × List ℕ} (h : stealNodes P s u max = .ok r) :
    (∃ M, Queued P r.1 M) ∧ Places s r.1 r.2 .stealing ∧
      ∀ x ∈ r.2, (s.node x).owner = u ∧
        (s.nodeState x = .normalMoving ∨ s.nodeState x = .priorityMoving) := by
  obtain ⟨M, hM⟩ := I.queued
  obtain ⟨s₁, hs₁⟩ : ∃ s₁, s₁ = stealStart s u := ⟨_, rfl⟩
  have hM₁ : Queued P s₁ M := by
    rw [hs₁]
    exact hM.setThread rfl rfl
  have hp₁ : Places s s₁ [] .stealing := hs₁ ▸ places_stealStart s u
  have hb₁ : Bounded N s₁ := hp₁.bounded I.book.bounded fun y hy => absurd hy List.not_mem_nil
  have htrans : ∀ s₂ m, Places s₁ s₂ m .stealing → Places s s₂ m .stealing := by
    intro s₂ m hp
    refine ⟨hp.node.trans hp₁.node, hp.started.trans hp₁.started,
      fun t => (hp₁.thread t).trans (hp.thread t), ?_, hp.self⟩
    intro x hx
    rw [hp.elsewhere x hx, hp₁.elsewhere x List.not_mem_nil]
  have hmem : ∀ k x, x ∈ M u k → (s.node x).owner = u ∧ s.nodeState x = k.number :=
    fun k x hx => (hM.mem u k x).mp hx
  have hcases := stealNodes_cases h
  rw [← hs₁] at hcases
  obtain h | h | rfl := hcases
  · obtain ⟨s₂, m, heq, hsub, hM₂, hp₂⟩ := hM₁.stealNormal (t := u) hN hb₁ max
    rw [heq] at h
    obtain rfl := Except.ok.inj h
    refine ⟨hM₂, htrans _ _ hp₂, fun x hx => ?_⟩
    obtain ⟨ho, hs⟩ := hmem _ x (hsub x hx)
    exact ⟨ho, Or.inl hs⟩
  · obtain ⟨s₂, m, heq, hsub, hM₂, hp₂⟩ := hM₁.stealPriority (t := u) hN hb₁ max
    rw [heq] at h
    obtain rfl := Except.ok.inj h
    refine ⟨hM₂, htrans _ _ hp₂, fun x hx => ?_⟩
    obtain ⟨ho, hs⟩ := hmem _ x (hsub x hx)
    exact ⟨ho, Or.inr hs⟩
  · exact ⟨⟨M, hM₁⟩, hp₁, fun x hx => absurd hx List.not_mem_nil⟩

/-- **The second half of `go_steal_nodes`**: the node is in no state to be taken any more, it has
another owner meanwhile, or it comes to the thief. -/
theorem adopt_outcome (I : Inv P N s) (hN : N < 2 ^ 30) (h : adopt P s t = .ok s') :
    ∃ n rest s₁, (s.thread t).buffer = n :: rest ∧
      s₁ = s.setThread t { s.thread t with buffer := rest } ∧
      (s.nodeState n ≠ .stealing ∧ s' = s₁ ∨
      s.nodeState n = .stealing ∧ ∃ r, Outcome P s₁ s' n (Node.kind P r).number r ∧
        ((s.node n).static.isSome ∧ (s.node n).owner ≠ (s.thread t).target ∧
            r = { s.node n with db := movedDb P (s.node n).db } ∨
          ¬ ((s.node n).static.isSome ∧ (s.node n).owner ≠ (s.thread t).target) ∧
            ∃ st, r = { s.node n with static := st, owner := t })) := by
  rw [adopt] at h
  cases hbuf : (s.thread t).buffer with
  | nil => simp only [hbuf] at h; exact absurd h (by simp)
  | cons n rest =>
    simp only [hbuf] at h
    refine ⟨n, rest, _, rfl, rfl, ?_⟩
    obtain ⟨s₁, hs₁⟩ : ∃ s₁, s₁ = s.setThread t { s.thread t with buffer := rest } := ⟨_, rfl⟩
    obtain ⟨M, hM⟩ := I.queued
    have hM₁ : Queued P s₁ M := by
      rw [hs₁]
      exact hM.setThread rfl rfl
    have hnode : s₁.node = s.node := by rw [hs₁]; rfl
    have hstate : s₁.nodeState = s.nodeState := by rw [hs₁]; rfl
    have hb₁ : Bounded N s₁ := by
      intro x hx
      rw [hstate] at hx
      exact I.book.bounded x hx
    rw [← hs₁] at h ⊢
    rw [hnode, hstate] at h
    split at h
    · next hst =>
      obtain rfl := Except.ok.inj h
      exact Or.inl ⟨hst, rfl⟩
    next hst =>
    have hst : s.nodeState n = .stealing := not_not.mp hst
    refine Or.inr ⟨hst, ?_⟩
    have hn : 0 < n ∧ n ≤ N := I.book.bounded n (by rw [hst]; decide)
    have hq : Unqueued (s₁.nodeState n) := by
      rw [hstate, hst]
      exact unqueued_stealing
    split at h
    · next hmoved =>
      have o := (Edits.refl s₁ n).outcome hM₁ (Or.inl rfl)
      have o' := o.moveNodeToNewOwner hN hb₁ hn hq (by rw [hnode]) h
      rw [hnode] at o'
      exact ⟨_, o', Or.inl ⟨hmoved.1, hmoved.2, rfl⟩⟩
    · next hmoved =>
      obtain ⟨st, e⟩ : ∃ st, Edits s₁
          (if (s.node n).static.isSome = true then s₁.makeNodeStatic n t else s₁) n
          { s.node n with static := st } := by
        split
        · have e := edits_makeNodeStatic s₁ n t
          rw [hnode] at e
          exact ⟨_, e⟩
        · have e := Edits.refl s₁ n
          rw [hnode] at e
          exact ⟨_, e⟩
      have e' := edits_setNode (if (s.node n).static.isSome = true then s₁.makeNodeStatic n t
        else s₁) n { s.node n with static := st, owner := t }
      have o := (e.trans e').outcome hM₁ (Or.inr hq)
      rw [setOwner, e.record] at h
      exact ⟨_, o.addToQueue hN (o.bounded hb₁ hn) hn hq rfl h, Or.inr ⟨hmoved, st, rfl⟩⟩

/-! ## The start -/

omit [LinearOrder π] in
theorem obj_initialFastInsert_self (q : Pqueue ℕ π) (n : ℕ) (priority : π) :
    (initialFastInsert q n priority).obj n = ⟨priority, q.heap.length, q.queueNumber⟩ := by
  simp only [initialFastInsert, Pqueue.pushBack, Pqueue.setQueue, Pqueue.setPriority,
    Function.update_self]

omit [LinearOrder π] in
theorem obj_initialFastInsert_of_ne (q : Pqueue ℕ π) {n x : ℕ} (priority : π) (hx : x ≠ n) :
    (initialFastInsert q n priority).obj x = q.obj x := by
  simp only [initialFastInsert, Pqueue.pushBack, Pqueue.setQueue, Pqueue.setPriority,
    Function.update_of_ne hx]

/-- A heap whose members all have one priority, with one more of them. -/
theorem initialFastInsert_shaped {q : Pqueue ℕ π} (h : q.Shaped) {priority : π} (hn : n ∉ q.heap)
    (hall : ∀ x ∈ q.heap, (q.obj x).priority = priority) :
    (initialFastInsert q n priority).Shaped := by
  have hobj : ∀ x, x ≠ n → (initialFastInsert q n priority).obj x = q.obj x := fun x hx =>
    obj_initialFastInsert_of_ne q priority hx
  have hself := obj_initialFastInsert_self q n priority
  have hheap : (initialFastInsert q n priority).heap = q.heap ++ [n] := rfl
  have hmem : ∀ x ∈ q.heap, x ≠ n := by
    rintro x hx rfl
    exact hn hx
  have hprio : ∀ x ∈ q.heap ++ [n],
      ((initialFastInsert q n priority).obj x).priority = priority := by
    intro x hx
    rcases List.mem_append.mp hx with hx | hx
    · rw [hobj x (hmem x hx)]
      exact hall x hx
    · rw [List.mem_singleton.mp hx, hself]
  have hkeys : ∀ i, i < (q.heap ++ [n]).length →
      (initialFastInsert q n priority).keys i = some priority := by
    intro i hi
    rw [Pqueue.keys, hheap, List.getElem?_eq_getElem hi, Option.map_some,
      hprio _ (List.getElem_mem hi)]
  refine ⟨?_, ?_, ?_⟩
  · intro i hi hin
    rw [hkeys i hin, hkeys _ (lt_trans (HeapOrder.parent_lt hi) hin)]
    cases (initialFastInsert q n priority).typ with
    | asc => exact le_refl priority
    | desc => exact le_refl priority
  · intro i x hx
    rw [hheap] at hx
    by_cases hi : i < q.heap.length
    · rw [List.getElem?_append_left hi] at hx
      rw [hobj x (hmem x (List.mem_of_getElem? hx))]
      exact h.placed i x hx
    · rw [List.getElem?_append_right (Nat.le_of_not_lt hi)] at hx
      obtain ⟨hlt, heq⟩ := List.getElem?_eq_some_iff.mp hx
      have hi' : i - q.heap.length = 0 := by simpa using hlt
      have hxn : x = n := by simpa [hi'] using heq.symm
      rw [hxn, hself]
      show q.heap.length = i
      omega
  · intro x hx
    rcases List.mem_append.mp hx with hx | hx
    · rw [hobj x (hmem x hx)]
      exact h.queue x hx
    · rw [List.mem_singleton.mp hx, hself]
      rfl

/-- **`initial_fast_insert`** puts a node of the thread into its heap of moving nodes, whose members
all have the initial priority. -/
theorem Queued.initialFastInsert {M : ℕ → Kind → List ℕ} (hM : Queued P s M) {q : Pqueue ℕ π}
    (hq : q = (s.heaps P t).get .moving) (ho : (s.node n).owner = t)
    (hstate : Unqueued (s.nodeState n))
    (hall : ∀ x ∈ M t (.priority .moving), (s.obj P x).priority = P.initialPriority) :
    (∃ M', Queued P (s.putHeap P t .moving (Coord.initialFastInsert q n P.initialPriority)) M') ∧
      Places s (s.putHeap P t .moving (Coord.initialFastInsert q n P.initialPriority)) [n]
        (Kind.priority .moving).number := by
  have hqheap : q.heap = M t (.priority .moving) := by
    rw [hq]
    exact hM.heap_eq t .moving
  have hnot : n ∉ M t (.priority .moving) := hM.notMem hstate
  have hshaped : (Coord.initialFastInsert q n P.initialPriority).Shaped := by
    refine initialFastInsert_shaped (hq ▸ hM.shaped t .moving) (by rw [hqheap]; exact hnot) ?_
    intro x hx
    rw [hqheap] at hx
    rw [hq]
    exact hall x hx
  have hobj : ∀ x, x ≠ n →
      (Coord.initialFastInsert q n P.initialPriority).obj x = s.obj P x := by
    intro x hx
    rw [obj_initialFastInsert_of_ne q _ hx, hq]
    rfl
  obtain ⟨q', hq'⟩ : ∃ q', q' = Coord.initialFastInsert q n P.initialPriority := ⟨_, rfl⟩
  have hheap' : q'.heap = M t (.priority .moving) ++ [n] := by
    rw [hq', ← hqheap]
    rfl
  rw [← hq'] at hshaped hobj ⊢
  have hhas : Has P (s.putHeap P t .moving q') t (.priority .moving) q'.heap := by
    refine ⟨prios_putHeap, ?_⟩
    rw [get_putHeap (by rw [hq', hq]; rfl) (by rw [hq', hq]; rfl)]
    exact hshaped
  refine hM.operate touched_putHeap hhas ?_ ?_ ?_ ?_
  · intro x hx hxM
    refine link_putHeap (hobj x ?_)
    rintro rfl
    exact hx (by rw [hheap']; simp)
  · intro x hx
    exact hhas.nodeState (by rw [hheap']; exact List.mem_append_right _ hx)
  · intro x hx hxM
    rw [hheap'] at hx
    have hxn := (List.mem_append.mp hx).resolve_left hxM
    refine ⟨hxn, ?_⟩
    rw [List.mem_singleton.mp hxn]
    exact ⟨ho, hstate⟩
  · intro x hx hxl
    exact absurd (by rw [hheap']; exact List.mem_append_left _ hx) hxl

/-- **A node is set up** and comes to a queue of its thread. -/
theorem initNode_outcome (I : Inv P N s) (hst : s.started = false) (hN : N < 2 ^ 30)
    (hn : 0 < n ∧ n ≤ N) (h : initNode P s t n = .ok s') :
    s.nodeState n = .idle ∧ ∃ (k : Kind) (db : DbNode),
      Outcome P s s' n k.number
        { s.node n with owner := t, db := { db with unprocessedFacts := true } } ∧
      db.store = (s.node n).db.store ∧
      ∀ w x, s'.nodeState x = (Kind.priority w).number →
        P.initialPriority ≠ P.noPriority ∧ (s'.obj P x).priority = P.initialPriority := by
  rw [initNode] at h
  split at h
  · exact absurd h (by simp)
  next hidle =>
  have hidle : s.nodeState n = .idle := not_not.mp hidle
  refine ⟨hidle, ?_⟩
  obtain ⟨db, hdb, h⟩ := Result.bind_eq_ok h
  have hstore := (addLinearFact_store (Result.ofOption_eq_ok hdb)).1
  obtain ⟨M, hM⟩ := I.queued
  have e := edits_setNode s n
    { s.node n with owner := t, db := { db with unprocessedFacts := true } }
  have o := e.outcome hM (Or.inr (by rw [hidle]; exact unqueued_idle))
  rw [hidle] at o
  have hb := o.bounded I.book.bounded hn
  have hfresh := I.book.fresh hst
  split at h
  · next hno =>
    have o' := o.add hN hb hn unqueued_idle rfl h
    refine ⟨_, db, o', hstore, ?_⟩
    intro w x hx
    by_cases hxn : x = n
    · subst hxn
      rw [o'.state] at hx
      exact absurd (Kind.number_inj hx) (by simp)
    · rw [o'.handles.nodeState x hxn] at hx
      exact absurd hno (hfresh w x hx).1
  · next hno =>
    obtain rfl := Except.ok.inj h
    obtain ⟨s₁, hs₁⟩ : ∃ s₁, s₁ = s.setNode n
      { s.node n with owner := t, db := { db with unprocessedFacts := true } } := ⟨_, rfl⟩
    rw [← hs₁] at o e ⊢
    obtain ⟨M₁, hM₁⟩ := o.queued
    have hobj₁ : s₁.obj P = s.obj P := by
      rw [hs₁]
      rfl
    have hall : ∀ x ∈ M₁ t (.priority .moving), (s₁.obj P x).priority = P.initialPriority := by
      intro x hx
      obtain ⟨-, hstate⟩ := (hM₁.mem t _ x).mp hx
      rw [e.nodeState x] at hstate
      rw [hobj₁]
      exact (hfresh _ x hstate).2
    obtain ⟨q, hq⟩ : ∃ q, q = (s₁.heaps P t).get .moving := ⟨_, rfl⟩
    obtain ⟨hM', hp⟩ := hM₁.initialFastInsert hq (by rw [o.record])
      (by rw [o.state]; exact unqueued_idle) hall
    rw [← hq]
    refine ⟨_, db, o.place hM' hp, hstore, ?_⟩
    intro w x hx
    refine ⟨hno, ?_⟩
    rw [obj_putHeap]
    by_cases hxn : x = n
    · rw [hxn, obj_initialFastInsert_self]
    · have hobjq : q.obj x = s.obj P x := by
        rw [hq, ← hobj₁]
        rfl
      rw [obj_initialFastInsert_of_ne q _ hxn, hobjq]
      rw [hp.elsewhere x (by simpa using hxn), e.nodeState x] at hx
      exact (hfresh w x hx).2

end Coord
end Meld
