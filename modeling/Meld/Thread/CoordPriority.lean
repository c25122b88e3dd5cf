import Mathlib.Logic.Relation
import Meld.Thread.CoordKeys

/-!
# The heaps sort nodes by their priorities

`set_default_node_priority` writes the default priority of a node and nothing else.  If the node has
no temporary priority, the default one is its priority, and a node that waits in a heap keeps the old
key.  There is a second way to leave a wrong key: the value of a temporary priority may be the one
that means that there is none, and then the heap gets this value as key while the node falls back on
its default priority.

`remove_node_priority` puts a node into a list although the default priority may be left, and
`set_default_node_priority` leaves it there.  The heaps are right in this case, but the node waits
behind all nodes of the heaps.

* `Rekeys P s e`, `Relists P s e`: the conditions on the steps for keys and for lists.
* `act_suited`: what a step leaves that meets them.
* `KeyInv`, `step_keyInv`: the invariant.
* `Keyed`, `RunsBest`: the property of a state.
* `steps_keyed`: it holds after every run of such steps.
* `not_forall_keyed`: a run after which the worse of two nodes runs.
-/

namespace Meld
namespace Coord

open State

variable {π : Type} [LinearOrder π] {P : Program π} {s s' s₁ : State π} {N n t : ℕ} {L : Prop}

/-! ## The conditions -/

/-- A temporary priority that raises a node in a heap is one, or the node has no default
priority. -/
def KeepsLevel (P : Program π) (s : State π) (n : ℕ) (priority : π) : Prop :=
  InHeap s n → P.higherPriority priority ((s.node n).getPriority P) = true →
    priority = P.noPriority → (s.node n).defaultPriorityLevel = P.noPriority

/-- **The condition for keys**: the default priority of a node in a heap changes only if it has a
temporary one, and no node in a heap is raised to the value that stands for no priority. -/
def Rekeys (P : Program π) (s : State π) : Event π → Prop
  | .setNodePriority _ n priority => KeepsLevel P s n priority
  | .addNodePriority _ n priority => P.schedulingMechanism = false ∨
      KeepsLevel P s n (P.add ((s.node n).getPriority P) priority)
  | .scheduleNext t n => (s.node n).owner = t → KeepsLevel P s n P.maxPriority
  | .setDefaultNodePriority _ n priority => P.schedulingMechanism = false ∨
      (InHeap s n → (s.node n).priorityLevel = P.noPriority →
        priority = (s.node n).defaultPriorityLevel)
  | _ => True

/-- **The condition for lists**: a queued node whose priority is removed has no default priority,
and no node in a list gets one. -/
def Relists (P : Program π) (s : State π) : Event π → Prop
  | .removeNodePriority _ n => P.schedulingMechanism = false ∨
      (InHeap s n ∨ InList s n → (s.node n).defaultPriorityLevel = P.noPriority)
  | .setDefaultNodePriority _ n priority => P.schedulingMechanism = false ∨
      (InList s n → priority = P.noPriority)
  | _ => True

/-! ## Setting a priority -/

theorem getPriority_level (r : Node π) (p : π) :
    Node.getPriority P { r with priorityLevel := p } =
      if p = P.noPriority then r.defaultPriorityLevel else p := rfl

theorem getPriority_removeTemporaryPriority (r : Node π) :
    r.removeTemporaryPriority.getPriority P = r.defaultPriorityLevel := by
  rw [Node.removeTemporaryPriority, getPriority_level]
  split
  · rfl
  · rfl

/-- The level is written if it is higher than the priority. -/
theorem setTemporaryPriorityIf_cases (s : State π) (n : ℕ) (priority : π) :
    (P.higherPriority priority ((s.node n).getPriority P) = true ∧
      s.setTemporaryPriorityIf P n priority =
        (s.setNode n { s.node n with priorityLevel := priority }, true)) ∨
    s.setTemporaryPriorityIf P n priority = (s.setNode n (s.node n), false) := by
  simp only [State.setTemporaryPriorityIf, Node.setTemporaryPriorityIf]
  split
  · next h => exact Or.inl ⟨h, rfl⟩
  · exact Or.inr rfl

section Coordination

variable (I : Inv P N s) (hN : N < 2 ^ 30) (hn : 0 < n ∧ n ≤ N)

include I hN hn

/-- After the record, the queue changes. -/
theorem Edits.suited_shift {r : Node π} {k k' : Kind} {change : QueueId} (e : Edits s s₁ n r)
    (ho : r.owner = (s.node n).owner) (hq : Changing change)
    (hs : s₁.shift P t k k' n change = .ok s') (hk : s.nodeState n = k.number)
    (ht : (s.node n).owner = t)
    (hlist : L → ∀ w, k' = .normal w → r.getPriority P = P.noPriority) :
    Suited P L s s' [n] := by
  obtain ⟨M, hM⟩ := I.queued
  have o := e.traced hM (Or.inl ho)
  rw [hk] at o
  obtain ⟨o', hkey⟩ :=
    o.shift hN I.book.bounded hn (ho.trans ht) (unqueued_of_changing hq) hs
  exact o'.suited hkey hlist

/-- A node in a list gets a level and comes to the heap. -/
theorem suited_raise_list {w : Which} {priority : π} (hk : s.nodeState n = (Kind.normal w).number)
    (ht : (s.node n).owner = t)
    (h : (s.setTemporaryPriorityIf P n priority).1.shift P t (.normal w) (.priority w) n
      .prioChange = .ok s') : Suited P L s s' [n] := by
  obtain ⟨p, e⟩ := edits_setTemporaryPriorityIf (P := P) s n priority
  exact e.suited_shift I hN hn rfl (Or.inl rfl) h hk ht fun _ v hv => by cases hv

/-- A node in a heap gets a level and another place. -/
theorem suited_raise_heap {w : Which} {priority : π} (hs : Suits P L s n)
    (hk : s.nodeState n = (Kind.priority w).number) (ht : (s.node n).owner = t)
    (hlevel : KeepsLevel P s n priority)
    (h : (if (s.setTemporaryPriorityIf P n priority).2 then
        (s.setTemporaryPriorityIf P n priority).1.moveNode P t w n priority
      else .ok (s.setTemporaryPriorityIf P n priority).1) = .ok s') : Suited P L s s' [n] := by
  obtain ⟨hhigh, heq⟩ | heq := setTemporaryPriorityIf_cases (P := P) s n priority
  · obtain ⟨M, hM⟩ := I.queued
    have o := (edits_level s n priority).traced hM (Or.inl rfl)
    rw [hk] at o
    rw [heq] at h
    obtain ⟨o', hkey⟩ := o.moveNode hN (o.bounded I.book.bounded hn) ht h
    refine o'.suited (fun v _ => ?_) fun _ v hv => by cases hv
    rw [hkey, getPriority_level]
    split
    · next hno => exact hno.trans (hlevel ⟨w, hk⟩ hhigh hno).symm
    · rfl
  · rw [heq] at h
    obtain rfl := Except.ok.inj h
    exact (edits_setNode s n (s.node n)).suited_same hs rfl

theorem doSetNodePriority_suited {priority : π} {forceQueue : Bool} (hs : Suits P L s n)
    (ht : (s.node n).owner = t) (hlevel : KeepsLevel P s n priority)
    (h : doSetNodePriority P s t n priority forceQueue = .ok s') : Suited P L s s' [n] := by
  rw [doSetNodePriority] at h
  split at h
  · next hcur =>
    obtain rfl := Except.ok.inj h
    refine (edits_level s n priority).suited_unqueued ?_
    rw [(I.book.current t n hcur).1]
    exact unqueued_working
  obtain ⟨p, e⟩ := edits_setTemporaryPriorityIf (P := P) s n priority
  cases hq : s.nodeState n with
  | idle =>
    simp only [hq] at h
    have hidle : Unqueued (s.nodeState n) := by
      rw [hq]
      exact unqueued_idle
    split at h
    · obtain ⟨M, hM⟩ := I.queued
      exact (e.traced hM (Or.inl rfl)).suited_addToQueue hN I.book.bounded hn hidle ht h
    · obtain rfl := Except.ok.inj h
      exact e.suited_unqueued hidle
  | working | stealing =>
    simp only [hq] at h
    obtain rfl := Except.ok.inj h
    exact e.suited_unqueued (by simp [hq])
  | prioChange => exact absurd (Or.inl hq) (I.book.settled n)
  | staticChange | affinityChange =>
    simp only [hq] at h
    exact absurd h (by simp)
  | normalMoving =>
    simp only [hq] at h
    exact suited_raise_list I hN hn (w := .moving) hq ht h
  | normalStatic =>
    simp only [hq] at h
    exact suited_raise_list I hN hn (w := .stati) hq ht h
  | priorityMoving =>
    simp only [hq] at h
    exact suited_raise_heap I hN hn (w := .moving) hs hq ht hlevel h
  | priorityStatic =>
    simp only [hq] at h
    exact suited_raise_heap I hN hn (w := .stati) hs hq ht hlevel h

theorem doSetNodePriorityOther_suited {priority : π} (hs : Suits P L s n)
    (hlevel : KeepsLevel P s n priority) (h : doSetNodePriorityOther P s n priority = .ok s') :
    Suited P L s s' [n] := by
  rw [doSetNodePriorityOther] at h
  obtain ⟨p, e⟩ := edits_setTemporaryPriorityIf (P := P) s n priority
  cases hq : s.nodeState n with
  | working =>
    simp only [hq] at h
    obtain rfl := Except.ok.inj h
    exact (Edits.refl s n).suited_same hs rfl
  | idle | stealing =>
    simp only [hq] at h
    obtain rfl := Except.ok.inj h
    exact e.suited_unqueued (by simp [hq])
  | prioChange => exact absurd (Or.inl hq) (I.book.settled n)
  | staticChange | affinityChange =>
    simp only [hq] at h
    exact absurd h (by simp)
  | normalMoving =>
    simp only [hq] at h
    exact suited_raise_list I hN hn (w := .moving) hq rfl h
  | normalStatic =>
    simp only [hq] at h
    exact suited_raise_list I hN hn (w := .stati) hq rfl h
  | priorityMoving =>
    simp only [hq] at h
    exact suited_raise_heap I hN hn (w := .moving) hs hq rfl hlevel h
  | priorityStatic =>
    simp only [hq] at h
    exact suited_raise_heap I hN hn (w := .stati) hs hq rfl hlevel h

theorem setNodePriority_suited {priority : π} (hs : Suits P L s n)
    (hlevel : KeepsLevel P s n priority) (h : setNodePriority P s t n priority = .ok s') :
    Suited P L s s' [n] := by
  rw [setNodePriority] at h
  split at h
  · obtain rfl := Except.ok.inj h
    exact (Edits.refl s n).suited_same hs rfl
  split at h
  · obtain rfl := Except.ok.inj h
    exact (Edits.refl s n).suited_same hs rfl
  split at h
  · next ht => exact doSetNodePriority_suited I hN hn hs ht hlevel h
  · exact doSetNodePriorityOther_suited I hN hn hs hlevel h

theorem addNodePriority_suited {priority : π} (hs : Suits P L s n)
    (hlevel : P.schedulingMechanism = false ∨
      KeepsLevel P s n (P.add ((s.node n).getPriority P) priority))
    (h : addNodePriority P s t n priority = .ok s') : Suited P L s s' [n] := by
  rw [addNodePriority] at h
  split at h
  · obtain rfl := Except.ok.inj h
    exact (Edits.refl s n).suited_same hs rfl
  next hon =>
  have hlevel := hlevel.resolve_left fun hoff => hon (by rw [hoff]; decide)
  split at h
  · obtain rfl := Except.ok.inj h
    exact (Edits.refl s n).suited_same hs rfl
  simp only at h
  split at h
  · next ht => exact doSetNodePriority_suited I hN hn hs ht hlevel h
  · exact doSetNodePriorityOther_suited I hN hn hs hlevel h

theorem scheduleNext_suited (hs : Suits P L s n)
    (hlevel : (s.node n).owner = t → KeepsLevel P s n P.maxPriority)
    (h : scheduleNext P s t n = .ok s') : Suited P L s s' [n] := by
  rw [scheduleNext] at h
  split at h
  · next ht => exact doSetNodePriority_suited I hN hn hs ht (hlevel ht) h
  · obtain rfl := Except.ok.inj h
    exact (Edits.refl s n).suited_same hs rfl

/-! ## Removing a priority -/

/-- A node in a heap falls back on its default priority and comes to the list. -/
theorem suited_lower_heap {w : Which} (hk : s.nodeState n = (Kind.priority w).number)
    (ht : (s.node n).owner = t)
    (hlist : L → InHeap s n ∨ InList s n → (s.node n).defaultPriorityLevel = P.noPriority)
    (h : (s.removeTemporaryPriority n).shift P t (.priority w) (.normal w) n .prioChange = .ok s') :
    Suited P L s s' [n] := by
  have e : Edits s (s.removeTemporaryPriority n) n _ := edits_setNode s n _
  refine e.suited_shift I hN hn rfl (Or.inl rfl) h hk ht fun hl v _ => ?_
  rw [getPriority_removeTemporaryPriority]
  exact hlist hl (Or.inl ⟨w, hk⟩)

omit I hN hn in
/-- A node in a list falls back on its default priority. -/
theorem suited_lower_list {w : Which} (hk : s.nodeState n = (Kind.normal w).number)
    (hlist : L → InHeap s n ∨ InList s n → (s.node n).defaultPriorityLevel = P.noPriority) :
    Suited P L s (s.removeTemporaryPriority n) [n] := by
  have e : Edits s (s.removeTemporaryPriority n) n _ := edits_setNode s n _
  refine e.suited (fun ⟨v, hv⟩ => ?_) fun hl hin => ?_
  · exact absurd (Kind.number_inj (hk.symm.trans hv)) (by simp)
  · rw [getPriority_removeTemporaryPriority]
    exact hlist hl (Or.inr hin)

theorem doRemoveNodePriority_suited (ht : (s.node n).owner = t)
    (hlist : L → InHeap s n ∨ InList s n → (s.node n).defaultPriorityLevel = P.noPriority)
    (h : doRemoveNodePriority P s t n = .ok s') : Suited P L s s' [n] := by
  rw [doRemoveNodePriority] at h
  have e := edits_level s n (s.node n).defaultPriorityLevel
  cases hq : s.nodeState n with
  | idle | working | stealing =>
    simp only [hq] at h
    obtain rfl := Except.ok.inj h
    exact e.suited_unqueued (by simp [hq])
  | prioChange | staticChange | affinityChange =>
    simp only [hq] at h
    exact absurd h (by simp)
  | normalMoving =>
    simp only [hq] at h
    obtain rfl := Except.ok.inj h
    exact suited_lower_list (w := .moving) hq hlist
  | normalStatic =>
    simp only [hq] at h
    obtain rfl := Except.ok.inj h
    exact suited_lower_list (w := .stati) hq hlist
  | priorityMoving =>
    simp only [hq] at h
    exact suited_lower_heap I hN hn (w := .moving) hq ht hlist h
  | priorityStatic =>
    simp only [hq] at h
    exact suited_lower_heap I hN hn (w := .stati) hq ht hlist h

theorem doRemoveNodePriorityOther_suited (hs : Suits P L s n)
    (hlist : L → InHeap s n ∨ InList s n → (s.node n).defaultPriorityLevel = P.noPriority)
    (h : doRemoveNodePriorityOther P s n = .ok s') : Suited P L s s' [n] := by
  rw [doRemoveNodePriorityOther] at h
  have e := edits_level s n (s.node n).defaultPriorityLevel
  cases hq : s.nodeState n with
  | working =>
    simp only [hq] at h
    obtain rfl := Except.ok.inj h
    exact (Edits.refl s n).suited_same hs rfl
  | stealing =>
    simp only [hq] at h
    obtain rfl := Except.ok.inj h
    exact e.suited_unqueued (by simp [hq])
  | idle | prioChange | staticChange | affinityChange =>
    simp only [hq] at h
    exact absurd h (by simp)
  | normalMoving =>
    simp only [hq] at h
    obtain rfl := Except.ok.inj h
    exact suited_lower_list (w := .moving) hq hlist
  | normalStatic =>
    simp only [hq] at h
    obtain rfl := Except.ok.inj h
    exact suited_lower_list (w := .stati) hq hlist
  | priorityMoving =>
    simp only [hq] at h
    exact suited_lower_heap I hN hn (w := .moving) hq rfl hlist h
  | priorityStatic =>
    simp only [hq] at h
    exact suited_lower_heap I hN hn (w := .stati) hq rfl hlist h

theorem removeNodePriority_suited (hs : Suits P L s n)
    (hlist : L → P.schedulingMechanism = false ∨
      (InHeap s n ∨ InList s n → (s.node n).defaultPriorityLevel = P.noPriority))
    (h : removeNodePriority P s t n = .ok s') : Suited P L s s' [n] := by
  rw [removeNodePriority] at h
  split at h
  · obtain rfl := Except.ok.inj h
    exact (Edits.refl s n).suited_same hs rfl
  next hon =>
  have hlist := fun hl => (hlist hl).resolve_left fun hoff => hon (by rw [hoff]; decide)
  split at h
  · next hcur =>
    obtain rfl := Except.ok.inj h
    refine (edits_level s n _).suited_unqueued ?_
    rw [(I.book.current t n hcur).1]
    exact unqueued_working
  split at h
  · next ht => exact doRemoveNodePriority_suited I hN hn ht hlist h
  · exact doRemoveNodePriorityOther_suited I hN hn hs hlist h

omit I hN hn in
/-- **The default priority**: only the record is written. -/
theorem setDefaultNodePriority_suited {priority : π} (hs : Suits P L s n)
    (hkey : P.schedulingMechanism = false ∨ (InHeap s n → (s.node n).priorityLevel = P.noPriority →
      priority = (s.node n).defaultPriorityLevel))
    (hlist : L → P.schedulingMechanism = false ∨ (InList s n → priority = P.noPriority))
    (h : setDefaultNodePriority P s n priority = .ok s') : Suited P L s s' [n] := by
  rw [setDefaultNodePriority] at h
  split at h
  · obtain rfl := Except.ok.inj h
    exact (Edits.refl s n).suited_same hs rfl
  next hon =>
  have hoff : ¬ P.schedulingMechanism = false := fun hoff => hon (by rw [hoff]; decide)
  obtain rfl := Except.ok.inj h
  have hnew : Node.getPriority P { s.node n with defaultPriorityLevel := priority } =
      if (s.node n).priorityLevel = P.noPriority then priority else (s.node n).priorityLevel := rfl
  refine (edits_setNode s n { s.node n with defaultPriorityLevel := priority }).suited
    (fun hheap => ?_) fun hl hin => ?_
  · rw [hs.heap hheap, hnew, Node.getPriority]
    split
    · next hno => exact (hkey.resolve_left hoff hheap hno).symm
    · rfl
  · have hold := hs.list hl hin
    rw [Node.getPriority] at hold
    rw [hnew]
    split
    · exact (hlist hl).resolve_left hoff hin
    · next hlevel =>
      rw [if_neg hlevel] at hold
      exact absurd hold hlevel

/-! ## Static nodes and owners -/

/-- A node whose priority stays changes its queue for one of the same kind. -/
theorem suited_restatic {st : Option ℕ} {k k' : Kind} (hs : Suits P L s n)
    (e : Edits s s₁ n { s.node n with static := st }) (hk : s.nodeState n = k.number)
    (ht : (s.node n).owner = t) (hkind : ∀ w, k' = .normal w → ∃ v, k = .normal v)
    (h : s₁.shift P t k k' n .staticChange = .ok s') : Suited P L s s' [n] := by
  refine e.suited_shift I hN hn rfl (Or.inr (Or.inl rfl)) h hk ht fun hl w hw => ?_
  obtain ⟨v, rfl⟩ := hkind w hw
  exact hs.list hl ⟨v, hk⟩

theorem setNodeStatic_suited (hs : Suits P L s n) (hown : OwnQueue P s (.setNodeStatic t n))
    (h : setNodeStatic P s t n = .ok s') : Suited P L s s' [n] := by
  have hsame : Suited P L s s [n] := (Edits.refl s n).suited_same hs rfl
  have e := edits_makeNodeStatic s n t
  have hkeep := e.suited_same hs rfl
  rw [setNodeStatic] at h
  split at h
  · obtain rfl := Except.ok.inj h
    exact hsame
  next hon =>
  split at h
  · obtain rfl := Except.ok.inj h
    exact hkeep
  next hcur =>
  split at h
  · obtain rfl := Except.ok.inj h
    exact hsame
  next hstatic =>
  have hown := ((hown.resolve_left fun hoff => hon (by rw [hoff]; decide)).resolve_left
    hcur).resolve_left hstatic
  cases hq : s.nodeState n with
  | idle | working | stealing | normalStatic | priorityStatic =>
    simp only [hq] at h
    obtain rfl := Except.ok.inj h
    exact hkeep
  | prioChange | staticChange | affinityChange =>
    simp only [hq] at h
    exact absurd h (by simp)
  | normalMoving =>
    simp only [hq] at h
    exact suited_restatic I hN hn hs e (k := .normal .moving) hq (hown ⟨.normal .moving, hq⟩)
      (fun _ _ => ⟨_, rfl⟩) h
  | priorityMoving =>
    simp only [hq] at h
    exact suited_restatic I hN hn hs e (k := .priority .moving) hq (hown ⟨.priority .moving, hq⟩)
      (fun _ hw => by cases hw) h

theorem setNodeMoving_suited (hs : Suits P L s n) (hown : OwnQueue P s (.setNodeMoving t n))
    (h : setNodeMoving P s t n = .ok s') : Suited P L s s' [n] := by
  have hsame : Suited P L s s [n] := (Edits.refl s n).suited_same hs rfl
  have e := edits_makeNodeMoving s n
  have hkeep := e.suited_same hs rfl
  rw [setNodeMoving] at h
  split at h
  · obtain rfl := Except.ok.inj h
    exact hsame
  next hon =>
  split at h
  · obtain rfl := Except.ok.inj h
    exact hkeep
  next hcur =>
  split at h
  · obtain rfl := Except.ok.inj h
    exact hsame
  next hmoving =>
  have hown := ((hown.resolve_left fun hoff => hon (by rw [hoff]; decide)).resolve_left
    hcur).resolve_left hmoving
  cases hq : s.nodeState n with
  | idle | working | stealing | normalMoving | priorityMoving =>
    simp only [hq] at h
    obtain rfl := Except.ok.inj h
    exact hkeep
  | prioChange | staticChange | affinityChange =>
    simp only [hq] at h
    exact absurd h (by simp)
  | normalStatic =>
    simp only [hq] at h
    exact suited_restatic I hN hn hs e (k := .normal .stati) hq (hown ⟨.normal .stati, hq⟩)
      (fun _ _ => ⟨_, rfl⟩) h
  | priorityStatic =>
    simp only [hq] at h
    exact suited_restatic I hN hn hs e (k := .priority .stati) hq (hown ⟨.priority .stati, hq⟩)
      (fun _ hw => by cases hw) h

/-- A queued node leaves for its new owner. -/
theorem changeOwner_suited {newOwner : ℕ} {k : Kind} (hk : s.nodeState n = k.number)
    (ht : (s.node n).owner = t)
    (h : changeOwner P (s.makeNodeStatic n newOwner) t k n newOwner = .ok s') :
    Suited P L s s' [n] := by
  obtain ⟨M, hM⟩ := I.queued
  have hb := I.book.bounded
  have o := (edits_makeNodeStatic s n newOwner).traced hM (Or.inl rfl)
  rw [hk] at o
  have hq : Unqueued .affinityChange := unqueued_of_changing (Or.inr (Or.inr rfl))
  rw [changeOwner] at h
  obtain ⟨r, hr, h⟩ := Result.bind_eq_ok h
  obtain ⟨htrue, o₂⟩ := o.remove hN (o.bounded hb hn) ht hq hr
  rw [if_pos htrue] at h
  have e₃ : Edits r.1 (r.1.setOwner n newOwner) n _ := edits_setNode r.1 n _
  rw [o₂.record] at e₃
  exact (o₂.edit e₃ (Or.inr hq)).suited_moveNodeToNewOwner hN hb hn hq rfl h

theorem setNodeOwner_suited {newOwner : ℕ} (hs : Suits P L s n)
    (hlocal : (s.thread t).currentNode = some n ∨ (s.node n).owner = newOwner ∨ Local s t n)
    (h : setNodeOwner P s t n newOwner = .ok s') : Suited P L s s' [n] := by
  have e := edits_makeNodeStatic s n newOwner
  rw [setNodeOwner] at h
  split at h
  · obtain ⟨s₁, h₁, h⟩ := Result.bind_eq_ok h
    obtain rfl := Except.ok.inj h
    obtain ⟨db, e₁⟩ : ∃ db : DbNode, Edits s s₁ n { s.node n with db := db } := by
      split at h₁
      · obtain ⟨db, e₁, -⟩ := edits_justMoved h₁
        exact ⟨db, e₁⟩
      · obtain rfl := Except.ok.inj h₁
        exact ⟨_, Edits.refl s n⟩
    have e₂ := edits_makeNodeStatic s₁ n newOwner
    rw [e₁.record] at e₂
    exact (e₁.trans e₂).suited_same hs rfl
  next hcur =>
  split at h
  · obtain rfl := Except.ok.inj h
    have e₂ := edits_justMovedBuffer (P := P) (s.makeNodeStatic n newOwner) n
    rw [e.record] at e₂
    exact (e.trans e₂).suited_same hs rfl
  next howner =>
  have hl := (hlocal.resolve_left hcur).resolve_left howner
  have e' : Edits s ((s.makeNodeStatic n newOwner).setOwner n newOwner) n _ :=
    e.trans (edits_setNode (s.makeNodeStatic n newOwner) n _)
  cases hq : s.nodeState n with
  | stealing =>
    simp only [hq] at h
    obtain rfl := Except.ok.inj h
    exact e'.suited_unqueued (by simp [hq])
  | working =>
    simp only [hq] at h
    obtain rfl := Except.ok.inj h
    exact e.suited_same hs rfl
  | idle =>
    simp only [hq] at h
    obtain rfl := Except.ok.inj h
    exact (e'.trans (edits_justMovedBuffer (P := P) _ n)).suited_unqueued
      (by simp [hq])
  | prioChange | staticChange | affinityChange =>
    simp only [hq] at h
    exact absurd h (by simp)
  | normalMoving =>
    simp only [hq] at h
    have hk : s.nodeState n = (Kind.normal .moving).number := hq
    exact changeOwner_suited I hN hn hk (hl ⟨_, hk⟩) h
  | normalStatic =>
    simp only [hq] at h
    have hk : s.nodeState n = (Kind.normal .stati).number := hq
    exact changeOwner_suited I hN hn hk (hl ⟨_, hk⟩) h
  | priorityMoving =>
    simp only [hq] at h
    have hk : s.nodeState n = (Kind.priority .moving).number := hq
    exact changeOwner_suited I hN hn hk (hl ⟨_, hk⟩) h
  | priorityStatic =>
    simp only [hq] at h
    have hk : s.nodeState n = (Kind.priority .stati).number := hq
    exact changeOwner_suited I hN hn hk (hl ⟨_, hk⟩) h

theorem setNodeCpu_suited {newOwner : ℕ} (hs : Suits P L s n)
    (hown : OwnQueue P s (.setNodeCpu t n newOwner))
    (h : setNodeCpu P s t n newOwner = .ok s') : Suited P L s s' [n] := by
  rw [setNodeCpu] at h
  split at h
  · obtain rfl := Except.ok.inj h
    exact (Edits.refl s n).suited_same hs rfl
  · next hon =>
    exact setNodeOwner_suited I hN hn hs
      (hown.resolve_left fun hoff => hon (by rw [hoff]; decide)) h

end Coordination

/-! ## The life of a node -/

section Life

variable (I : Inv P N s) (hN : N < 2 ^ 30)

include I hN

theorem newWork_suited (hn : 0 < n ∧ n ≤ N) (hs : Suits P L s n) {w : Work} {locked : Bool}
    (h : newWork P s t n w locked = .ok s') : Suited P L s s' [n] := by
  obtain ⟨M, hM⟩ := I.queued
  rw [newWork] at h
  obtain ⟨db, -, h⟩ := Result.bind_eq_ok h
  have e := edits_setNode s n { s.node n with db := db }
  split at h
  · next hidle =>
    have o := e.traced hM (Or.inl rfl)
    rw [hidle] at o
    exact o.suited_addToQueue hN I.book.bounded hn unqueued_idle rfl h
  · obtain rfl := Except.ok.inj h
    exact e.suited_same hs rfl

omit hN in
theorem popNormal_suited {w : Which} (h : popNormal s t w = .ok s') : ∃ m, Suited P L s s' m := by
  obtain ⟨M, hM⟩ := I.queued
  rw [popNormal] at h
  split at h
  · exact absurd h (by simp)
  obtain rfl := Except.ok.inj h
  rcases hM.popHead (t := t) (w := w) unqueued_working with ⟨-, hpop⟩ | ⟨n, hn, hpop, -, hM', hp⟩
  · rw [hpop, putNormal_self]
    exact ⟨[], (suited_of_eq rfl rfl rfl).setThread⟩
  · have hholds : (s.normal t w).Holds (M t (.normal w)) := hM.has t (.normal w)
    have hkeys : KeepsKeys P s (s.putNormal t w ((s.normal t w).popHead .working).1) [n] := by
      cases hl : M t (.normal w) with
      | nil =>
        rw [hl] at hn
        exact absurd hn List.not_mem_nil
      | cons x ys =>
        rw [hl] at hholds
        obtain ⟨hx, hleave⟩ := hholds.popHead .working
        obtain rfl : x = n := hx.symm.trans hpop
        refine hM.keeps_putNormal fun y hy hyM => hleave.elsewhere y hy ?_
        rw [hl] at hyM
        exact fun hys => hyM (List.mem_cons_of_mem x hys)
    have o : Traced P s _ n .working (s.node n) := ⟨hp.outcome hM', hkeys⟩
    exact ⟨[n], (o.suited_unqueued unqueued_working).setThread⟩

theorem popBest_suited (h : popBest P s t = .ok s') : ∃ m, Suited P L s s' m := by
  obtain ⟨M, hM⟩ := I.queued
  rw [popBest] at h
  split at h
  · exact absurd h (by simp)
  obtain ⟨r, hr, h⟩ := Result.bind_eq_ok h
  obtain rfl := Except.ok.inj h
  have hr := Result.ofOption_eq_ok hr
  have hprio := Priorities.popBest_priority hr
  rcases hM.popBest (t := t) hN I.book.bounded unqueued_working with
    hpop | ⟨w, n, q, hn, hpop, hM', hp⟩
  · rw [hpop] at hr
    obtain rfl := Option.some.inj hr
    rw [putHeaps_self]
    exact ⟨[], (suited_of_eq rfl rfl rfl).setThread⟩
  · rw [hpop] at hr
    obtain rfl := Option.some.inj hr
    have hkeys : KeepsKeys P s (s.putHeap P t w q) [n] := by
      refine keeps_putHeap fun y _ => ?_
      have hy := hprio y
      rw [Priorities.obj_put] at hy
      exact hy
    have o : Traced P s _ n .working (s.node n) := ⟨hp.outcome hM', hkeys⟩
    exact ⟨[n], (o.suited_unqueued unqueued_working).setThread⟩

theorem handOver_suited (h : handOver P s t = .ok s') : ∃ m, Suited P L s s' m := by
  obtain ⟨n, newOwner, s₁, -, -, -, rfl, hn0, hnN, hq, e, h₁⟩ := handOver_cases I h
  obtain ⟨M, hM⟩ := I.queued
  have o := e.traced hM (Or.inr hq)
  exact ⟨[n], (o.suited_moveNodeToNewOwner hN I.book.bounded ⟨hn0, hnN⟩ hq rfl h₁).setThread⟩

omit hN in
theorem finish_suited (h : finish s t = .ok s') : ∃ m, Suited P L s s' m := by
  rw [finish] at h
  obtain ⟨n, hn, h⟩ := Result.bind_eq_ok h
  obtain ⟨-, hcur⟩ := working_ok hn
  split at h
  · obtain rfl := Except.ok.inj h
    have hq : Unqueued (s.nodeState n) := by
      rw [(I.book.current t n hcur).1]
      exact unqueued_working
    obtain ⟨hM, hp⟩ := makeInactive_places I.queued hq
    have hkeys : KeepsKeys P s (makeInactive s n) [n] := keepsKeys_of_link fun x hx =>
      Function.update_of_ne (mt List.mem_singleton.mpr hx) _ _
    have o : Traced P s _ n .idle (s.node n) := ⟨hp.outcome hM, hkeys⟩
    have o' := o.edit (edits_setNode (makeInactive s n) n (s.node n).removeTemporaryPriority)
      (Or.inl rfl)
    exact ⟨[n], (o'.suited_unqueued unqueued_idle).setThread⟩
  · obtain rfl := Except.ok.inj h
    exact ⟨[], (suited_of_eq rfl rfl rfl).setThread⟩

/-! ## Stealing -/

omit I in
theorem Queued.keeps_stealNormal {M : ℕ → Kind → List ℕ} (hM : Queued P s M) (hb : Bounded N s)
    {max : ℕ} {r : State π × List ℕ} (hr : Coord.stealNormal s t max = .ok r) :
    KeepsKeys P s r.1 r.2 := by
  have hholds : (s.normal t .moving).Holds (M t (.normal .moving)) := hM.has t (.normal .moving)
  obtain ⟨q, hpop, hleave⟩ :=
    hholds.popTailHalf (lt_trans (hM.length_lt hN hb) (by decide)) max .stealing
  rw [Coord.stealNormal, hpop] at hr
  obtain rfl := Except.ok.inj hr
  exact hM.keeps_putNormal fun y hy hyM =>
    hleave.elsewhere y hy fun hd => hyM (List.mem_of_mem_drop hd)

omit I hN in
theorem keeps_stealPriority {max : ℕ} {r : State π × List ℕ}
    (hr : stealPriority P s t max = .ok r) : KeepsKeys P s r.1 r.2 := by
  rw [stealPriority] at hr
  obtain ⟨q, hq, hr⟩ := Result.bind_eq_ok hr
  obtain rfl := Except.ok.inj hr
  exact keeps_putHeap fun y _ => Pqueue.popHalf_priority (Result.ofOption_eq_ok hq) y

theorem steal_suited {u : ℕ} (h : steal P s t u = .ok s') : ∃ m, Suited P L s s' m := by
  rw [Coord.steal] at h
  split at h
  · exact absurd h (by simp)
  obtain ⟨r, hr, h⟩ := Result.bind_eq_ok h
  obtain rfl := Except.ok.inj h
  obtain ⟨-, hp, -⟩ := stealNodes_places I hN hr
  have hkeys : KeepsKeys P s r.1 r.2 := by
    obtain ⟨M, hM⟩ := I.queued
    have hM₁ : Queued P (stealStart s u) M := hM.setThread rfl rfl
    rcases stealNodes_cases hr with hr | hr | rfl
    · exact hM₁.keeps_stealNormal (t := u) hN I.book.bounded hr
    · exact keeps_stealPriority (s := stealStart s u) hr
    · exact keepsKeys_of_link fun _ _ => rfl
  have hsuit : Suited P L s r.1 r.2 := by
    refine ⟨hp.started, fun x _ => by rw [hp.node], hp.elsewhere, hkeys, fun x hx => ?_⟩
    exact suits_of_unqueued (by rw [hp.self x hx]; exact unqueued_stealing)
  exact ⟨r.2, hsuit.setThread⟩

theorem adopt_suited (h : adopt P s t = .ok s') : ∃ m, Suited P L s s' m := by
  rw [adopt] at h
  cases hbuf : (s.thread t).buffer with
  | nil =>
    simp only [hbuf] at h
    exact absurd h (by simp)
  | cons n rest =>
    simp only [hbuf] at h
    obtain ⟨s₁, hs₁⟩ : ∃ s₁, s₁ = s.setThread t { s.thread t with buffer := rest } := ⟨_, rfl⟩
    obtain ⟨M, hM⟩ := I.queued
    have hM₁ : Queued P s₁ M := by
      rw [hs₁]
      exact hM.setThread rfl rfl
    have hnode : s₁.node = s.node := by
      rw [hs₁]
      rfl
    have hlink : s₁.link = s.link := by
      rw [hs₁]
      rfl
    have hstart : s₁.started = s.started := by
      rw [hs₁]
      rfl
    have hb₁ : Bounded N s₁ := by
      rw [hs₁]
      exact I.book.bounded
    -- what follows sees the thread without the node in its buffer
    have hfrom : ∀ {m}, Suited P L s₁ s' m → Suited P L s s' m := fun hsuit =>
      ⟨hsuit.started.trans hstart, fun x hx => (hsuit.node x hx).trans (by rw [hnode]),
        fun x hx => (hsuit.nodeState x hx).trans (by rw [State.nodeState, hlink]; rfl),
        fun x hx hheap => (hsuit.keys x hx (by rwa [InHeap, State.nodeState, hlink])).trans
          (by rw [State.obj, hlink]; rfl), hsuit.suits⟩
    rw [← hs₁] at h
    split at h
    · obtain rfl := Except.ok.inj h
      exact ⟨[], suited_of_eq hstart hnode hlink⟩
    next hst =>
    have hst : s₁.nodeState n = .stealing := not_not.mp hst
    have hn : 0 < n ∧ n ≤ N := hb₁ n (by rw [hst]; decide)
    have hq : Unqueued (s₁.nodeState n) := by
      rw [hst]
      exact unqueued_stealing
    split at h
    · have o := (Edits.refl s₁ n).traced hM₁ (Or.inl rfl)
      exact ⟨[n], hfrom (o.suited_moveNodeToNewOwner hN hb₁ hn hq rfl h)⟩
    · obtain ⟨st, e⟩ : ∃ st, Edits s₁
          (if (s₁.node n).static.isSome = true then s₁.makeNodeStatic n t else s₁) n
          { s₁.node n with static := st } := by
        split
        · exact ⟨_, edits_makeNodeStatic s₁ n t⟩
        · exact ⟨_, Edits.refl s₁ n⟩
      have e' := edits_setNode (if (s₁.node n).static.isSome = true then s₁.makeNodeStatic n t
        else s₁) n { s₁.node n with static := st, owner := t }
      have o := (e.trans e').traced hM₁ (Or.inr hq)
      rw [setOwner, e.record] at h
      exact ⟨[n], hfrom (o.suited_addToQueue hN hb₁ hn hq rfl h)⟩

end Life

/-! ## One step -/

/-- **A step that meets the conditions** leaves the nodes it handles in queues that suit them. -/
theorem act_suited (I : Inv P N s) (hN : N < 2 ^ 30) {e : Event π}
    (hnode : ∀ n ∈ e.node, 0 < n ∧ n ≤ N) (hown : OwnQueue P s e) (hkey : Rekeys P s e)
    (hlist : L → Relists P s e) (hs : ∀ x, Suits P L s x) (h : act P s e = .ok s') :
    ∃ m, Suited P L s s' m := by
  cases e with
  | initNode t n => exact absurd h (by simp [act])
  | synchronize => exact absurd h (by simp [act])
  | newWork t n w locked => exact ⟨[n], newWork_suited I hN (hnode n rfl) (hs n) h⟩
  | popBest t => exact popBest_suited I hN h
  | popNormal t w => exact popNormal_suited I h
  | takeFacts t =>
    obtain ⟨n, db, -, -, -, e⟩ := takeFacts_edits h
    exact ⟨[n], e.suited_same (hs n) rfl⟩
  | runRules t linear matcher =>
    obtain ⟨n, -, -, e⟩ := runRules_edits h
    exact ⟨[n], e.suited_same (hs n) rfl⟩
  | seeNewOwner t =>
    obtain ⟨n, facts, -, -, -, e⟩ := seeNewOwner_edits h
    exact ⟨[n], e.suited_same (hs n) rfl⟩
  | check t =>
    have h : check s t = .ok s' := h
    rw [check] at h
    obtain ⟨n, -, h⟩ := Result.bind_eq_ok h
    obtain rfl := Except.ok.inj h
    exact ⟨[], (suited_of_eq rfl rfl rfl).setThread⟩
  | handOver t => exact handOver_suited I hN h
  | finish t => exact finish_suited I h
  | steal t u => exact steal_suited I hN h
  | adopt t => exact adopt_suited I hN h
  | setNodePriority t n priority =>
    exact ⟨[n], setNodePriority_suited I hN (hnode n rfl) (hs n) hkey h⟩
  | addNodePriority t n priority =>
    exact ⟨[n], addNodePriority_suited I hN (hnode n rfl) (hs n) hkey h⟩
  | removeNodePriority t n =>
    exact ⟨[n], removeNodePriority_suited I hN (hnode n rfl) (hs n) hlist h⟩
  | setDefaultNodePriority t n priority =>
    exact ⟨[n], setDefaultNodePriority_suited (hs n) hkey hlist h⟩
  | scheduleNext t n => exact ⟨[n], scheduleNext_suited I hN (hnode n rfl) (hs n) hkey h⟩
  | setNodeStatic t n => exact ⟨[n], setNodeStatic_suited I hN (hnode n rfl) (hs n) hown h⟩
  | setNodeMoving t n => exact ⟨[n], setNodeMoving_suited I hN (hnode n rfl) (hs n) hown h⟩
  | setNodeCpu t n newOwner => exact ⟨[n], setNodeCpu_suited I hN (hnode n rfl) (hs n) hown h⟩
  | setNodeAffinity t n affinity =>
    -- the same call with the owner of the other node
    have h : setNodeCpu P s t n (s.node affinity).owner = .ok s' := h
    exact ⟨[n], setNodeCpu_suited I hN (hnode n rfl) (hs n) hown h⟩

/-! ## Runs -/

/-- The nodes as their constructor leaves them, before the threads begin. -/
structure Constructed (P : Program π) (s : State π) : Prop extends Initial s where
  priorityLevel : ∀ n, (s.node n).priorityLevel = P.initialPriority

/-- Runs of steps that meet a condition, where the nodes are numbered from `1` to `N`. -/
def Steps (P : Program π) (N : ℕ) (allowed : State π → Event π → Prop) : State π → State π → Prop :=
  Relation.ReflTransGen fun s s' =>
    ∃ e, (∀ n ∈ e.node, 0 < n ∧ n ≤ N) ∧ allowed s e ∧ step P s e = .ok s'

/-- **The invariant.**  Until the threads have started no priority is set. -/
structure KeyInv (P : Program π) (N : ℕ) (L : Prop) (s : State π) : Prop where
  inv : Inv P N s
  suits : ∀ n, Suits P L s n
  level : s.started = false → ∀ n, (s.node n).priorityLevel = P.initialPriority
  defaults : L → s.started = false → P.initialPriority = P.noPriority →
    ∀ n, (s.node n).defaultPriorityLevel = P.noPriority

/-- With an initial priority, a node is set up in a heap. -/
theorem initNode_inHeap (hno : P.initialPriority ≠ P.noPriority)
    (h : initNode P s t n = .ok s') : InHeap s' n := by
  rw [initNode] at h
  split at h
  · exact absurd h (by simp)
  obtain ⟨db, -, h⟩ := Result.bind_eq_ok h
  obtain rfl := Except.ok.inj h
  refine ⟨.moving, ?_⟩
  show ((State.putHeap P _ t .moving _).obj P n).queue = _
  rw [obj_putHeap, obj_initialFastInsert_self]
  rfl

theorem initNode_suits (K : KeyInv P N L s) (hst : s.started = false) (hN : N < 2 ^ 30)
    (hn : 0 < n ∧ n ≤ N) (h : initNode P s t n = .ok s') (x : ℕ) : Suits P L s' x := by
  obtain ⟨-, k, db, o, -, hfresh⟩ := initNode_outcome K.inv hst hN hn h
  have hrecord : (s'.node x).getPriority P = (s.node x).getPriority P := by
    by_cases hx : x = n
    · rw [hx, o.record]
      rfl
    · rw [o.handles.node x hx]
  have hlevel := K.level hst x
  refine ⟨fun ⟨w, hw⟩ => ?_, fun hl hin => ?_⟩
  · obtain ⟨hno, hkey⟩ := hfresh w x hw
    rw [hkey, hrecord, Node.getPriority, hlevel, if_neg hno]
  by_cases hno : P.initialPriority = P.noPriority
  · rw [hrecord, Node.getPriority, hlevel, if_pos hno]
    exact K.defaults hl hst hno x
  · -- no node is in a list then
    by_cases hx : x = n
    · subst hx
      obtain ⟨w, hw⟩ := initNode_inHeap hno h
      obtain ⟨v, hv⟩ := hin
      exact absurd (Kind.number_inj (hw.symm.trans hv)) (by simp)
    · rw [hrecord]
      exact (K.suits x).list hl ((inList_congr (o.handles.nodeState x hx)).mp hin)

theorem initNode_keyInv (K : KeyInv P N L s) (hst : s.started = false) (hN : N < 2 ^ 30)
    (hn : 0 < n ∧ n ≤ N) (h : initNode P s t n = .ok s') : KeyInv P N L s' := by
  obtain ⟨-, k, db, o, -, -⟩ := initNode_outcome K.inv hst hN hn h
  have hsame : ∀ x, (s'.node x).priorityLevel = (s.node x).priorityLevel ∧
      (s'.node x).defaultPriorityLevel = (s.node x).defaultPriorityLevel := by
    intro x
    by_cases hx : x = n
    · rw [hx, o.record]
      exact ⟨rfl, rfl⟩
    · rw [o.handles.node x hx]
      exact ⟨rfl, rfl⟩
  refine ⟨initNode_inv K.inv hst hN hn h, initNode_suits K hst hN hn h, fun _ x => ?_,
    fun hl _ hno x => ?_⟩
  · rw [(hsame x).1]
    exact K.level hst x
  · rw [(hsame x).2]
    exact K.defaults hl hst hno x

theorem step_keyInv (K : KeyInv P N L s) (hN : N < 2 ^ 30) {e : Event π}
    (hnode : ∀ n ∈ e.node, 0 < n ∧ n ≤ N) (hown : OwnQueue P s e) (hkey : Rekeys P s e)
    (hlist : L → Relists P s e) (h : step P s e = .ok s') : KeyInv P N L s' := by
  have I' := step_inv K.inv hN hnode hown h
  rcases step_cases h with ⟨t, n, rfl, hst, h⟩ | ⟨rfl, -, rfl⟩ | ⟨hst, h⟩
  · exact initNode_keyInv K hst hN (hnode n rfl) h
  · exact ⟨I', fun n => ⟨(K.suits n).heap, (K.suits n).list⟩, nofun, fun _ => nofun⟩
  · obtain ⟨m, hm⟩ := act_suited K.inv hN hnode hown hkey hlist K.suits h
    have hst' : s'.started = false → False := fun hf =>
      absurd (hst.symm.trans (hm.started.symm.trans hf)) (by decide)
    exact ⟨I', hm.all K.suits, fun hf => (hst' hf).elim, fun _ hf => (hst' hf).elim⟩

theorem keyInv_init (h : Constructed P s) (hdefault : L → P.initialPriority = P.noPriority →
    ∀ n, (s.node n).defaultPriorityLevel = P.noPriority) : KeyInv P N L s :=
  ⟨inv_init h.toInitial, fun n => suits_of_unqueued (by rw [h.nodeState n]; exact unqueued_idle),
    fun _ => h.priorityLevel, fun hl _ => hdefault hl⟩

/-! ## The property -/

/-- **Every node in a heap has its priority as key.** -/
def Keyed (P : Program π) (s : State π) : Prop :=
  ∀ t w, ∀ n ∈ (s.thread t).prios w, (s.obj P n).priority = (s.node n).getPriority P

/-- **The node that a thread takes from its heaps** has a best priority of all nodes in them. -/
def RunsBest (P : Program π) (s : State π) : Prop :=
  ∀ t s' n, popBest P s t = .ok s' → (s'.thread t).currentNode = some n →
    (∃ w, n ∈ (s.thread t).prios w) ∧ ∀ w, ∀ m ∈ (s.thread t).prios w,
      P.higherPriority ((s.node m).getPriority P) ((s.node n).getPriority P) = false

theorem KeyInv.keyed (K : KeyInv P N L s) : Keyed P s := by
  intro t w n hn
  obtain ⟨M, hM⟩ := K.inv.queued
  obtain ⟨hprios, -⟩ : _ ∧ _ := hM.has t (.priority w)
  rw [hprios] at hn
  exact (K.suits n).heap ⟨w, ((hM.mem t (.priority w) n).mp hn).2⟩

theorem higherPriority_of_compare {a b : π} (h : Pqueue.compare P.typ a b = true) :
    P.higherPriority b a = false := by
  rw [Program.typ] at h
  rw [Program.higherPriority]
  by_cases hdesc : P.isPriorityDesc = true
  · rw [if_pos hdesc] at h ⊢
    exact decide_eq_false (not_lt.mpr (of_decide_eq_true h))
  · rw [if_neg hdesc] at h ⊢
    exact decide_eq_false (not_lt.mpr (of_decide_eq_true h))

theorem KeyInv.runsBest (K : KeyInv P N L s) : RunsBest P s := by
  intro t s' n h hcur
  obtain ⟨M, hM⟩ := K.inv.queued
  rw [popBest] at h
  split at h
  · exact absurd h (by simp)
  obtain ⟨r, hr, h⟩ := Result.bind_eq_ok h
  obtain rfl := Except.ok.inj h
  rw [currentNode_setCurrent, if_pos rfl] at hcur
  obtain ⟨⟨v, hn⟩, hbest⟩ := Priorities.popBest_best (fun v => hM.shaped t v)
    (Result.ofOption_eq_ok hr) hcur
  rw [heap_heaps] at hn
  refine ⟨⟨v, hn⟩, fun w m hm => ?_⟩
  rw [← K.keyed t v n hn, ← K.keyed t w m hm]
  exact higherPriority_of_compare (hbest w m (by rw [heap_heaps]; exact hm))

theorem Steps.keyInv {allowed : State π → Event π → Prop} (hN : N < 2 ^ 30)
    (hallowed : ∀ s e, allowed s e → OwnQueue P s e ∧ Rekeys P s e ∧ (L → Relists P s e))
    (K : KeyInv P N L s) (h : Steps P N allowed s s') : KeyInv P N L s' := by
  induction h with
  | refl => exact K
  | tail _ hstep ih =>
    obtain ⟨e, hnode, hok, hstep⟩ := hstep
    obtain ⟨hown, hkey, hlist⟩ := hallowed _ e hok
    exact step_keyInv ih hN hnode hown hkey hlist hstep

/-- **After every run of steps that meet the condition for keys**, all nodes in heaps have their
priorities as keys, and a thread takes the best of them.  If the steps also meet the condition for
lists, the nodes in lists have no priority, so that the node is the best of all that wait. -/
theorem steps_keyed {allowed : State π → Event π → Prop} (hN : N < 2 ^ 30) {s₀ : State π}
    (h₀ : Constructed P s₀) (hallowed : ∀ s e, allowed s e → OwnQueue P s e ∧ Rekeys P s e)
    (h : Steps P N allowed s₀ s) :
    Keyed P s ∧ RunsBest P s ∧
      ((∀ s e, allowed s e → Relists P s e) →
        (P.initialPriority = P.noPriority →
          ∀ n, (s₀.node n).defaultPriorityLevel = P.noPriority) →
        ∀ n, InList s n → (s.node n).getPriority P = P.noPriority) := by
  have hK := h.keyInv hN (L := False)
    (fun s e hok => ⟨(hallowed s e hok).1, (hallowed s e hok).2, False.elim⟩)
    (keyInv_init (N := N) h₀ False.elim)
  refine ⟨hK.keyed, hK.runsBest, fun hlist hdefault n hn => ?_⟩
  have hK' := h.keyInv hN (L := True)
    (fun s e hok => ⟨(hallowed s e hok).1, (hallowed s e hok).2, fun _ => hlist s e hok⟩)
    (keyInv_init (N := N) h₀ fun _ => hdefault)
  exact (hK'.suits n).list trivial hn

/-! ## Runs on inputs -/

theorem Steps.run {allowed : State π → Event π → Prop} [∀ s e, Decidable (allowed s e)]
    {es : List (Event π)} (hrun : Coord.run P N allowed s es = some s') :
    Steps P N allowed s s' := by
  induction es generalizing s with
  | nil =>
    obtain rfl := Option.some.inj hrun
    exact Relation.ReflTransGen.refl
  | cons e es ih =>
    rw [Coord.run] at hrun
    split at hrun
    · next hok =>
      split at hrun
      · next s₁ hstep => exact Relation.ReflTransGen.head ⟨e, hok.1, hok.2, hstep⟩ (ih hrun)
      · exact absurd hrun (by simp)
    · exact absurd hrun (by simp)

instance (n : ℕ) : Decidable (InHeap s n) :=
  decidable_of_iff (s.nodeState n = .priorityMoving ∨ s.nodeState n = .priorityStatic)
    ⟨fun h => h.elim (fun h => ⟨.moving, h⟩) fun h => ⟨.stati, h⟩,
      fun ⟨w, h⟩ => by cases w with | moving => exact Or.inl h | stati => exact Or.inr h⟩

instance (n : ℕ) : Decidable (InList s n) :=
  decidable_of_iff (s.nodeState n = .normalMoving ∨ s.nodeState n = .normalStatic)
    ⟨fun h => h.elim (fun h => ⟨.moving, h⟩) fun h => ⟨.stati, h⟩,
      fun ⟨w, h⟩ => by cases w with | moving => exact Or.inl h | stati => exact Or.inr h⟩

instance (n : ℕ) (priority : π) : Decidable (KeepsLevel P s n priority) :=
  inferInstanceAs (Decidable (_ → _ → _ → _))

instance (e : Event π) : Decidable (Rekeys P s e) :=
  match e with
  | .setNodePriority _ _ _ => inferInstanceAs (Decidable (KeepsLevel _ _ _ _))
  | .addNodePriority _ _ _ => inferInstanceAs (Decidable (_ ∨ KeepsLevel _ _ _ _))
  | .scheduleNext _ _ => inferInstanceAs (Decidable (_ → KeepsLevel _ _ _ _))
  | .setDefaultNodePriority _ _ _ => inferInstanceAs (Decidable (_ ∨ (InHeap _ _ → _ → _)))
  | .initNode _ _ | .synchronize | .newWork _ _ _ _ | .popBest _ | .popNormal _ _ | .takeFacts _
  | .runRules _ _ _ | .seeNewOwner _ | .check _ | .handOver _ | .finish _ | .steal _ _ | .adopt _
  | .removeNodePriority _ _ | .setNodeStatic _ _ | .setNodeMoving _ _ | .setNodeCpu _ _ _
  | .setNodeAffinity _ _ _ => isTrue trivial

instance (e : Event π) : Decidable (Relists P s e) :=
  match e with
  | .removeNodePriority _ _ => inferInstanceAs (Decidable (_ ∨ (InHeap _ _ ∨ InList _ _ → _)))
  | .setDefaultNodePriority _ _ _ => inferInstanceAs (Decidable (_ ∨ (InList _ _ → _)))
  | .initNode _ _ | .synchronize | .newWork _ _ _ _ | .popBest _ | .popNormal _ _ | .takeFacts _
  | .runRules _ _ _ | .seeNewOwner _ | .check _ | .handOver _ | .finish _ | .steal _ _ | .adopt _
  | .setNodePriority _ _ _ | .addNodePriority _ _ _ | .scheduleNext _ _ | .setNodeStatic _ _
  | .setNodeMoving _ _ | .setNodeCpu _ _ _ | .setNodeAffinity _ _ _ => isTrue trivial

/-- All conditions on a step. -/
def Sorts (P : Program π) (s : State π) (e : Event π) : Prop :=
  OwnQueue P s e ∧ Rekeys P s e ∧ Relists P s e

instance (e : Event π) : Decidable (Sorts P s e) :=
  inferInstanceAs (Decidable (_ ∧ _ ∧ _))

theorem constructed_start (moved : Bool) : Constructed (scheduled moved) start :=
  ⟨initial_start, fun _ => rfl⟩

/-- Two nodes get priorities, the first of them more and a default one, and the thread takes it. -/
def raised : List (Event ℕ) :=
  [.initNode 0 1, .initNode 0 2, .synchronize, .setNodePriority 0 1 5, .setNodePriority 1 2 3,
    .addNodePriority 1 1 2, .setDefaultNodePriority 1 1 4, .popBest 0]

theorem steps_keyed_raised : ∃ s,
    run (scheduled false) 2 (Sorts (scheduled false)) start raised = some s ∧
      (s.thread 0).currentNode = some 1 ∧ Keyed (scheduled false) s ∧ RunsBest (scheduled false) s ∧
      ∀ n, InList s n → (s.node n).getPriority (scheduled false) = 0 := by
  have hend : (run (scheduled false) 2 (Sorts (scheduled false)) start raised).map
      (fun s => (s.thread 0).currentNode) = some (some 1) := by decide +kernel
  obtain ⟨s, hrun, hcur⟩ := Option.map_eq_some_iff.mp hend
  obtain ⟨hkeyed, hbest, hlists⟩ := steps_keyed (N := 2) (by decide) (constructed_start false)
    (fun _ _ hok => ⟨hok.1, hok.2.1⟩) (Steps.run hrun)
  exact ⟨s, hrun, hcur, hkeyed, hbest, hlists (fun _ _ hok => hok.2.2) fun _ _ => rfl⟩

/-- A node waits in a heap with its default priority, which then changes. -/
def staleKey : List (Event ℕ) :=
  [.initNode 0 1, .initNode 0 2, .synchronize, .setDefaultNodePriority 0 1 3,
    .addNodePriority 0 1 0, .setNodePriority 0 2 5, .setDefaultNodePriority 0 1 7]

/-- **The worse of two nodes runs**: the thread takes node `2` with the priority `5`, while node `1`
has the priority `7` and the key `3`. -/
theorem not_forall_keyed : Constructed (scheduled false) start ∧
    ∃ s, Steps (scheduled false) 2 (OwnQueue (scheduled false)) start s ∧
      ¬ Keyed (scheduled false) s ∧ ¬ RunsBest (scheduled false) s := by
  refine ⟨constructed_start false, ?_⟩
  have hend : (run (scheduled false) 2 (OwnQueue (scheduled false)) start staleKey).map (fun s =>
      ((s.thread 0).prios .moving, (s.obj (scheduled false) 1).priority,
        (s.node 1).getPriority (scheduled false), (s.node 2).getPriority (scheduled false),
        (popBest (scheduled false) s 0).toOption.map fun s' => (s'.thread 0).currentNode)) =
      some ([2, 1], 3, 7, 5, some (some 2)) := by decide +kernel
  obtain ⟨s, hrun, hs⟩ := Option.map_eq_some_iff.mp hend
  simp only [Prod.mk.injEq] at hs
  obtain ⟨hprios, hkey, hone, htwo, hpop⟩ := hs
  have hmem : 1 ∈ (s.thread 0).prios .moving := by
    rw [hprios]
    exact List.mem_cons_of_mem 2 List.mem_cons_self
  refine ⟨s, Steps.run hrun, fun hkeyed => ?_, fun hbest => ?_⟩
  · have h := hkeyed 0 .moving 1 hmem
    rw [hkey, hone] at h
    exact absurd h (by decide)
  · obtain ⟨s', hs', hcur⟩ := Option.map_eq_some_iff.mp hpop
    cases hr : popBest (scheduled false) s 0 with
    | error e =>
      rw [hr] at hs'
      exact absurd hs'.symm (Option.some_ne_none _)
    | ok s₁ =>
      rw [hr] at hs'
      obtain rfl := Option.some.inj hs'
      have h := (hbest 0 s₁ 2 hr hcur).2 .moving 1 hmem
      rw [hone, htwo] at h
      exact absurd h (by decide)

end Coord
end Meld
