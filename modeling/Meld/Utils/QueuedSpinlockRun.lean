import Meld.Lib.Fair
import Meld.Utils.QueuedSpinlock

/-!
# The queued spin lock is fair

What is seen of the lock are the arrivals of the threads, with the exchange of the tail, their
entries and their departures.  Every step of the lock is one that the fair lock allows, so that its
runs are histories of the fair lock: one thread at a time is in the section, and they get there in
the order of their arrival.

* `Inv.step`: one step.
* `qspinlock_fifo`: **every run is a history of the fair lock.**
* `qspinlock_accesses`: **in every state, no thread follows a null pointer, and none writes to an
  entry of another thread that is not in use any more.**
-/

namespace Meld
namespace QSpinlock

variable {E : Type*} {s s' : QSpinlock E} {q : List E} {a b e : E}

variable [DecidableEq E] {pc : QslPc E}

/-- What a step of `e` has to do. -/
def Good (s : QSpinlock E) (q : List E) (e : E) (r : List (LockEvent E) × QSpinlock E) : Prop :=
  ∃ q', Inv r.2 q' ∧
    (FifoLock.ofQueue s.phase q).after r.1 = some (FifoLock.ofQueue r.2.phase q') ∧ Moves q q' e

theorem phase_goto_self : (s.goto e pc).phase e = pc.phase := by
  rw [phase, goto_pc_self]

/-- A step that is not seen and leaves the queue. -/
theorem Inv.good (h : Inv s' q) (hphase : ∀ a, q.head? = some a → s'.phase a = s.phase a) :
    Good s q e ([], s') :=
  ⟨q, h, congrArg some (LineUp.ofQueue_congr hphase).symm, Or.inl rfl⟩

theorem Inv.good_outer (h : Inv s q) (he : ¬ (s.pc e).Queued) (he' : ¬ (s'.pc e).Queued)
    (hready : Ready s' e) (htail : s'.tail = s.tail) (hsame : ∀ a, a ≠ e → Same s s' a) :
    Good s q e ([], s') := by
  refine (h.outer he he' hready htail hsame).good fun a ha => congrArg QslPc.phase (hsame a ?_).1
  rintro rfl
  exact he ((h.mem a).1 (List.mem_of_head? ha))

/-- Both exchanges of the tail that succeed. -/
theorem Inv.good_arrive (h : Inv s q) (hout : ¬ (s.pc e).Queued) (hnext : s.next e = none)
    (hstate : s.state e = 0) :
    match s.tail with
    | none => Good s q e ([.arrive e, .enter e], { s with tail := some e }.goto e .inside)
    | some p => Good s q e ([.arrive e], { s with tail := some e }.goto e (.lockLink p)) := by
  cases htail : s.tail with
  | none =>
    have hlast : q.getLast? = none := h.tail.symm.trans htail
    refine ⟨q ++ [e], h.arrive hout hnext hstate (fun _ => rfl) fun p hp => ?_, ?_,
      Or.inr (Or.inl rfl)⟩
    · exact absurd (hp.symm.trans hlast) (Option.some_ne_none p)
    · obtain rfl : q = [] := List.getLast?_eq_none_iff.1 hlast
      exact LineUp.after_take phase_goto_self
  | some p =>
    have hlast : q.getLast? = some p := h.tail.symm.trans htail
    refine ⟨q ++ [e], h.arrive hout hnext hstate (fun hnone => ?_) fun p' hp' => ?_, ?_,
      Or.inr (Or.inl rfl)⟩
    · exact absurd (hlast.symm.trans hnone) (Option.some_ne_none p)
    · rw [Option.some.inj (hlast.symm.trans hp')]
    · have haway : s.phase e = .away := by
        by_contra hne
        exact hout (QslPc.phase_ne_away.1 hne)
      exact h.line.after_arrive haway phase_goto_self fun a ha =>
        congrArg QslPc.phase (goto_pc_of_ne ha)

/-- A step of the first thread while it leaves, that writes nothing. -/
theorem Inv.good_first (h : Inv s q) (hleaves : s.phase e = .leaves) (hleaves' : pc.phase = .leaves)
    (hok : HeadOk (s.goto e pc) e) : Good s q e ([], s.goto e pc) := by
  obtain ⟨t, rfl⟩ := h.line.first (e := e) (by simp [hleaves]) (by simp [hleaves])
  have hqueued : pc.Queued := QslPc.phase_ne_away.1 (by simp [hleaves'])
  have hready : Ready (s.goto e pc) e := ready_of_queued (by rwa [goto_pc_self])
  refine (h.first rfl hqueued hok hready).good fun a ha => ?_
  obtain rfl : e = a := Option.some.inj ha
  rw [phase_goto_self, hleaves', hleaves]

/-- **One access** succeeds and keeps the invariant, and the fair lock allows its events. -/
theorem Inv.go (h : Inv s q) (e : E) : ∃ r, s.go e = some r ∧ Good s q e r := by
  have hstay : Good s q e ([], s) := h.good fun _ _ => rfl
  have hready := h.ready e
  rw [Ready] at hready
  rw [QSpinlock.go]
  cases hpc : s.pc e with
  | outside => exact ⟨_, rfl, hstay⟩
  | inside => exact ⟨_, rfl, hstay⟩
  | lockNext | tryNext =>
    refine ⟨_, rfl, h.good_outer (hpc ▸ not_false) ?_ ?_ rfl fun a hae =>
      ⟨goto_pc_of_ne hae, setNext_of_ne hae, rfl⟩⟩
    · rw [goto_pc_self]
      exact not_false
    · rw [Ready, goto_pc_self]
      exact setNext_self
  | lockState | tryState =>
    rw [hpc] at hready
    refine ⟨_, rfl, h.good_outer (hpc ▸ not_false) ?_ ?_ rfl fun a hae =>
      ⟨goto_pc_of_ne hae, rfl, setState_of_ne hae⟩⟩
    · rw [goto_pc_self]
      exact not_false
    · rw [Ready, goto_pc_self]
      exact ⟨hready, setState_self⟩
  | lockTail =>
    rw [hpc] at hready
    have hgood := h.good_arrive (hpc ▸ not_false) hready.1 hready.2
    cases htail : s.tail <;> rw [htail] at hgood <;> exact ⟨_, rfl, hgood⟩
  | tryTail =>
    rw [hpc] at hready
    have hgood := h.good_arrive (hpc ▸ not_false) hready.1 hready.2
    cases htail : s.tail with
    | none =>
      rw [htail] at hgood
      exact ⟨_, rfl, hgood⟩
    | some p =>
      refine ⟨_, rfl, h.good_outer (hpc ▸ not_false) ?_ ?_ rfl fun a hae =>
        ⟨goto_pc_of_ne hae, rfl, rfl⟩⟩
      · rw [goto_pc_self]
        exact not_false
      · rw [Ready, goto_pc_self]
        trivial
  | lockLink p =>
    refine ⟨_, rfl, (h.linked hpc).good fun a ha => ?_⟩
    by_cases hae : a = e
    · rw [hae, phase_goto_self, phase, hpc]
      rfl
    · exact congrArg QslPc.phase (goto_pc_of_ne hae)
  | lockSpin =>
    by_cases hstate : s.state e = 0
    · exact ⟨_, if_pos hstate, hstay⟩
    · -- only the first thread finds its state changed
      obtain ⟨n, hn⟩ := List.getElem?_of_mem ((h.mem e).2 (hpc ▸ trivial))
      cases n with
      | succ n => exact absurd (h.wait n e hn).1 hstate
      | zero =>
        refine ⟨_, if_neg hstate, q, h.first hn trivial ?_ (ready_of_queued ?_), ?_, Or.inl rfl⟩
        · rw [HeadOk, goto_pc_self]
          trivial
        · rw [goto_pc_self]
          trivial
        · obtain ⟨t, rfl⟩ : ∃ t, q = e :: t :=
            List.head?_eq_some_iff.1 (List.head?_eq_getElem? ▸ hn)
          exact LineUp.after_enter (congrArg QslPc.phase hpc) phase_goto_self
  | unlockNext =>
    by_cases hnext : s.next e = none
    · refine ⟨_, if_pos hnext, h.good_first (congrArg QslPc.phase hpc) rfl ?_⟩
      rw [HeadOk, goto_pc_self]
      trivial
    · refine ⟨_, if_neg hnext, h.good_first (congrArg QslPc.phase hpc) rfl ?_⟩
      rw [HeadOk, goto_pc_self]
      exact hnext
  | unlockTail =>
    by_cases htail : s.tail = some e
    · obtain ⟨rfl, hinv⟩ := h.empty hpc htail
      have hleaves : s.phase e = .leaves := congrArg QslPc.phase hpc
      refine ⟨_, if_pos htail, [], hinv, ?_, Or.inr (Or.inr rfl)⟩
      exact congrArg some (LineUp.ofQueue_gone (t := []) hleaves fun a ha =>
        absurd ha.symm (Option.some_ne_none a)).symm
    · refine ⟨_, if_neg htail, h.good_first (congrArg QslPc.phase hpc) rfl ?_⟩
      rw [HeadOk, goto_pc_self]
      trivial
  | unlockSpin =>
    by_cases hnext : s.next e = none
    · exact ⟨_, if_pos hnext, hstay⟩
    · refine ⟨_, if_neg hnext, h.good_first (congrArg QslPc.phase hpc) rfl ?_⟩
      rw [HeadOk, goto_pc_self]
      exact hnext
  | unlockRead =>
    have hok := h.head e (h.first_of_not_waits (hpc ▸ trivial) (hpc ▸ not_false))
    rw [HeadOk, hpc] at hok
    obtain ⟨n, hn⟩ := Option.ne_none_iff_exists'.1 hok
    refine ⟨([], s.goto e (.unlockGrant n)), by rw [hn, Option.map_some],
      h.good_first (congrArg QslPc.phase hpc) rfl ?_⟩
    rw [HeadOk, goto_pc_self]
    exact hn
  | unlockGrant n =>
    obtain ⟨t, rfl, hspin, hinv⟩ := h.grant hpc
    have hne : n ≠ e := fun hne => h.nodup.notMem (hne ▸ List.mem_cons_self)
    have hleaves : s.phase e = .leaves := congrArg QslPc.phase hpc
    refine ⟨_, rfl, n :: t, hinv, congrArg some (LineUp.ofQueue_gone hleaves fun a ha => ?_).symm,
      Or.inr (Or.inr rfl)⟩
    obtain rfl : n = a := Option.some.inj ha
    rw [phase, goto_pc_of_ne hne, setState_pc, hspin]
    rfl

/-- **One step** keeps the invariant, and the fair lock allows its events. -/
theorem Inv.step (h : Inv s q) {call : QslCall E} {r : List (LockEvent E) × QSpinlock E}
    (hstep : s.step (e, call) = some r) : Good s q e r := by
  have houter : ∀ {pc}, s.pc e = .outside → ¬ pc.Queued → Ready (s.goto e pc) e →
      Good s q e ([], s.goto e pc) := fun hpc hpc' hready =>
    h.good_outer (hpc ▸ not_false) (by rwa [goto_pc_self]) hready rfl fun a hae =>
      ⟨goto_pc_of_ne hae, rfl, rfl⟩
  cases call with
  | go =>
    obtain ⟨r', hr', hgood⟩ := h.go e
    rwa [← Option.some.inj (hr'.symm.trans hstep)]
  | lock | tryLock =>
    obtain ⟨hpc, heq⟩ := Option.ite_none_right_eq_some.1 hstep
    rw [← Option.some.inj heq]
    refine houter hpc not_false ?_
    rw [Ready, goto_pc_self]
    trivial
  | unlock =>
    obtain ⟨hpc, heq⟩ := Option.ite_none_right_eq_some.1 hstep
    rw [← Option.some.inj heq]
    have he : q[0]? = some e := h.first_of_not_waits (hpc ▸ trivial) (hpc ▸ not_false)
    refine ⟨q, h.first he trivial ?_ (ready_of_queued ?_), ?_, Or.inl rfl⟩
    · rw [HeadOk, goto_pc_self]
      trivial
    · rw [goto_pc_self]
      trivial
    · obtain ⟨t, rfl⟩ : ∃ t, q = e :: t := List.head?_eq_some_iff.1 (List.head?_eq_getElem? ▸ he)
      exact LineUp.after_leave (congrArg QslPc.phase hpc) phase_goto_self
  | reuse next v =>
    obtain ⟨hpc, heq⟩ := Option.ite_none_right_eq_some.1 hstep
    rw [← Option.some.inj heq]
    refine h.good_outer (hpc ▸ not_false) (hpc ▸ not_false) ?_ rfl fun a hae =>
      ⟨rfl, setNext_of_ne hae, setState_of_ne hae⟩
    rw [Ready, setState_pc, setNext_pc, hpc]
    trivial

/-- An access changes the place of its own thread only. -/
theorem go_pc_of_ne {r : List (LockEvent E) × QSpinlock E} (hgo : s.go e = some r) (ha : a ≠ e) :
    r.2.pc a = s.pc a := by
  have hgoto : ∀ (s : QSpinlock E) pc, (s.goto e pc).pc a = s.pc a := fun s pc => goto_pc_of_ne ha
  rw [QSpinlock.go] at hgo
  split at hgo
  case h_14 => -- `unlockRead`
    obtain ⟨n, -, rfl⟩ := Option.map_eq_some_iff.1 hgo
    exact hgoto _ _
  all_goals
    try split at hgo
    all_goals cases hgo
    all_goals first | rfl | exact hgoto _ _

/-- An access writes to the entries of its own thread and of threads in the queue only. -/
theorem Inv.go_same (h : Inv s q) {r : List (LockEvent E) × QSpinlock E} (hgo : s.go e = some r)
    (ha : a ≠ e) (hout : ¬ (s.pc a).Queued) : Same s r.2 a := by
  have hkeep : r.2.next a = s.next a ∧ r.2.state a = s.state a := by
    rw [QSpinlock.go] at hgo
    cases hpc : s.pc e <;> rw [hpc] at hgo
    case lockLink p =>
      obtain ⟨n, hp, -⟩ := h.prev hpc
      have hap : a ≠ p := fun hap => hout (hap ▸ (h.mem p).1 (List.mem_of_getElem? hp))
      cases hgo
      exact ⟨setNext_of_ne hap, rfl⟩
    case unlockGrant n =>
      obtain ⟨t, -, hspin, -⟩ := h.grant hpc
      have han : a ≠ n := fun han => hout (han ▸ hspin ▸ trivial)
      cases hgo
      exact ⟨rfl, setState_of_ne han⟩
    case unlockRead =>
      obtain ⟨n, -, rfl⟩ := Option.map_eq_some_iff.1 hgo
      exact ⟨rfl, rfl⟩
    case lockNext | tryNext =>
      cases hgo
      exact ⟨setNext_of_ne ha, rfl⟩
    case lockState | tryState =>
      cases hgo
      exact ⟨rfl, setState_of_ne ha⟩
    case outside | inside =>
      cases hgo
      exact ⟨rfl, rfl⟩
    all_goals
      dsimp only at hgo
      split at hgo <;> cases hgo <;> exact ⟨rfl, rfl⟩
  exact ⟨go_pc_of_ne hgo ha, hkeep⟩

/-- What every run keeps. -/
theorem Fresh.run_inv (hfresh : s.Fresh) {calls : List (E × QslCall E)}
    {r : List (List (LockEvent E)) × QSpinlock E} (hrun : machine.run s calls = some r) :
    ∃ q, Inv r.2 q ∧
      FifoLock.free.after r.1.flatten = some (FifoLock.ofQueue r.2.phase q) := by
  have hstep : ∀ (s : QSpinlock E) (l : FifoLock E) (op : E × QslCall E)
      (r : List (LockEvent E) × QSpinlock E), (∃ q, Inv s q ∧ FifoLock.ofQueue s.phase q = l) →
      machine.step s op = some r →
      ∃ l', l.after r.1 = some l' ∧ ∃ q, Inv r.2 q ∧ FifoLock.ofQueue r.2.phase q = l' := by
    rintro s _ ⟨e, call⟩ r ⟨q, hinv, rfl⟩ hr
    obtain ⟨q', hinv', hafter, -⟩ := hinv.step hr
    exact ⟨_, hafter, q', hinv', rfl⟩
  obtain ⟨l, hl, q, hinv, rfl⟩ := Machine.run_after hstep ⟨[], hfresh.inv, rfl⟩ hrun
  exact ⟨q, hinv, hl⟩

/-- **A fair lock**: whatever the entries hold at first and however the accesses of the threads are
interleaved, the events of a run are those of a lock that is taken in the order of arrival, the
thread in the section is its holder, and the threads that wait are those that it lets wait. -/
theorem qspinlock_fifo (hfresh : s.Fresh) (calls : List (E × QslCall E))
    (r : List (List (LockEvent E)) × QSpinlock E) (hrun : machine.run s calls = some r) :
    ∃ l, FifoLock.free.after r.1.flatten = some l ∧
      ∀ ent, (r.2.pc ent = .inside ↔ l.holder = some ent) ∧
        ((r.2.pc ent).Waits ↔ ent ∈ l.waiting) := by
  obtain ⟨q, hinv, hafter⟩ := hfresh.run_inv hrun
  exact ⟨_, hafter, fun ent =>
    ⟨QslPc.phase_eq_inside.symm.trans (hinv.line.holder ent).symm,
      QslPc.phase_eq_waits.symm.trans (hinv.line.waiting ent).symm⟩⟩

/-- Two threads: the second one arrives while the first one is in the section. -/
theorem qspinlock_fifo_two :
    let s : QSpinlock Bool := ⟨none, fun _ => none, fun _ => 7, fun _ => .outside⟩
    let calls : List (Bool × QslCall Bool) :=
      [(false, .lock), (true, .lock), (false, .go), (false, .go), (false, .go), (true, .go),
        (true, .go), (true, .go)]
    ∃ r, machine.run s calls = some r ∧
      ∃ l, FifoLock.free.after r.1.flatten = some l ∧
        ∀ ent, (r.2.pc ent = .inside ↔ l.holder = some ent) ∧
          ((r.2.pc ent).Waits ↔ ent ∈ l.waiting) := by
  intro s calls
  obtain ⟨r, hr⟩ : ∃ r, machine.run s calls = some r := ⟨_, rfl⟩
  exact ⟨r, hr, qspinlock_fifo (s := s) ⟨rfl, fun _ => rfl⟩ calls r hr⟩

/-- **No stray access**: in every state of a run, the next access of every thread goes through (it
does not follow a null pointer) and leaves the entries of all other threads alone that are not in
the queue: their stack frames may be gone. -/
theorem qspinlock_accesses (hfresh : s.Fresh) (calls : List (E × QslCall E))
    (r : List (List (LockEvent E)) × QSpinlock E) (hrun : machine.run s calls = some r) (ent : E) :
    ∃ r', r.2.go ent = some r' ∧ ∀ a, a ≠ ent → ¬ (r.2.pc a).Queued →
      r'.2.next a = r.2.next a ∧ r'.2.state a = r.2.state a := by
  obtain ⟨q, hinv, -⟩ := hfresh.run_inv hrun
  obtain ⟨r', hgo, -⟩ := hinv.go ent
  exact ⟨r', hgo, fun a ha hout => (hinv.go_same hgo ha hout).2⟩

theorem qspinlock_accesses_two :
    let s : QSpinlock Bool := ⟨none, fun _ => none, fun _ => 7, fun _ => .outside⟩
    let calls : List (Bool × QslCall Bool) := [(false, .lock), (false, .go)]
    ∃ r, machine.run s calls = some r ∧
      ∃ r', r.2.go false = some r' ∧ ∀ a, a ≠ false → ¬ (r.2.pc a).Queued →
        r'.2.next a = r.2.next a ∧ r'.2.state a = r.2.state a := by
  intro s calls
  obtain ⟨r, hr⟩ : ∃ r, machine.run s calls = some r := ⟨_, rfl⟩
  exact ⟨r, hr, qspinlock_accesses (s := s) ⟨rfl, fun _ => rfl⟩ calls r hr false⟩

end QSpinlock
end Meld
