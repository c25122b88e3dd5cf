import Mathlib.Data.Nat.Bits
import Meld.Utils.QueuedSpinlockRun

/-!
# Nobody waits for ever at the queued spin lock

A waiting thread only reads its own entry, and it goes on when the thread in front of it has written
that it may.  So one write that is forgotten, or made to the wrong entry, would stop all threads
behind it.  Here the scheduler is fair, and every thread that is in the section leaves it again.

* `turn`: a step of the thread of one entry, as a relation.
* `first_leaves`: the thread of the first entry gives the lock back, by one fact for each place in
  the code that it passes.
* `waits_leadsTo`: a thread that waits gets to be the first and enters.
* `qspinlock_no_starvation`: **every call of `lock` and every call of `unlock` returns.**
-/

namespace Meld
namespace QSpinlock

variable {E : Type*} [DecidableEq E]

/-- A step of the thread of `e`. -/
def turn (e : E) (s s' : QSpinlock E) : Prop := ∃ call evs, s.step (e, call) = some (evs, s')

variable {s s' : QSpinlock E} {q : List E} {a e h : E} {k : ℕ}

/-- A thread that is in one of the functions makes its next access. -/
theorem turn.go (ht : turn e s s') {pc : QslPc E} (hpc : s.pc e = pc) (hout : pc ≠ .outside)
    (hin : pc ≠ .inside) : ∃ evs, s.go e = some (evs, s') := by
  subst hpc
  obtain ⟨call, evs, hstep⟩ := ht
  cases call with
  | go => exact ⟨evs, hstep⟩
  | unlock => exact absurd (Option.ite_none_right_eq_some.1 hstep).1 hin
  | _ => exact absurd (Option.ite_none_right_eq_some.1 hstep).1 hout

theorem turn.pc_of_ne (ht : turn e s s') (ha : a ≠ e) : s'.pc a = s.pc a := by
  obtain ⟨call, evs, hstep⟩ := ht
  cases call with
  | go => exact go_pc_of_ne (r := (evs, s')) hstep ha
  | reuse next v =>
    cases (Option.ite_none_right_eq_some.1 hstep).2
    rfl
  | _ =>
    cases (Option.ite_none_right_eq_some.1 hstep).2
    exact goto_pc_of_ne ha

/-- A thread waits until it is in the section. -/
theorem turn.waits (ht : turn a s s') (hw : (s.pc e).Waits) :
    (s'.pc e).Waits ∨ s'.pc e = .inside := by
  by_cases hea : e = a
  · subst hea
    cases hpc : s.pc e with
    | lockLink p =>
      obtain ⟨evs, hgo⟩ := ht.go hpc (by simp) (by simp)
      simp only [QSpinlock.go, hpc] at hgo
      cases hgo
      rw [goto_pc_self]
      exact Or.inl trivial
    | lockSpin =>
      obtain ⟨evs, hgo⟩ := ht.go hpc (by simp) (by simp)
      simp only [QSpinlock.go, hpc] at hgo
      by_cases hstate : s.state e = 0
      · rw [if_pos hstate] at hgo
        cases hgo
        exact Or.inl hw
      · rw [if_neg hstate] at hgo
        cases hgo
        exact Or.inr goto_pc_self
    | _ =>
      rw [hpc] at hw
      exact hw.elim
  · rw [ht.pc_of_ne hea]
    exact Or.inl hw

theorem turn.moves (ht : turn e s s') (hinv : Inv s q) : ∃ q', Inv s' q' ∧ Moves q q' e := by
  obtain ⟨call, evs, hstep⟩ := ht
  obtain ⟨q', hinv', -, hmoves⟩ := hinv.step hstep
  exact ⟨q', hinv', hmoves⟩

/-! ## The first thread -/

theorem threads : Threads (turn (E := E)) QSpinlock.pc Inv :=
  ⟨fun ht ha => ht.pc_of_ne ha, fun hinv ht => ht.moves hinv⟩

/-- The thread of the first entry, at one place of the code. -/
abbrev First (h : E) (pc : QslPc E) : QSpinlock E → Prop := FirstAt QSpinlock.pc Inv h pc

/-- A step of its own to another place. -/
theorem moved {pc pc' : QslPc E} (hfirst : First h pc s) (ht : turn h s s')
    (hpc' : s'.pc h = pc') (hqueued : pc'.Queued) : First h pc' s' := by
  obtain ⟨⟨t, hinv⟩, -⟩ := hfirst
  refine ⟨?_, hpc'⟩
  obtain ⟨q', hinv', rfl | rfl | heq⟩ := ht.moves hinv
  · exact ⟨t, hinv'⟩
  · exact ⟨t ++ [h], hinv'⟩
  · obtain ⟨-, rfl⟩ := List.cons.inj heq
    exact absurd ((hinv'.mem h).2 (hpc' ▸ hqueued)) hinv.nodup.notMem

/-- The thread of the first entry waits for the one of the second entry, which is at some place of
the code itself. -/
def Second (h b : E) (pc : QslPc E) (s : QSpinlock E) : Prop :=
  (∃ t, Inv s (h :: b :: t)) ∧ s.pc h = .unlockSpin ∧ s.pc b = pc

/-- A third thread leaves both where they are. -/
theorem Second.keep {b : E} {pc : QslPc E} (hsecond : Second h b pc s) (ht : turn a s s')
    (hah : a ≠ h) (hab : a ≠ b) : Second h b pc s' := by
  obtain ⟨⟨t, hinv⟩, hpc, hpcb⟩ := hsecond
  refine ⟨?_, (ht.pc_of_ne hah.symm).trans hpc, (ht.pc_of_ne hab.symm).trans hpcb⟩
  obtain ⟨q', hinv', rfl | rfl | heq⟩ := ht.moves hinv
  · exact ⟨t, hinv'⟩
  · exact ⟨t ++ [a], hinv'⟩
  · exact absurd (List.cons.inj heq).1.symm hah

/-- The first entry is not connected to the second one yet, so that its thread stays. -/
theorem Second.first_stays {b p : E} (hsecond : Second h b (.lockLink p) s) (ht : turn h s s') :
    s' = s := by
  obtain ⟨⟨t, hinv⟩, hpc, hpcb⟩ := hsecond
  have hlink := hinv.link 0 h b rfl rfl
  rw [Link, hpcb] at hlink
  obtain ⟨evs, hgo⟩ := ht.go hpc (by simp) (by simp)
  simp only [QSpinlock.go, hpc, if_pos hlink.2] at hgo
  cases hgo
  rfl

/-- The second thread gets connected. -/
theorem Second.linked {b p : E} (hsecond : Second h b (.lockLink p) s) (ht : turn b s s') :
    Second h b .lockSpin s' := by
  obtain ⟨⟨t, hinv⟩, hpc, hpcb⟩ := hsecond
  have hne : h ≠ b := fun hhb => hinv.nodup.notMem (hhb ▸ List.mem_cons_self)
  obtain ⟨evs, hgo⟩ := ht.go hpcb (by simp) (by simp)
  simp only [QSpinlock.go, hpcb] at hgo
  cases hgo
  exact ⟨⟨t, hinv.linked hpcb⟩, (goto_pc_of_ne hne).trans hpc, goto_pc_self⟩

/-- The second thread stays until it gets the lock. -/
theorem Second.second_stays {b : E} (hsecond : Second h b .lockSpin s) (ht : turn b s s') :
    s' = s := by
  obtain ⟨⟨t, hinv⟩, -, hpcb⟩ := hsecond
  obtain ⟨evs, hgo⟩ := ht.go hpcb (by simp) (by simp)
  simp only [QSpinlock.go, hpcb, if_pos (hinv.wait 0 b rfl).1] at hgo
  cases hgo
  rfl

/-- The first thread sees the second one. -/
theorem Second.first_goes {b : E} (hsecond : Second h b .lockSpin s) (ht : turn h s s') :
    First h .unlockRead s' := by
  obtain ⟨⟨t, hinv⟩, hpc, hpcb⟩ := hsecond
  have hlink := hinv.link 0 h b rfl rfl
  rw [Link, hpcb] at hlink
  have hfirst : First h .unlockSpin s := ⟨⟨b :: t, hinv⟩, hpc⟩
  refine moved hfirst ht ?_ trivial
  obtain ⟨evs, hgo⟩ := ht.go hpc (by simp) (by simp)
  simp only [QSpinlock.go, hpc, hlink, if_neg (Option.some_ne_none b)] at hgo
  cases hgo
  exact goto_pc_self

section Run

variable (ρ : Schedule (turn (E := E))) (hfair : ρ.Fair)

include hfair

/-- It notices that it may go on. -/
theorem lockSpin_leadsTo : LeadsTo ρ.state (First h .lockSpin) (First h .inside) := by
  refine leadsTo_of_firstAt ρ threads hfair fun s s' hfirst ht => moved hfirst ht ?_ trivial
  obtain ⟨t, hinv⟩ := hfirst.1
  have hok := hinv.head h rfl
  obtain ⟨evs, hgo⟩ := ht.go hfirst.2 (by simp) (by simp)
  rw [HeadOk, hfirst.2] at hok
  simp only [QSpinlock.go, hfirst.2, if_neg hok] at hgo
  cases hgo
  exact goto_pc_self

omit hfair in
/-- It begins to leave, as every thread that is in the section does. -/
theorem inside_leadsTo (hleave : LeadsTo ρ.state (fun s => s.pc h = .inside) fun s => s.pc h ≠ .inside) :
    LeadsTo ρ.state (First h .inside) (First h .unlockNext) := by
  refine leadsTo_of_leave ρ threads hleave fun s s' hfirst ht => ?_
  obtain ⟨call, evs, hstep⟩ := id ht
  have hpc : s.pc h = .inside := hfirst.2
  cases call with
  | go =>
    rw [QSpinlock.step, QSpinlock.go, hpc] at hstep
    cases hstep
    exact Or.inl hfirst
  | unlock =>
    refine Or.inr (moved hfirst ht ?_ trivial)
    cases (Option.ite_none_right_eq_some.1 hstep).2
    exact goto_pc_self
  | _ => exact absurd (hpc.symm.trans (Option.ite_none_right_eq_some.1 hstep).1) (by simp)

theorem unlockNext_leadsTo : LeadsTo ρ.state (First h .unlockNext)
    fun s => First h .unlockTail s ∨ First h .unlockRead s := by
  refine leadsTo_of_firstAt ρ threads hfair fun s s' hfirst ht => ?_
  obtain ⟨evs, hgo⟩ := ht.go hfirst.2 (by simp) (by simp)
  simp only [QSpinlock.go, hfirst.2] at hgo
  by_cases hnext : s.next h = none
  · rw [if_pos hnext] at hgo
    cases hgo
    exact Or.inl (moved hfirst ht goto_pc_self trivial)
  · rw [if_neg hnext] at hgo
    cases hgo
    exact Or.inr (moved hfirst ht goto_pc_self trivial)

theorem unlockTail_leadsTo : LeadsTo ρ.state (First h .unlockTail)
    fun s => (∃ b pc, Second h b pc s) ∨ s.pc h = .outside := by
  refine leadsTo_of_firstAt ρ threads hfair fun s s' hfirst ht => ?_
  obtain ⟨evs, hgo⟩ := ht.go hfirst.2 (by simp) (by simp)
  simp only [QSpinlock.go, hfirst.2] at hgo
  by_cases htail : s.tail = some h
  · rw [if_pos htail] at hgo
    cases hgo
    exact Or.inr goto_pc_self
  · rw [if_neg htail] at hgo
    cases hgo
    obtain ⟨⟨t, hinv⟩, hpc⟩ := moved hfirst ht goto_pc_self trivial
    cases t with
    | nil => exact absurd hinv.tail htail
    | cons b t => exact Or.inl ⟨b, _, ⟨t, hinv⟩, hpc, rfl⟩

/-- First the second thread makes the connection, then the first one sees it. -/
theorem second_leadsTo {b : E} {pc : QslPc E} :
    LeadsTo ρ.state (Second h b pc) (First h .unlockRead) := by
  have hspin : LeadsTo ρ.state (Second h b .lockSpin) (First h .unlockRead) := by
    refine leadsTo_of_step ρ hfair h (fun a s s' hsecond ht => ?_)
      fun s s' hsecond ht => hsecond.first_goes ht
    by_cases hah : a = h
    · exact Or.inr (hsecond.first_goes (hah ▸ ht))
    · by_cases hab : a = b
      · subst hab
        rw [hsecond.second_stays ht]
        exact Or.inl hsecond
      · exact Or.inl (hsecond.keep ht hah hab)
  have hlink : ∀ p, LeadsTo ρ.state (Second h b (.lockLink p)) (Second h b .lockSpin) := by
    refine fun p => leadsTo_of_step ρ hfair b (fun a s s' hsecond ht => ?_)
      fun s s' hsecond ht => hsecond.linked ht
    by_cases hah : a = h
    · subst hah
      rw [hsecond.first_stays ht]
      exact Or.inl hsecond
    · by_cases hab : a = b
      · exact Or.inr (hsecond.linked (hab ▸ ht))
      · exact Or.inl (hsecond.keep ht hah hab)
  intro n hsecond
  obtain ⟨t, hinv⟩ := hsecond.1
  have hwaits := (hinv.wait 0 b rfl).2
  rw [hsecond.2.2] at hwaits
  cases pc with
  | lockLink p => exact (hlink p).trans hspin n hsecond
  | lockSpin => exact hspin n hsecond
  | _ => exact hwaits.elim

theorem unlockRead_leadsTo :
    LeadsTo ρ.state (First h .unlockRead) fun s => ∃ b, First h (.unlockGrant b) s := by
  refine leadsTo_of_firstAt ρ threads hfair fun s s' hfirst ht => ?_
  obtain ⟨evs, hgo⟩ := ht.go hfirst.2 (by simp) (by simp)
  simp only [QSpinlock.go, hfirst.2] at hgo
  obtain ⟨b, -, heq⟩ := Option.map_eq_some_iff.1 hgo
  cases heq
  exact ⟨b, moved hfirst ht goto_pc_self trivial⟩

theorem unlockGrant_leadsTo (b : E) :
    LeadsTo ρ.state (First h (.unlockGrant b)) fun s => s.pc h = .outside := by
  refine leadsTo_of_firstAt ρ threads hfair fun s s' hfirst ht => ?_
  obtain ⟨evs, hgo⟩ := ht.go hfirst.2 (by simp) (by simp)
  simp only [QSpinlock.go, hfirst.2] at hgo
  cases hgo
  exact goto_pc_self

/-! From each of these places the thread gets out of `unlock`. -/

theorem unlockRead_leaves : LeadsTo ρ.state (First h .unlockRead) fun s => s.pc h = .outside :=
  (unlockRead_leadsTo ρ hfair).trans (LeadsTo.exists (unlockGrant_leadsTo ρ hfair))

theorem second_leaves :
    LeadsTo ρ.state (fun s => ∃ b pc, Second h b pc s) fun s => s.pc h = .outside :=
  LeadsTo.exists fun _ => LeadsTo.exists fun _ =>
    (second_leadsTo ρ hfair).trans (unlockRead_leaves ρ hfair)

theorem unlockTail_leaves : LeadsTo ρ.state (First h .unlockTail) fun s => s.pc h = .outside :=
  (unlockTail_leadsTo ρ hfair).trans
    ((second_leaves ρ hfair).or (LeadsTo.of_imp fun _ hout => hout))

theorem unlockNext_leaves : LeadsTo ρ.state (First h .unlockNext) fun s => s.pc h = .outside :=
  (unlockNext_leadsTo ρ hfair).trans
    ((unlockTail_leaves ρ hfair).or (unlockRead_leaves ρ hfair))

/-! ## The threads behind it -/

variable (hleave : ∀ e, LeadsTo ρ.state (fun s => s.pc e = .inside) fun s => s.pc e ≠ .inside)

include hleave

/-- The first thread gets out, wherever it is. -/
theorem behind_leaves : LeadsTo ρ.state (Behind Inv h e k) fun s => s.pc h = .outside := by
  have hinside : LeadsTo ρ.state (First h .inside) fun s => s.pc h = .outside :=
    (inside_leadsTo ρ (hleave h)).trans (unlockNext_leaves ρ hfair)
  rintro n ⟨t, hinv, he⟩
  have hok := hinv.head h rfl
  have hfirst : First h _ (ρ.state n) := ⟨⟨t, hinv⟩, rfl⟩
  rw [HeadOk] at hok
  cases hpc : (ρ.state n).pc h <;> rw [hpc] at hok hfirst
  case lockSpin => exact (lockSpin_leadsTo ρ hfair).trans hinside n hfirst
  case inside => exact hinside n hfirst
  case unlockNext => exact unlockNext_leaves ρ hfair n hfirst
  case unlockTail => exact unlockTail_leaves ρ hfair n hfirst
  case unlockSpin =>
    -- somebody is behind it, so that there is a second entry
    cases t with
    | nil => exact absurd he.symm (Option.some_ne_none e)
    | cons b t => exact second_leaves ρ hfair n ⟨b, _, ⟨t, hinv⟩, hpc, rfl⟩
  case unlockRead => exact unlockRead_leaves ρ hfair n hfirst
  case unlockGrant b => exact unlockGrant_leadsTo ρ hfair b n hfirst
  all_goals exact hok.elim

/-- **A thread that waits enters.** -/
theorem waits_leadsTo (hinv : ∀ n, ∃ q, Inv (ρ.state n) q) :
    LeadsTo ρ.state (fun s => (s.pc e).Waits) fun s => s.pc e = .inside := by
  have hfirst : LeadsTo ρ.state (fun s => ∃ t, Inv s (e :: t) ∧ (s.pc e).Waits)
      fun s => s.pc e = .inside := by
    rintro n ⟨t, hinv, hwaits⟩
    have hok := hinv.head e rfl
    rw [HeadOk] at hok
    cases hpc : (ρ.state n).pc e <;> rw [hpc] at hok hwaits
    case lockSpin =>
      obtain ⟨m, hnm, hm⟩ := lockSpin_leadsTo ρ hfair n ⟨⟨t, hinv⟩, hpc⟩
      exact ⟨m, hnm, hm.2⟩
    all_goals first | exact hok.elim | exact hwaits.elim
  intro n hwaits
  obtain ⟨q, hq⟩ := hinv n
  obtain ⟨k, hk⟩ := List.getElem?_of_mem ((hq.mem e).2 hwaits.queued)
  have hout : ∀ h k, LeadsTo ρ.state (Behind Inv h e k) fun s => ∀ t, ¬ Inv s (h :: t) :=
    fun h k => (behind_leaves ρ hfair hleave).mono (fun _ hb => hb) fun s hpc t hinv => by
      have hqueued := (hinv.mem h).1 List.mem_cons_self
      rw [hpc] at hqueued
      exact hqueued
  obtain ⟨m, hnm, t, ht⟩ := at_leadsTo ρ threads.moves hout k n ⟨q, hq, hk⟩
  obtain ⟨d, rfl⟩ := Nat.exists_eq_add_of_le hnm
  -- it waits until it is in the section
  rcases ρ.until (P := fun s => (s.pc e).Waits) (fun _ _ _ hw ht => ht.waits hw) hwaits d with
    hw | hin
  · obtain ⟨m, hm, hin⟩ := hfirst (n + d) ⟨t, ht, hw⟩
    exact ⟨m, Nat.le_trans hnm hm, hin⟩
  · exact hin

end Run

/-- The invariant at every moment of a run. -/
theorem run_inv (ρ : Schedule (turn (E := E))) (hfresh : (ρ.state 0).Fresh) (n : ℕ) :
    ∃ q, Inv (ρ.state n) q := by
  refine ρ.always (P := fun s => ∃ q, Inv s q) ?_ ⟨[], hfresh.inv⟩ n
  rintro a s s' ⟨q, hinv⟩ ht
  obtain ⟨q', hinv', -⟩ := ht.moves hinv
  exact ⟨q', hinv'⟩

/-- **No starvation**: if every thread gets its turn again and again, and no thread stays in the
section for ever, then every call of `lock` gets into the section, every call of `unlock` returns,
and so does every call of `try_lock`, with or without the lock. -/
theorem qspinlock_no_starvation (ρ : Schedule (turn (E := E))) (hfresh : (ρ.state 0).Fresh)
    (hfair : ρ.Fair)
    (hleave : ∀ e, LeadsTo ρ.state (fun s => s.pc e = .inside) fun s => s.pc e ≠ .inside) (e : E) :
    LeadsTo ρ.state (fun s => s.pc e = .lockNext) (fun s => s.pc e = .inside) ∧
      LeadsTo ρ.state (fun s => s.pc e = .unlockNext) (fun s => s.pc e = .outside) ∧
      LeadsTo ρ.state (fun s => s.pc e = .tryNext)
        fun s => s.pc e = .inside ∨ s.pc e = .outside := by
  have hwaiting := waits_leadsTo (e := e) ρ hfair hleave (run_inv ρ hfresh)
  refine ⟨?_, ?_, ?_⟩
  · have htail : LeadsTo ρ.state (fun s => s.pc e = .lockTail)
        fun s => (s.pc e).Waits ∨ s.pc e = .inside := by
      refine leadsTo_of_pc ρ threads hfair fun s s' hpc ht => ?_
      obtain ⟨evs, hgo⟩ := ht.go hpc (by simp) (by simp)
      simp only [QSpinlock.go, hpc] at hgo
      cases htail : s.tail <;> rw [htail] at hgo <;> cases hgo
      · exact Or.inr goto_pc_self
      · rw [goto_pc_self]
        exact Or.inl trivial
    have hstate : LeadsTo ρ.state (fun s => s.pc e = .lockState) fun s => s.pc e = .lockTail := by
      refine leadsTo_of_pc ρ threads hfair fun s s' hpc ht => ?_
      obtain ⟨evs, hgo⟩ := ht.go hpc (by simp) (by simp)
      simp only [QSpinlock.go, hpc] at hgo
      cases hgo
      exact goto_pc_self
    have hnext : LeadsTo ρ.state (fun s => s.pc e = .lockNext) fun s => s.pc e = .lockState := by
      refine leadsTo_of_pc ρ threads hfair fun s s' hpc ht => ?_
      obtain ⟨evs, hgo⟩ := ht.go hpc (by simp) (by simp)
      simp only [QSpinlock.go, hpc] at hgo
      cases hgo
      exact goto_pc_self
    exact ((hnext.trans hstate).trans htail).trans (hwaiting.or (LeadsTo.of_imp fun _ hin => hin))
  · intro n hpc
    obtain ⟨q, hinv⟩ := run_inv ρ hfresh n
    have he : q[0]? = some e := hinv.first_of_not_waits (hpc ▸ trivial) (hpc ▸ not_false)
    obtain ⟨t, rfl⟩ : ∃ t, q = e :: t := List.head?_eq_some_iff.1 (List.head?_eq_getElem? ▸ he)
    exact unlockNext_leaves ρ hfair n ⟨⟨t, hinv⟩, hpc⟩
  · have htail : LeadsTo ρ.state (fun s => s.pc e = .tryTail)
        fun s => s.pc e = .inside ∨ s.pc e = .outside := by
      refine leadsTo_of_pc ρ threads hfair fun s s' hpc ht => ?_
      obtain ⟨evs, hgo⟩ := ht.go hpc (by simp) (by simp)
      simp only [QSpinlock.go, hpc] at hgo
      cases htail : s.tail <;> rw [htail] at hgo <;> cases hgo
      · exact Or.inl goto_pc_self
      · exact Or.inr goto_pc_self
    have hstate : LeadsTo ρ.state (fun s => s.pc e = .tryState) fun s => s.pc e = .tryTail := by
      refine leadsTo_of_pc ρ threads hfair fun s s' hpc ht => ?_
      obtain ⟨evs, hgo⟩ := ht.go hpc (by simp) (by simp)
      simp only [QSpinlock.go, hpc] at hgo
      cases hgo
      exact goto_pc_self
    have hnext : LeadsTo ρ.state (fun s => s.pc e = .tryNext) fun s => s.pc e = .tryState := by
      refine leadsTo_of_pc ρ threads hfair fun s s' hpc ht => ?_
      obtain ⟨evs, hgo⟩ := ht.go hpc (by simp) (by simp)
      simp only [QSpinlock.go, hpc] at hgo
      cases hgo
      exact goto_pc_self
    exact (hnext.trans hstate).trans htail

/-- A thread that takes the lock whenever it can and leaves at once. -/
def eager (e : E) (s : QSpinlock E) : QSpinlock E :=
  match s.pc e with
  | .outside => s.goto e .lockNext
  | .inside => s.goto e .unlockNext
  | _ => ((s.go e).map Prod.snd).getD s

theorem Inv.eager (hinv : Inv s q) (e : E) : turn e s (eager e s) := by
  rw [QSpinlock.eager]
  cases hpc : s.pc e
  case outside => exact ⟨.lock, [], if_pos hpc⟩
  case inside => exact ⟨.unlock, [.leave e], if_pos hpc⟩
  all_goals
    obtain ⟨r, hr, -⟩ := hinv.go e
    exact ⟨.go, r.1, hr.trans (by rw [hr]; rfl)⟩

/-- Such threads in a given order of turns. -/
def eagerState (party : ℕ → E) : ℕ → QSpinlock E
  | 0 => ⟨none, fun _ => none, fun _ => 0, fun _ => .outside⟩
  | n + 1 => eager (party n) (eagerState party n)

theorem eagerState_inv (party : ℕ → E) (n : ℕ) : ∃ q, Inv (eagerState party n) q := by
  induction n with
  | zero => exact ⟨[], Fresh.inv ⟨rfl, fun _ => rfl⟩⟩
  | succ n ih =>
    obtain ⟨q, hinv⟩ := ih
    obtain ⟨q', hinv', -⟩ := (hinv.eager (party n)).moves hinv
    exact ⟨q', hinv'⟩

/-- Two such threads in turn. -/
theorem qspinlock_no_starvation_two :
    ∃ ρ : Schedule (turn (E := Bool)), ρ.state = eagerState Nat.bodd ∧
      ∀ e, LeadsTo ρ.state (fun s => s.pc e = .lockNext) (fun s => s.pc e = .inside) ∧
        LeadsTo ρ.state (fun s => s.pc e = .unlockNext) (fun s => s.pc e = .outside) ∧
        LeadsTo ρ.state (fun s => s.pc e = .tryNext)
          fun s => s.pc e = .inside ∨ s.pc e = .outside := by
  have hturn : ∀ n, turn n.bodd (eagerState Nat.bodd n) (eagerState Nat.bodd (n + 1)) := by
    intro n
    obtain ⟨q, hinv⟩ := eagerState_inv Nat.bodd n
    exact hinv.eager n.bodd
  have hfair : ∀ (e : Bool) (n : ℕ), ∃ m, n ≤ m ∧ m.bodd = e := by
    intro e n
    by_cases he : n.bodd = e
    · exact ⟨n, Nat.le_refl n, he⟩
    · exact ⟨n + 1, Nat.le_succ n, by rw [Nat.bodd_succ]; exact Bool.not_eq.2 he⟩
  let ρ : Schedule (turn (E := Bool)) := ⟨eagerState Nat.bodd, Nat.bodd, hturn⟩
  let ρ' : Schedule fun e (s s' : QSpinlock Bool) => turn e s s' ∧ s' = eager e s :=
    ⟨eagerState Nat.bodd, Nat.bodd, fun n => ⟨hturn n, rfl⟩⟩
  refine ⟨ρ, rfl, qspinlock_no_starvation ρ ⟨rfl, fun _ => rfl⟩ hfair fun e => ?_⟩
  have hhelp : ∀ s s' : QSpinlock Bool, s.pc e = .inside → turn e s s' ∧ s' = eager e s →
      s'.pc e ≠ .inside := by
    rintro s _ hpc ⟨-, rfl⟩
    rw [eager, hpc]
    simp
  refine leadsTo_of_step ρ' hfair e (fun a s s' hpc ht => ?_) hhelp
  by_cases hae : a = e
  · exact Or.inr (hhelp s s' hpc (hae ▸ ht))
  · exact Or.inl ((ht.1.pc_of_ne fun hea => hae hea.symm).trans hpc)

end QSpinlock
end Meld
