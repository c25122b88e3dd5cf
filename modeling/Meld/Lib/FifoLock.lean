import Mathlib.Data.List.Basic
import Meld.Lib.Agree

/-!
# What a fair lock does

A lock seen from outside: parties arrive, enter one at a time and leave.  A fair lock lets them enter
in the order in which they have arrived.  A lock of a program is right if the events of every one of
its runs are possible for this lock, and `Machine.run_after` is the induction for that.

* `LockEvent`, `FifoLock.next`, `FifoLock.after`: the lock and the histories that it allows.
* `FifoLock.ofQueue`, `LineUp`: the fair lock behind a queue of threads, and what its changes are.
* `Machine.run_after`: a machine whose steps give events that the lock allows.
-/

namespace Meld

variable {ι : Type*}

/-- What is seen of a lock. -/
inductive LockEvent (ι : Type*) where
  | arrive (i : ι)
  | enter (i : ι)
  | leave (i : ι)
  deriving DecidableEq

/-- A lock that is taken in the order of arrival. -/
structure FifoLock (ι : Type*) where
  holder : Option ι
  waiting : List ι

namespace FifoLock

/-- Nobody is there. -/
def free : FifoLock ι := ⟨none, []⟩

variable [DecidableEq ι]

/-- One event, if it is possible: a party arrives if it is not there yet, the first one that waits
enters if the lock is free, and the holder leaves. -/
def next (l : FifoLock ι) : LockEvent ι → Option (FifoLock ι)
  | .arrive i =>
    if l.holder = some i ∨ i ∈ l.waiting then none
    else some { l with waiting := l.waiting ++ [i] }
  | .enter i =>
    if l.holder = none ∧ l.waiting.head? = some i then some ⟨some i, l.waiting.tail⟩ else none
  | .leave i => if l.holder = some i then some { l with holder := none } else none

/-- The lock after a history, if all of its events are possible. -/
def after (l : FifoLock ι) (h : List (LockEvent ι)) : Option (FifoLock ι) := h.foldlM next l

variable {l l' : FifoLock ι} {e : LockEvent ι} {i : ι} {h : List (LockEvent ι)}

@[simp] theorem after_nil : l.after [] = some l := rfl

@[simp] theorem after_cons : l.after (e :: h) = (l.next e).bind fun k => k.after h := rfl

theorem after_append {h' : List (LockEvent ι)} :
    l.after (h ++ h') = (l.after h).bind fun k => k.after h' :=
  List.foldlM_append

theorem next_arrive (hholder : l.holder ≠ some i) (hwaiting : i ∉ l.waiting) :
    l.next (.arrive i) = some { l with waiting := l.waiting ++ [i] } :=
  if_neg (not_or.2 ⟨hholder, hwaiting⟩)

theorem next_enter (hholder : l.holder = none) (hhead : l.waiting.head? = some i) :
    l.next (.enter i) = some ⟨some i, l.waiting.tail⟩ :=
  if_pos ⟨hholder, hhead⟩

theorem next_leave (hholder : l.holder = some i) :
    l.next (.leave i) = some { l with holder := none } :=
  if_pos hholder

end FifoLock

/-! ## A lock with a queue

A lock of a program has its threads in a queue, and the one in front of it can be in three places: it
may not have noticed yet that it has the lock, it is in the section, or it gives the lock to the next
one. -/

/-- Where a party is, as far as the lock is concerned. -/
inductive LockPhase where
  | away
  | waits
  | inside
  | leaves
  deriving DecidableEq

/-- The fair lock that is seen from outside. -/
def FifoLock.ofQueue (phase : ι → LockPhase) : List ι → FifoLock ι
  | [] => .free
  | a :: t =>
    match phase a with
    | .waits => ⟨none, a :: t⟩
    | .inside => ⟨some a, t⟩
    | _ => ⟨none, t⟩

/-- The parties that are not away are in the queue, and all of them but the first one wait. -/
structure LineUp (phase : ι → LockPhase) (q : List ι) : Prop where
  nodup : q.Nodup
  mem : ∀ a, a ∈ q ↔ phase a ≠ .away
  tail : ∀ a, a ∈ q.tail → phase a = .waits

namespace LineUp

open FifoLock

variable {phase phase' : ι → LockPhase} {q t : List ι} {a e : ι}

/-- A party that does not wait is the first one. -/
theorem first (h : LineUp phase q) (haway : phase e ≠ .away) (hwaits : phase e ≠ .waits) :
    ∃ t, q = e :: t := by
  cases q with
  | nil => exact absurd ((h.mem e).2 haway) List.not_mem_nil
  | cons c t =>
    rcases List.mem_cons.1 ((h.mem e).2 haway) with rfl | he
    · exact ⟨t, rfl⟩
    · exact absurd (h.tail e he) hwaits

/-- The holder is the party in the section. -/
theorem holder (h : LineUp phase q) (a : ι) :
    (ofQueue phase q).holder = some a ↔ phase a = .inside := by
  have hfirst : phase a = .inside → ∃ t, q = a :: t := fun hin =>
    h.first (by rw [hin]; exact LockPhase.noConfusion) (by rw [hin]; exact LockPhase.noConfusion)
  cases q with
  | nil =>
    refine iff_of_false (Option.some_ne_none a).symm fun hin => ?_
    obtain ⟨t, ht⟩ := hfirst hin
    exact absurd ht.symm (List.cons_ne_nil a t)
  | cons c t =>
    have hc : phase a = .inside → c = a := fun hin => by
      obtain ⟨t', ht⟩ := hfirst hin
      exact (List.cons.inj ht).1
    rw [ofQueue]
    cases hphase : phase c
    case inside =>
      refine ⟨fun heq => ?_, fun hin => congrArg some (hc hin)⟩
      rw [← Option.some.inj heq, hphase]
    all_goals
      refine iff_of_false (Option.some_ne_none a).symm fun hin => ?_
      rw [hc hin, hin] at hphase
      exact LockPhase.noConfusion hphase

/-- Those that wait for the fair lock wait. -/
theorem waiting (h : LineUp phase q) (a : ι) :
    a ∈ (ofQueue phase q).waiting ↔ phase a = .waits := by
  have hmem : phase a = .waits → a ∈ q := fun hw =>
    (h.mem a).2 (by rw [hw]; exact LockPhase.noConfusion)
  cases q with
  | nil => exact iff_of_false List.not_mem_nil fun hw => List.not_mem_nil (hmem hw)
  | cons c t =>
    have hin : phase a = .waits → phase c ≠ .waits → a ∈ t := fun hw hne =>
      (List.mem_cons.1 (hmem hw)).resolve_left fun hac => hne (hac ▸ hw)
    rw [ofQueue]
    cases hphase : phase c
    case waits =>
      refine ⟨fun ha => ?_, hmem⟩
      rcases List.mem_cons.1 ha with rfl | ha
      · exact hphase
      · exact h.tail a ha
    all_goals
      exact ⟨h.tail a, fun hw => hin hw (by rw [hphase]; exact LockPhase.noConfusion)⟩

/-- Only the place of the first party matters. -/
theorem ofQueue_congr (h : ∀ a, q.head? = some a → phase' a = phase a) :
    ofQueue phase' q = ofQueue phase q := by
  cases q with
  | nil => rfl
  | cons a t => rw [ofQueue, ofQueue, h a rfl]

/-- The party in front goes away, and the next one does not know it yet. -/
theorem ofQueue_gone (he : phase e = .leaves) (ht : ∀ a, t.head? = some a → phase' a = .waits) :
    ofQueue phase' t = ofQueue phase (e :: t) := by
  cases t with
  | nil => rw [ofQueue, ofQueue, he]; rfl
  | cons a t => rw [ofQueue, ofQueue, he, ht a rfl]

variable [DecidableEq ι]

theorem after_arrive (h : LineUp phase q) (he : phase e = .away) (he' : phase' e = .waits)
    (hsame : ∀ a, a ≠ e → phase' a = phase a) :
    (ofQueue phase q).after [.arrive e] = some (ofQueue phase' (q ++ [e])) := by
  have hholder : (ofQueue phase q).holder ≠ some e := fun heq => by
    rw [h.holder e, he] at heq
    exact LockPhase.noConfusion heq
  have hwaiting : e ∉ (ofQueue phase q).waiting := fun hw => by
    rw [h.waiting e, he] at hw
    exact LockPhase.noConfusion hw
  rw [after_cons, next_arrive hholder hwaiting, Option.bind_some, after_nil]
  cases q with
  | nil => rw [List.nil_append, ofQueue, ofQueue, he']; rfl
  | cons a t =>
    have hae : a ≠ e := fun hae => (h.mem a).1 List.mem_cons_self (hae ▸ he)
    rw [List.cons_append, ofQueue, ofQueue, hsame a hae]
    cases phase a <;> rfl

theorem after_enter (he : phase e = .waits) (he' : phase' e = .inside) :
    (ofQueue phase (e :: t)).after [.enter e] = some (ofQueue phase' (e :: t)) := by
  rw [ofQueue, he, ofQueue, he', after_cons, next_enter rfl rfl]
  rfl

/-- A party that arrives when nobody is there may enter at once. -/
theorem after_take (he' : phase' e = .inside) :
    (ofQueue phase []).after [.arrive e, .enter e] = some (ofQueue phase' [e]) := by
  have hnext : (free : FifoLock ι).next (.arrive e) = some ⟨none, [e]⟩ :=
    next_arrive (Option.some_ne_none e).symm List.not_mem_nil
  rw [ofQueue, after_cons, hnext, Option.bind_some, ofQueue, he', after_cons, next_enter rfl rfl]
  rfl

theorem after_leave (he : phase e = .inside) (he' : phase' e = .leaves) :
    (ofQueue phase (e :: t)).after [.leave e] = some (ofQueue phase' (e :: t)) := by
  rw [ofQueue, he, ofQueue, he', after_cons, next_leave rfl]
  rfl

end LineUp

namespace Machine

variable {Op σ : Type*} [DecidableEq ι] {M : Machine Op (List (LockEvent ι)) σ}
  {R : σ → FifoLock ι → Prop}

/-- **A lock of a program**: if the events of every step are possible for the fair lock that
corresponds to the state, the events of a run are. -/
theorem run_after
    (hstep : ∀ s l op r, R s l → M.step s op = some r → ∃ l', l.after r.1 = some l' ∧ R r.2 l')
    {s : σ} {l : FifoLock ι} (hR : R s l) {ops : List Op} {q : List (List (LockEvent ι)) × σ}
    (hrun : M.run s ops = some q) : ∃ l', l.after q.1.flatten = some l' ∧ R q.2 l' := by
  induction ops generalizing s l q with
  | nil =>
    cases hrun
    exact ⟨l, rfl, hR⟩
  | cons op ops ih =>
    obtain ⟨r, hr, hrest⟩ := Option.bind_eq_some_iff.1 hrun
    obtain ⟨q', hq', rfl⟩ := Option.map_eq_some_iff.1 hrest
    obtain ⟨k, hk, hRk⟩ := hstep s l op r hR hr
    obtain ⟨l', hl', hR'⟩ := ih hRk hq'
    refine ⟨l', ?_, hR'⟩
    rw [List.flatten_cons, FifoLock.after_append, hk, Option.bind_some, hl']

end Machine

end Meld
