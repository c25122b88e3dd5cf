import Mathlib.Data.List.Nodup
import Meld.Lib.FifoLock

/-!
# The queued spin lock

The lock behind every mutex of the machine, unless another one is chosen when it is built.  A thread
that wants the lock brings an entry, on its stack, and puts it at the end of a queue whose last entry
the lock points to.  It then waits until its own entry says that it may go on, and only the thread in
front of it writes that.  Here each access to memory that other threads see is a step of its own, the
steps of any number of entries are interleaved in any order, and memory is sequentially consistent.

* `QSpinlock`, `QslPc`: the memory, and where in the code the thread of an entry is.
* `go`: the next access of a thread.  It fails if the thread follows a null pointer.
* `step`: the steps of the system.  An entry that is not in use is stack memory, which other
  functions write to.
* `Inv`: the invariant, over the queue that only exists in the entries.
* `Inv.arrive`, `Inv.linked`, `Inv.empty`, `Inv.grant`: what each access to a shared place does to
  the queue.
-/

namespace Meld

/-- Where the thread of an entry is: the access that it makes next. -/
inductive QslPc (E : Type*) where
  | outside
  /-- `lock`: `ent->next = nullptr`, `ent->state = 0`, the exchange of the tail, `stail->next = ent`
  and `while(!ent->state)`. -/
  | lockNext
  | lockState
  | lockTail
  | lockLink (stail : E)
  | lockSpin
  /-- `try_lock`: the same two writes and the compare and exchange. -/
  | tryNext
  | tryState
  | tryTail
  | inside
  /-- `unlock`: `if(!ent->next)`, the compare and exchange, `while(!ent->next)`, and the read and the
  write of `ent->next->state = 1`. -/
  | unlockNext
  | unlockTail
  | unlockSpin
  | unlockRead
  | unlockGrant (next : E)
  deriving DecidableEq

namespace QslPc

variable {E : Type*}

/-- The thread has put its entry into the queue and does not have the lock. -/
def Waits : QslPc E → Prop
  | .lockLink _ | .lockSpin => True
  | _ => False

/-- The entry is in the queue. -/
def Queued : QslPc E → Prop
  | .outside | .lockNext | .lockState | .lockTail | .tryNext | .tryState | .tryTail => False
  | _ => True

/-- What the lock knows of the thread. -/
def phase : QslPc E → LockPhase
  | .outside | .lockNext | .lockState | .lockTail | .tryNext | .tryState | .tryTail => .away
  | .lockLink _ | .lockSpin => .waits
  | .inside => .inside
  | .unlockNext | .unlockTail | .unlockSpin | .unlockRead | .unlockGrant _ => .leaves

theorem phase_eq_waits {pc : QslPc E} : pc.phase = .waits ↔ pc.Waits := by
  cases pc <;> simp [phase, Waits]

theorem phase_ne_away {pc : QslPc E} : pc.phase ≠ .away ↔ pc.Queued := by
  cases pc <;> simp [phase, Queued]

theorem phase_eq_inside {pc : QslPc E} : pc.phase = .inside ↔ pc = .inside := by
  cases pc <;> simp [phase]

theorem Waits.queued {pc : QslPc E} (h : pc.Waits) : pc.Queued := by
  cases pc <;> first | exact h.elim | trivial

end QslPc

/-- The memory of a `qspinlock` and of the entries `E`. -/
structure QSpinlock (E : Type*) where
  tail : Option E
  next : E → Option E
  state : E → ℕ
  pc : E → QslPc E

/-- What the thread of an entry does. -/
inductive QslCall (E : Type*) where
  /-- The next access of the code that it is in. -/
  | go
  | lock
  | tryLock
  | unlock
  /-- The memory of an entry that is not in use is written to. -/
  | reuse (next : Option E) (state : ℕ)

namespace QSpinlock

variable {E : Type*}

section Accesses

variable [DecidableEq E]

/-- The thread of `ent` gets to `pc`. -/
def goto (s : QSpinlock E) (ent : E) (pc : QslPc E) : QSpinlock E :=
  { s with pc := Function.update s.pc ent pc }

def setNext (s : QSpinlock E) (ent : E) (next : Option E) : QSpinlock E :=
  { s with next := Function.update s.next ent next }

def setState (s : QSpinlock E) (ent : E) (state : ℕ) : QSpinlock E :=
  { s with state := Function.update s.state ent state }

/-- The next access of the thread of `ent`. -/
def go (s : QSpinlock E) (ent : E) : Option (List (LockEvent E) × QSpinlock E) :=
  match s.pc ent with
  | .outside | .inside => some ([], s)
  | .lockNext => some ([], (s.setNext ent none).goto ent .lockState)
  | .lockState => some ([], (s.setState ent 0).goto ent .lockTail)
  | .lockTail =>
    match s.tail with
    | none => some ([.arrive ent, .enter ent], { s with tail := some ent }.goto ent .inside)
    | some stail => some ([.arrive ent], { s with tail := some ent }.goto ent (.lockLink stail))
  | .lockLink stail => some ([], (s.setNext stail (some ent)).goto ent .lockSpin)
  | .lockSpin => if s.state ent = 0 then some ([], s) else some ([.enter ent], s.goto ent .inside)
  | .tryNext => some ([], (s.setNext ent none).goto ent .tryState)
  | .tryState => some ([], (s.setState ent 0).goto ent .tryTail)
  | .tryTail =>
    match s.tail with
    | none => some ([.arrive ent, .enter ent], { s with tail := some ent }.goto ent .inside)
    | some _ => some ([], s.goto ent .outside)
  | .unlockNext =>
    if s.next ent = none then some ([], s.goto ent .unlockTail)
    else some ([], s.goto ent .unlockRead)
  | .unlockTail =>
    if s.tail = some ent then some ([], { s with tail := none }.goto ent .outside)
    else some ([], s.goto ent .unlockSpin)
  | .unlockSpin =>
    if s.next ent = none then some ([], s) else some ([], s.goto ent .unlockRead)
  | .unlockRead => (s.next ent).map fun next => ([], s.goto ent (.unlockGrant next))
  | .unlockGrant next => some ([], (s.setState next 1).goto ent .outside)

/-- One step of the thread of an entry. -/
def step (s : QSpinlock E) : E × QslCall E → Option (List (LockEvent E) × QSpinlock E)
  | (ent, .go) => s.go ent
  | (ent, .lock) => if s.pc ent = .outside then some ([], s.goto ent .lockNext) else none
  | (ent, .tryLock) => if s.pc ent = .outside then some ([], s.goto ent .tryNext) else none
  | (ent, .unlock) =>
    if s.pc ent = .inside then some ([.leave ent], s.goto ent .unlockNext) else none
  | (ent, .reuse next state) =>
    if s.pc ent = .outside then some ([], (s.setNext ent next).setState ent state) else none

/-- The lock and the threads that use it. -/
def machine : Machine (E × QslCall E) (List (LockEvent E)) (QSpinlock E) := ⟨step⟩

end Accesses

/-- A lock after its constructor: no thread uses it, and what is in the entries is arbitrary. -/
def Fresh (s : QSpinlock E) : Prop := s.tail = none ∧ ∀ ent, s.pc ent = .outside

/-! ## The queue -/

/-- What connects two entries of which the second one is next in the queue. -/
def Link (s : QSpinlock E) (a b : E) : Prop :=
  match s.pc b with
  | .lockLink stail => stail = a ∧ s.next a = none
  | _ => s.next a = some b

/-- What the thread of the first entry may rely on. -/
def HeadOk (s : QSpinlock E) (a : E) : Prop :=
  match s.pc a with
  | .lockSpin => s.state a ≠ 0
  | .unlockRead => s.next a ≠ none
  | .unlockGrant next => s.next a = some next
  | .inside | .unlockNext | .unlockTail | .unlockSpin => True
  | _ => False

/-- What a thread has written to its entry before it is in the queue. -/
def Ready (s : QSpinlock E) (a : E) : Prop :=
  match s.pc a with
  | .lockState | .tryState => s.next a = none
  | .lockTail | .tryTail => s.next a = none ∧ s.state a = 0
  | _ => True

/-- **The invariant**: `q` is the queue. -/
structure Inv (s : QSpinlock E) (q : List E) : Prop where
  nodup : q.Nodup
  mem : ∀ a, a ∈ q ↔ (s.pc a).Queued
  ready : ∀ a, Ready s a
  tail : s.tail = q.getLast?
  link : ∀ n a b, q[n]? = some a → q[n + 1]? = some b → Link s a b
  last : ∀ a, q.getLast? = some a → s.next a = none
  head : ∀ a, q[0]? = some a → HeadOk s a
  wait : ∀ n a, q[n + 1]? = some a → s.state a = 0 ∧ (s.pc a).Waits

/-- What the lock knows of the threads. -/
def phase (s : QSpinlock E) (a : E) : LockPhase := (s.pc a).phase

variable {s s' : QSpinlock E} {q : List E} {a b e : E}

theorem Fresh.inv (h : s.Fresh) : Inv s [] := by
  refine ⟨List.nodup_nil, fun a => ?_, fun a => ?_, h.1, fun n a b ha => ?_, fun a ha => ?_,
    fun a ha => ?_, fun n a ha => ?_⟩
  · rw [h.2 a]
    exact iff_of_false List.not_mem_nil not_false
  · rw [Ready, h.2 a]
    trivial
  all_goals simp at ha

/-! ## One step -/

/-- What is read of an entry. -/
def Same (s s' : QSpinlock E) (a : E) : Prop :=
  s'.pc a = s.pc a ∧ s'.next a = s.next a ∧ s'.state a = s.state a

theorem Same.link (ha : Same s s' a) (hb : Same s s' b) : Link s' a b ↔ Link s a b := by
  rw [Link, Link, ha.2.1, hb.1]

theorem Same.headOk (ha : Same s s' a) : HeadOk s' a ↔ HeadOk s a := by
  rw [HeadOk, HeadOk, ha.1, ha.2.1, ha.2.2]

theorem Same.ready (ha : Same s s' a) : Ready s' a ↔ Ready s a := by
  rw [Ready, Ready, ha.1, ha.2.1, ha.2.2]

/-- The queue as one of threads. -/
theorem Inv.line (h : Inv s q) : LineUp s.phase q := by
  refine ⟨h.nodup, fun a => (h.mem a).trans QslPc.phase_ne_away.symm, fun a ha => ?_⟩
  obtain ⟨n, hn⟩ := List.getElem?_of_mem ha
  rw [List.getElem?_tail] at hn
  exact QslPc.phase_eq_waits.2 (h.wait n a hn).2

/-- A step of a thread whose entry is not in the queue, neither before nor after it. -/
theorem Inv.outer (h : Inv s q) (he : ¬ (s.pc e).Queued) (he' : ¬ (s'.pc e).Queued)
    (hready : Ready s' e) (htail : s'.tail = s.tail) (hsame : ∀ a, a ≠ e → Same s s' a) :
    Inv s' q := by
  have hq : ∀ a, a ∈ q → Same s s' a := fun a ha =>
    hsame a fun hae => he (hae ▸ (h.mem a).1 ha)
  refine ⟨h.nodup, fun a => ?_, fun a => ?_, htail.trans h.tail, fun n a b ha hb => ?_,
    fun a ha => ?_, fun a ha => ?_, fun n a ha => ?_⟩
  · by_cases hae : a = e
    · rw [hae]
      exact iff_of_false (fun hmem => he ((h.mem e).1 hmem)) he'
    · rw [(hsame a hae).1]
      exact h.mem a
  · by_cases hae : a = e
    · rw [hae]
      exact hready
    · exact (hsame a hae).ready.2 (h.ready a)
  · exact ((hq a (List.mem_of_getElem? ha)).link (hq b (List.mem_of_getElem? hb))).2
      (h.link n a b ha hb)
  · rw [(hq a (List.mem_of_getLast? ha)).2.1]
    exact h.last a ha
  · exact (hq a (List.mem_of_getElem? ha)).headOk.2 (h.head a ha)
  · rw [(hq a (List.mem_of_getElem? ha)).1, (hq a (List.mem_of_getElem? ha)).2.2]
    exact h.wait n a ha

/-- No other place of the queue has the same entry. -/
theorem Inv.eq_of_getElem? (h : Inv s q) {n m : ℕ} (hn : q[n]? = some a) (hm : q[m]? = some a) :
    n = m := by
  obtain ⟨hlt, -⟩ := List.getElem?_eq_some_iff.1 hn
  exact (List.getElem?_inj hlt h.nodup).1 (hn.trans hm.symm)

/-- The thread of an entry that is in the queue and does not wait is the first one. -/
theorem Inv.first_of_not_waits (h : Inv s q) (hqueued : (s.pc e).Queued) (hnot : ¬ (s.pc e).Waits) :
    q[0]? = some e := by
  obtain ⟨n, hn⟩ := List.getElem?_of_mem ((h.mem e).2 hqueued)
  cases n with
  | zero => exact hn
  | succ n => exact absurd (h.wait n e hn).2 hnot

/-- What is written to an entry in the queue says nothing about the writes before. -/
theorem ready_of_queued (h : (s.pc a).Queued) : Ready s a := by
  rw [Ready]
  cases hpc : s.pc a <;> rw [hpc] at h <;> first | exact h.elim | trivial

/-- The entry in front of one whose thread is about to be linked. -/
theorem Inv.prev (h : Inv s q) {p : E} (hpc : s.pc e = .lockLink p) :
    ∃ n, q[n]? = some p ∧ q[n + 1]? = some e ∧ s.next p = none := by
  obtain ⟨n, hn⟩ := List.getElem?_of_mem ((h.mem e).2 (hpc ▸ trivial))
  cases n with
  | zero =>
    have hhead := h.head e hn
    rw [HeadOk, hpc] at hhead
    exact hhead.elim
  | succ n =>
    obtain ⟨hlt, -⟩ := List.getElem?_eq_some_iff.1 hn
    have ha : q[n]? = some q[n] := List.getElem?_eq_getElem (Nat.lt_of_succ_lt hlt)
    have hlink := h.link n _ e ha hn
    rw [Link, hpc] at hlink
    obtain ⟨rfl, hnone⟩ := hlink
    exact ⟨n, ha, hn, hnone⟩

/-- The entry behind one that is about to be read, or has been read, as `ent->next`. -/
theorem Inv.second (h : Inv s q) (he : q[0]? = some e) {n : E} (hnext : s.next e = some n) :
    ∃ t, q = e :: n :: t ∧ s.pc n = .lockSpin := by
  obtain ⟨t, rfl⟩ : ∃ t, q = e :: t := List.head?_eq_some_iff.1 (List.head?_eq_getElem? ▸ he)
  cases t with
  | nil => exact absurd (hnext.symm.trans (h.last e rfl)) (Option.some_ne_none n)
  | cons b t =>
    have hlink := h.link 0 e b rfl rfl
    have hwaits := (h.wait 0 b rfl).2
    rw [Link, hnext] at hlink
    cases hpc : s.pc b <;> rw [hpc] at hwaits hlink
    case lockLink p => exact absurd hlink.2 (Option.some_ne_none n)
    case lockSpin =>
      obtain rfl : n = b := Option.some.inj hlink
      exact ⟨t, rfl, hpc⟩
    all_goals exact hwaits.elim

variable [DecidableEq E] {pc : QslPc E} {next : Option E} {v : ℕ}

@[simp] theorem goto_tail : (s.goto e pc).tail = s.tail := rfl

@[simp] theorem goto_next : (s.goto e pc).next = s.next := rfl

@[simp] theorem goto_state : (s.goto e pc).state = s.state := rfl

@[simp] theorem goto_pc_self : (s.goto e pc).pc e = pc := Function.update_self ..

theorem goto_pc_of_ne (h : a ≠ e) : (s.goto e pc).pc a = s.pc a := Function.update_of_ne h ..

@[simp] theorem setNext_pc : (s.setNext e next).pc = s.pc := rfl

@[simp] theorem setNext_self : (s.setNext e next).next e = next := Function.update_self ..

theorem setNext_of_ne (h : a ≠ e) : (s.setNext e next).next a = s.next a :=
  Function.update_of_ne h ..

@[simp] theorem setState_pc : (s.setState e v).pc = s.pc := rfl

@[simp] theorem setState_self : (s.setState e v).state e = v := Function.update_self ..

theorem setState_of_ne (h : a ≠ e) : (s.setState e v).state a = s.state a :=
  Function.update_of_ne h ..

/-- A step of the first thread that writes nothing. -/
theorem Inv.first (h : Inv s q) (he : q[0]? = some e) (hqueued : pc.Queued)
    (hok : HeadOk (s.goto e pc) e) (hready : Ready (s.goto e pc) e) : Inv (s.goto e pc) q := by
  have hother : ∀ n a, q[n + 1]? = some a → a ≠ e := by
    rintro n a ha rfl
    exact Nat.succ_ne_zero n (h.eq_of_getElem? ha he)
  refine ⟨h.nodup, fun a => ?_, fun a => ?_, h.tail, fun n a b ha hb => ?_, h.last,
    fun a ha => ?_, fun n a ha => ?_⟩
  · by_cases hae : a = e
    · rw [hae, goto_pc_self]
      exact iff_of_true (List.mem_of_getElem? he) hqueued
    · rw [goto_pc_of_ne hae]
      exact h.mem a
  · by_cases hae : a = e
    · rw [hae]
      exact hready
    · have hsame : Same s (s.goto e pc) a := ⟨goto_pc_of_ne hae, rfl, rfl⟩
      exact hsame.ready.2 (h.ready a)
  · rw [Link, goto_pc_of_ne (hother n b hb)]
    exact h.link n a b ha hb
  · obtain rfl : e = a := Option.some.inj (he.symm.trans ha)
    exact hok
  · rw [goto_pc_of_ne (hother n a ha)]
    exact h.wait n a ha

/-- The exchange of the tail. -/
theorem Inv.arrive (h : Inv s q) (hout : ¬ (s.pc e).Queued) (hnext : s.next e = none)
    (hstate : s.state e = 0) (hnone : q.getLast? = none → pc = .inside)
    (hsome : ∀ p, q.getLast? = some p → pc = .lockLink p) :
    Inv ({ s with tail := some e }.goto e pc) (q ++ [e]) := by
  have hmem : ∀ a, a ∈ q → a ≠ e := fun a ha hae => hout (hae ▸ (h.mem a).1 ha)
  have hpc : ∀ a, a ∈ q → ({ s with tail := some e }.goto e pc).pc a = s.pc a := fun a ha =>
    goto_pc_of_ne (hmem a ha)
  have hqueued : pc.Queued := by
    cases hlast : q.getLast? with
    | none => exact hnone hlast ▸ trivial
    | some p => exact hsome p hlast ▸ trivial
  refine ⟨?_, fun a => ?_, fun a => ?_, List.getLast?_concat.symm, fun n a b ha hb => ?_,
    fun a ha => ?_, fun a ha => ?_, fun n a ha => ?_⟩
  · exact List.nodup_append.2 ⟨h.nodup, List.nodup_singleton e, fun a ha b hb hab =>
      hmem a ha (hab.trans (List.mem_singleton.1 hb))⟩
  · rw [List.mem_append, List.mem_singleton]
    by_cases hae : a = e
    · rw [hae, goto_pc_self]
      exact iff_of_true (Or.inr rfl) hqueued
    · rw [goto_pc_of_ne hae, or_iff_left hae]
      exact h.mem a
  · by_cases hae : a = e
    · refine ready_of_queued ?_
      rw [hae, goto_pc_self]
      exact hqueued
    · have hsame : Same s ({ s with tail := some e }.goto e pc) a := ⟨goto_pc_of_ne hae, rfl, rfl⟩
      exact hsame.ready.2 (h.ready a)
  · rcases Nat.lt_trichotomy (n + 1) q.length with hlt | heq | hgt
    · rw [List.getElem?_append_left hlt] at hb
      rw [List.getElem?_append_left (Nat.lt_of_succ_lt hlt)] at ha
      rw [Link, hpc b (List.mem_of_getElem? hb)]
      exact h.link n a b ha hb
    · -- the entry that was the last one
      rw [heq, List.getElem?_concat_length] at hb
      obtain rfl : e = b := Option.some.inj hb
      rw [List.getElem?_append_left (heq ▸ Nat.lt_succ_self n)] at ha
      have hlast : q.getLast? = some a := by
        rw [List.getLast?_eq_getElem?, ← heq, Nat.add_sub_cancel, ha]
      rw [Link, goto_pc_self, hsome a hlast]
      exact ⟨rfl, h.last a hlast⟩
    · rw [List.getElem?_eq_none (by rw [List.length_append, List.length_singleton]; omega)] at hb
      exact absurd hb (Option.some_ne_none b).symm
  · rw [List.getLast?_concat] at ha
    obtain rfl : e = a := Option.some.inj ha
    exact hnext
  · cases hq : q with
    | nil =>
      rw [hq] at ha
      obtain rfl : e = a := Option.some.inj ha
      rw [HeadOk, goto_pc_self, hnone (hq ▸ List.getLast?_nil)]
      trivial
    | cons c t =>
      rw [hq] at ha
      have hc : q[0]? = some a := by
        rw [hq]
        exact ha
      have hsame : Same s ({ s with tail := some e }.goto e pc) a :=
        ⟨hpc a (List.mem_of_getElem? hc), rfl, rfl⟩
      exact hsame.headOk.2 (h.head a hc)
  · rcases Nat.lt_trichotomy (n + 1) q.length with hlt | heq | hgt
    · rw [List.getElem?_append_left hlt] at ha
      rw [hpc a (List.mem_of_getElem? ha)]
      exact h.wait n a ha
    · rw [heq, List.getElem?_concat_length] at ha
      obtain rfl : e = a := Option.some.inj ha
      obtain ⟨p, hp⟩ : ∃ p, q.getLast? = some p :=
        ⟨_, List.getLast?_eq_some_getLast (List.ne_nil_of_length_pos (heq ▸ Nat.succ_pos n))⟩
      rw [goto_pc_self, hsome p hp]
      exact ⟨hstate, trivial⟩
    · rw [List.getElem?_eq_none (by rw [List.length_append, List.length_singleton]; omega)] at ha
      exact absurd ha (Option.some_ne_none a).symm

/-- `stail->next = ent`. -/
theorem Inv.linked (h : Inv s q) {p : E} (hpc : s.pc e = .lockLink p) :
    Inv ((s.setNext p (some e)).goto e .lockSpin) q := by
  obtain ⟨m, hp, he, hnone⟩ := h.prev hpc
  have hfirst : ∀ a, q[0]? = some a → a ≠ e := by
    rintro a ha rfl
    exact Nat.succ_ne_zero m (h.eq_of_getElem? he ha)
  refine ⟨h.nodup, fun a => ?_, fun a => ?_, h.tail, fun n a b ha hb => ?_, fun a ha => ?_,
    fun a ha => ?_, fun n a ha => ?_⟩
  · by_cases hae : a = e
    · rw [hae, goto_pc_self]
      exact iff_of_true (List.mem_of_getElem? he) trivial
    · rw [goto_pc_of_ne hae]
      exact h.mem a
  · by_cases hae : a = e
    · rw [hae, Ready, goto_pc_self]
      trivial
    · by_cases hap : a = p
      · refine ready_of_queued ?_
        rw [goto_pc_of_ne hae, hap]
        exact (h.mem p).1 (List.mem_of_getElem? hp)
      · have hsame : Same s ((s.setNext p (some e)).goto e .lockSpin) a :=
          ⟨goto_pc_of_ne hae, setNext_of_ne hap, rfl⟩
        exact hsame.ready.2 (h.ready a)
  · by_cases hbe : b = e
    · subst hbe
      obtain rfl : m = n := Nat.succ.inj (h.eq_of_getElem? he hb)
      obtain rfl : p = a := Option.some.inj (hp.symm.trans ha)
      rw [Link, goto_pc_self]
      exact setNext_self
    · have hap : a ≠ p := by
        rintro rfl
        obtain rfl := h.eq_of_getElem? hp ha
        exact hbe (Option.some.inj (hb.symm.trans he))
      rw [Link, goto_pc_of_ne hbe, goto_next, setNext_of_ne hap]
      exact h.link n a b ha hb
  · have hap : a ≠ p := by
      rintro rfl
      rw [List.getLast?_eq_getElem?] at ha
      have hlen := h.eq_of_getElem? hp ha
      obtain ⟨hlt, -⟩ := List.getElem?_eq_some_iff.1 he
      omega
    rw [goto_next, setNext_of_ne hap]
    exact h.last a ha
  · have hok := h.head a ha
    rw [HeadOk, goto_pc_of_ne (hfirst a ha), goto_next, goto_state]
    by_cases hap : a = p
    · subst hap
      rw [HeadOk, hnone] at hok
      rw [setNext_self, setNext_pc]
      cases hpca : s.pc a <;> rw [hpca] at hok
      case unlockRead => exact absurd rfl hok
      case unlockGrant b => exact absurd hok.symm (Option.some_ne_none b)
      all_goals exact hok
    · rw [setNext_of_ne hap]
      exact hok
  · by_cases hae : a = e
    · rw [hae, goto_pc_self]
      exact ⟨(h.wait m e he).1, trivial⟩
    · rw [goto_pc_of_ne hae]
      exact h.wait n a ha

/-- The compare and exchange of `unlock`: the queue gets empty. -/
theorem Inv.empty (h : Inv s q) (hpc : s.pc e = .unlockTail) (htail : s.tail = some e) :
    q = [e] ∧ Inv ({ s with tail := none }.goto e .outside) [] := by
  have he : q[0]? = some e :=
    h.first_of_not_waits (hpc ▸ trivial) (hpc ▸ not_false)
  have hlast : q[q.length - 1]? = some e := by
    rw [← List.getLast?_eq_getElem?, ← h.tail, htail]
  have hlen := h.eq_of_getElem? hlast he
  obtain ⟨hpos, hval⟩ := List.getElem?_eq_some_iff.1 he
  obtain ⟨c, rfl⟩ := List.length_eq_one_iff.1 (by omega : q.length = 1)
  obtain rfl : c = e := hval
  refine ⟨rfl, List.nodup_nil, fun a => ?_, fun a => ?_, rfl, fun n a b ha => ?_, fun a ha => ?_,
    fun a ha => ?_, fun n a ha => ?_⟩
  · refine iff_of_false List.not_mem_nil ?_
    by_cases hac : a = c
    · rw [hac, goto_pc_self]
      exact not_false
    · rw [goto_pc_of_ne hac]
      exact fun hqueued => hac (List.mem_singleton.1 ((h.mem a).2 hqueued))
  · by_cases hac : a = c
    · rw [hac, Ready, goto_pc_self]
      trivial
    · have hsame : Same s ({ s with tail := none }.goto c .outside) a :=
        ⟨goto_pc_of_ne hac, rfl, rfl⟩
      exact hsame.ready.2 (h.ready a)
  all_goals simp at ha

/-- `ent->next->state = 1`. -/
theorem Inv.grant (h : Inv s q) {n : E} (hpc : s.pc e = .unlockGrant n) :
    ∃ t, q = e :: n :: t ∧ s.pc n = .lockSpin ∧
      Inv ((s.setState n 1).goto e .outside) (n :: t) := by
  have he : q[0]? = some e :=
    h.first_of_not_waits (hpc ▸ trivial) (hpc ▸ not_false)
  have hnext : s.next e = some n := by
    have hok := h.head e he
    rwa [HeadOk, hpc] at hok
  obtain ⟨t, rfl, hspin⟩ := h.second he hnext
  have hne : ∀ (m : ℕ) (a : E), (n :: t)[m]? = some a → a ≠ e := by
    rintro m a ha rfl
    have hsucc : (a :: n :: t)[m + 1]? = some a := ha
    exact Nat.succ_ne_zero m (h.eq_of_getElem? hsucc he)
  refine ⟨t, rfl, hspin, h.nodup.of_cons, fun a => ?_, fun a => ?_, h.tail, fun m a b ha hb => ?_,
    fun a ha => h.last a ha, fun a ha => ?_, fun m a ha => ?_⟩
  · by_cases hae : a = e
    · rw [hae, goto_pc_self]
      exact iff_of_false h.nodup.notMem not_false
    · rw [goto_pc_of_ne hae, ← List.mem_cons.trans (or_iff_right hae)]
      exact h.mem a
  · by_cases hae : a = e
    · rw [hae, Ready, goto_pc_self]
      trivial
    · by_cases han : a = n
      · refine ready_of_queued ?_
        rw [goto_pc_of_ne hae, han]
        exact hspin ▸ trivial
      · have hsame : Same s ((s.setState n 1).goto e .outside) a :=
          ⟨goto_pc_of_ne hae, rfl, setState_of_ne han⟩
        exact hsame.ready.2 (h.ready a)
  · rw [Link, goto_pc_of_ne (hne (m + 1) b hb)]
    exact h.link (m + 1) a b ha hb
  · obtain rfl : n = a := Option.some.inj ha
    rw [HeadOk, goto_pc_of_ne (hne 0 n rfl), setState_pc, hspin, goto_state, setState_self]
    exact Nat.one_ne_zero
  · have han : a ≠ n := by
      rintro rfl
      have hsucc : (e :: a :: t)[m + 2]? = some a := ha
      exact Nat.succ_ne_zero m (Nat.succ.inj (h.eq_of_getElem? hsucc rfl))
    rw [goto_pc_of_ne (hne (m + 1) a ha), goto_state, setState_of_ne han]
    exact h.wait (m + 1) a ha

end QSpinlock
end Meld
