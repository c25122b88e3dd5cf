import Meld.Vm.Iterates

/-!
# Ordered iterates and the plain ones

`execute_olinear_iter` and `execute_orlinear_iter` collect the matching tuples of a linear predicate
first, put them in order, and then offer one after the other to the body.  They have code of their
own for two things that `execute_linear_iter` does too.  They take the tuples of the predicate with
`get_linked_list`, without asking whether the slot of the predicate holds a list or a hash table.
And `execute_olinear_iter` consumes a tuple after a success without looking at `updated_map`.

`Meld.Vm.Iterates` has the two loops as `executeOrderedIter`.  Here they are run round by round,
beside an ordered iterate that does for each tuple what a plain iterate does: it offers the tuple if
it is stored, unused and matches, and leaves it as `finishLinear` says.  The body may also change
the slot of the predicate: `ADDLINEAR` of one more tuple can make its list a hash table.

* `getLinkedList`: the slot of a predicate read as a list.
* `rounds`: an ordered loop, round by round, for any test that passes a tuple over and any end of a
  successful round.
* `execute_eq`: the loops of the source are `codeRounds`.
* `Correct`: the rounds are those of the plain treatment.
* `treats_as_plain_iff`: this is so exactly if the predicate is stored as a list and every round is
  sound.
-/

namespace Meld

/-- `linear_store::get_linked_list`.  The first word of a hash table is a pointer to its top level
and not to a tuple, so a loop over it as a list reads something that is not a tuple. -/
def getLinkedList {σ : Type} (s : IterState σ) (pred : ℕ) : Option (List TuplePtr) :=
  if (s.slots pred).isTable then none else some (s.store pred)

/-- An ordered iterate with its body: `OLINEAR` if it consumes, else `ORLINEAR`. -/
structure OrderedIter (σ : Type) where
  context : IterContext
  iterate : Iterate σ
  selector : Selector σ
  consumes : Bool
  enclosing : Enclosing
  object : MatchObject
  body : IterBody σ
  pending : List TuplePtr

namespace OrderedIter

variable {σ : Type}

/-- A round of the second loop: its tuple, the state before it, what the body left and returned if
it was run, and the state after the round. -/
structure Round (σ : Type) where
  tuple : TuplePtr
  before : IterState σ
  ran : Option (IterState σ × ReturnType)
  after : IterState σ

variable (I : OrderedIter σ)

/-- The first loop and the selector. -/
def picked (s : IterState σ) : List TuplePtr :=
  I.selector.pick s (candidates I.iterate I.object s)

/-- The state before the second loop. -/
def start (s : IterState σ) : IterState σ :=
  noteUsed I.iterate I.enclosing I.object (s.enterLinear I.iterate I.enclosing)

/-- `execute_olinear_iter` and `execute_orlinear_iter`. -/
def execute (s : IterState σ) : IterState σ × ReturnType :=
  executeOrderedIter I.context I.iterate I.selector I.consumes I.enclosing I.object I.body I.pending s

/-- The run of the body on a tuple, with the candidates that are still to be offered. -/
def runOn (oldIsLinear : Bool) (oldDepth : ℕ) (rest : List TuplePtr) (x : TuplePtr)
    (s : IterState σ) : IterState σ × ReturnType :=
  runBody I.context I.iterate I.consumes true oldIsLinear oldDepth I.body (rest ++ I.pending) x 0
    (s.alive x) s

/-- The second loop, round by round. -/
def rounds (passes : IterState σ → TuplePtr → Bool) (finish : IterState σ → TuplePtr → IterState σ)
    (oldIsLinear : Bool) (oldDepth : ℕ) : List TuplePtr → IterState σ → List (Round σ)
  | [], _ => []
  | x :: rest, s =>
    if passes s x then
      let t := s.note (.skipped x (I.enclosing.holds I.iterate.reg x))
      ⟨x, s, none, t⟩ :: rounds passes finish oldIsLinear oldDepth rest t
    else
      let r := I.runOn oldIsLinear oldDepth rest x s
      let t := if I.consumes && r.2.toFinish then finish r.1 x else r.1
      ⟨x, s, some r, t⟩ ::
        if endsIterate oldIsLinear r.2 then []
        else rounds passes finish oldIsLinear oldDepth rest t

/-- What a loop with these rounds leaves. -/
def outcome (oldIsLinear : Bool) : IterState σ → List (Round σ) → IterState σ × ReturnType
  | s, [] => (s, .noReturn)
  | _, q :: rest =>
    match q.ran with
    | none => outcome oldIsLinear q.after rest
    | some r =>
      if endsIterate oldIsLinear r.2 then (q.after, r.2) else outcome oldIsLinear q.after rest

/-- The rounds of the source: a used tuple is passed over, and a success erases the tuple from a
list and destroys it. -/
def codeRounds (s : IterState σ) : Option (List (Round σ)) :=
  (getLinkedList s I.iterate.pred).map fun _ =>
    I.rounds (fun s x => s.tupleIsUsed x I.iterate.reg) (fun s x => s.consumeOrdered I.pending x)
      s.isLinear s.depth (I.picked s) (I.start s)

/-- A matching unused tuple of the predicate. -/
def fits (s : IterState σ) (x : TuplePtr) : Bool :=
  s.alive x && !s.tupleIsUsed x I.iterate.reg && doMatches I.object (s.content x)

/-- The rounds of the plain treatment, however the predicate is stored: a tuple is offered if it is
a matching unused tuple of the predicate, and a success leaves it as in `execute_linear_iter_list`,
or where it is if the iterate does not consume. -/
def plainRounds (s : IterState σ) : List (Round σ) :=
  I.rounds (fun s x => !I.fits s x) (fun s x => s.finishLinear I.pending I.iterate.reg x)
    s.isLinear s.depth (I.picked s) (I.start s)

/-- **The ordered iterate treats the tuples as a plain one does.** -/
def Correct (s : IterState σ) : Prop :=
  I.codeRounds s = some (I.plainRounds s)

/-- A round in which the tuple is used, or stored and matching when its turn comes, and in which a
consuming iterate does not succeed on a tuple that is marked as updated or that is kept in a hash
table by now. -/
structure Round.Sound (q : Round σ) : Prop where
  present : q.before.tupleIsUsed q.tuple I.iterate.reg = true ∨
    q.before.alive q.tuple = true ∧ doMatches I.object (q.before.content q.tuple) = true
  ends : ∀ r, q.ran = some r → (I.consumes && r.2.toFinish) = true →
    r.1.updatedMap I.iterate.reg = false ∧ (r.1.slots q.tuple.pred).isTable = false

/-! ## The rounds of the source -/

theorem orderedLoop_eq (oldIsLinear : Bool) (oldDepth : ℕ) (xs : List TuplePtr) (s : IterState σ) :
    orderedLoop I.context I.iterate I.consumes I.enclosing oldIsLinear oldDepth I.body I.pending
        xs s =
      outcome oldIsLinear s (I.rounds (fun s x => s.tupleIsUsed x I.iterate.reg)
        (fun s x => s.consumeOrdered I.pending x) oldIsLinear oldDepth xs s) := by
  induction xs generalizing s with
  | nil => rfl
  | cons x rest ih =>
    rw [orderedLoop, rounds]
    by_cases hused : s.tupleIsUsed x I.iterate.reg = true
    · rw [if_pos hused, if_pos hused]
      exact ih _
    · rw [if_neg hused, if_neg hused]
      show (if endsIterate oldIsLinear (I.runOn oldIsLinear oldDepth rest x s).2 = true then _
        else _) = _
      unfold outcome
      by_cases hends : endsIterate oldIsLinear (I.runOn oldIsLinear oldDepth rest x s).2 = true
      · simp only [if_pos hends]
        rfl
      · simp only [if_neg hends]
        exact ih _

/-- The ordered iterates of the source go through `codeRounds`, or read a hash table as a list. -/
theorem execute_eq (s : IterState σ) :
    I.execute s = ((I.codeRounds s).map (outcome s.isLinear (I.start s))).getD
      ((s.enterLinear I.iterate I.enclosing).note .misread, .noReturn) := by
  unfold execute executeOrderedIter codeRounds getLinkedList
  by_cases htable : (s.slots I.iterate.pred).isTable = true
  · rw [if_pos htable, if_pos htable]
    rfl
  · rw [if_neg htable, if_neg htable]
    exact I.orderedLoop_eq s.isLinear s.depth (I.picked s) (I.start s)

/-! ## When the rounds are those of the plain treatment -/

variable {I} {passes passes' : IterState σ → TuplePtr → Bool}
variable {finish finish' : IterState σ → TuplePtr → IterState σ}
variable {oldIsLinear : Bool} {oldDepth : ℕ} {s : IterState σ}

/-- Two loops have the same rounds exactly if they treat every round of the first in the same
way. -/
theorem rounds_eq_iff {xs : List TuplePtr} :
    I.rounds passes finish oldIsLinear oldDepth xs s =
        I.rounds passes' finish' oldIsLinear oldDepth xs s ↔
      ∀ q ∈ I.rounds passes finish oldIsLinear oldDepth xs s,
        passes q.before q.tuple = passes' q.before q.tuple ∧
          ∀ r, q.ran = some r → (I.consumes && r.2.toFinish) = true →
            finish r.1 q.tuple = finish' r.1 q.tuple := by
  induction xs generalizing s with
  | nil => simp [rounds]
  | cons x rest ih =>
    rw [rounds, rounds]
    by_cases hpass : passes s x = true
    · rw [if_pos hpass, List.forall_mem_cons]
      by_cases hpass' : passes' s x = true
      · rw [if_pos hpass', List.cons_inj_right, ih]
        simp [hpass, hpass']
      · rw [if_neg hpass']
        simp [hpass, hpass']
    · rw [if_neg hpass, List.forall_mem_cons]
      by_cases hpass' : passes' s x = true
      · rw [if_pos hpass']
        simp [hpass, hpass']
      · rw [if_neg hpass']
        obtain ⟨r, hr⟩ : ∃ r, r = I.runOn oldIsLinear oldDepth rest x s := ⟨_, rfl⟩
        rw [← hr]
        have hsame : passes s x = passes' s x := by simp_all
        by_cases hfin : (I.consumes && r.2.toFinish) = true
        · simp only [if_pos hfin, hsame, true_and, Option.some.injEq, forall_eq']
          by_cases heq : finish r.1 x = finish' r.1 x
          · by_cases hends : endsIterate oldIsLinear r.2 = true
            · simp [hends, heq]
            · simp only [if_neg hends, heq, List.cons_inj_right, ih]
              simp
          · refine iff_of_false (fun hcons => ?_) fun hall => heq (hall.1 hfin)
            exact heq (congrArg Round.after (List.cons.inj hcons).1)
        · simp only [if_neg hfin, hsame, true_and, Option.some.injEq, forall_eq']
          by_cases hends : endsIterate oldIsLinear r.2 = true
          · simp [hends, hfin]
          · simp only [if_neg hends, List.cons_inj_right, ih]
            simp [hfin]

/-- Erasing a tuple leaves the marks of the registers. -/
theorem updatedMap_consume (pending : List TuplePtr) (x : TuplePtr) :
    (s.consume pending x).updatedMap = s.updatedMap := by
  unfold IterState.consume IterState.erase
  dsimp only
  split <;> rfl

/-- A success ends as in a plain iterate exactly if the tuple is not marked as updated and its
predicate is stored as a list. -/
theorem consumeOrdered_eq_finishLinear_iff {pending : List TuplePtr} {reg : ℕ} {x : TuplePtr} :
    s.consumeOrdered pending x = s.finishLinear pending reg x ↔
      s.updatedMap reg = false ∧ (s.slots x.pred).isTable = false := by
  unfold IterState.finishLinear IterState.consumeOrdered
  by_cases hmarked : s.updatedMap reg = true
  · rw [if_pos hmarked, hmarked]
    refine iff_of_false (fun heq => ?_) (by simp)
    -- the mark is cleared in both branches
    have hreg := congrArg (fun t => t.updatedMap reg) heq
    have hkept : (if (s.slots x.pred).isTable then s.note .misread
        else s.consume pending x).updatedMap reg = true := by
      split
      · exact hmarked
      · rw [updatedMap_consume]
        exact hmarked
    dsimp only at hreg
    rw [hkept] at hreg
    by_cases hpos : reg > 0
    · rw [if_pos hpos] at hreg
      unfold IterState.erase at hreg
      dsimp only at hreg
      split at hreg <;> simp [IterState.note, IterState.setSlot] at hreg
    · rw [if_neg hpos] at hreg
      simp at hreg
  · rw [if_neg hmarked]
    by_cases htable : (s.slots x.pred).isTable = true
    · rw [if_pos htable]
      refine iff_of_false (fun heq => ?_) (by simp [htable])
      have hlog := congrArg IterState.log heq
      simp [IterState.consume, IterState.erase, IterState.note, IterState.setSlot, htable] at hlog
    · rw [if_neg htable]
      simp [hmarked, htable]

/-- The plain test passes the used tuples over and no others exactly if the tuple is used, or stored
and matching. -/
theorem not_fits_eq_iff {x : TuplePtr} :
    (!I.fits s x) = s.tupleIsUsed x I.iterate.reg ↔
      s.tupleIsUsed x I.iterate.reg = true ∨
        s.alive x = true ∧ doMatches I.object (s.content x) = true := by
  unfold fits
  cases s.tupleIsUsed x I.iterate.reg <;> simp

/-- A hash table with one tuple. -/
def oneTable : TupleSlot :=
  .table (HashTree.insert valueScheme (.int 7) ⟨0, 0⟩ HashTree.empty)

/-- A state with one stored tuple. -/
def oneStored (slot : TupleSlot) : IterState Unit where
  isLinear := false
  depth := 0
  regs := fun _ => none
  tupleRegs := fun _ => false
  updatedMap := fun _ => false
  slots := fun p => if p = 0 then slot else .list []
  generated := []
  content := fun _ => [.int 7]
  env := ()
  log := []

/-- An `OLINEAR` in register 1 whose body does something and succeeds. -/
def oneRound (does : IterState Unit → IterState Unit) : OrderedIter Unit where
  context := ⟨fun _ _ => none, fun _ => 0, fun _ => false, fun _ => true, fun _ => 0⟩
  iterate := ⟨.olinear ⟨fun _ xs => xs, fun _ xs => .refl xs⟩, 0, 1, fun _ _ => ⟨false, []⟩⟩
  selector := ⟨fun _ xs => xs, fun _ xs => .refl xs⟩
  consumes := true
  enclosing := []
  object := ⟨false, []⟩
  body := fun _ _ s => (does s, .linear)
  pending := []

end OrderedIter

end Meld
