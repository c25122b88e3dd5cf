import Meld.Vm.Iterates

/-!
# Nests of iterates

A nest of plain iterates over different predicates, with code inside that succeeds or fails.  How
far a success unwinds is decided by return codes and by the flag `is_linear`.  Without both it is
this: go through all combinations of tuples in the order of the loops; pass over a combination if
the tuple of one of its consuming iterates has been consumed; otherwise run the code inside, and if
it succeeds, consume the tuples of the consuming iterates.

* `combos`: the combinations in the order of the loops, and the places where the search of a
  persistent predicate goes wrong.
* `NestView.attempt`: what is done with each of them, and `NestView.search`: the same up to the
  first success.
* `NestView.foldl_attempt_linear`, `NestView.foldl_attempt_cons`, `NestView.search_cons`: what is
  done with the combinations of a level, in terms of those inside it.
* `IterState.view`: what a state of the interpreter has done, in these terms.
-/

namespace Meld

/-- The plain iterates of a nest. -/
inductive NestKind where
  | pers
  | rlinear
  | linear
  deriving DecidableEq

/-- One iterate of a nest.  Its match object is made of the tuples of the enclosing ones. -/
structure Level where
  kind : NestKind
  pred : ℕ
  reg : ℕ
  pattern : List Tuple → MatchObject

/-- The instruction. -/
def Level.toIterate {σ : Type} (L : Level) : Iterate σ where
  kind := match L.kind with
    | .pers => .pers
    | .rlinear => .rlinear
    | .linear => .linear
  pred := L.pred
  reg := L.reg
  pattern := fun _ => L.pattern

variable {σ : Type}

/-- The code of a nest: each iterate has the next one as its body, with `NEXT` behind it.  The
innermost code returns `RETURN_DERIVED` or `RETURN_NEXT`. -/
def nestCode (f : σ → List Tuple → σ × Bool) : List Level → IterCode σ
  | [] => .leaf fun e tpls => ((f e tpls).1, if (f e tpls).2 then .derived else .next)
  | L :: rest => .iter L.toIterate (nestCode f rest) (.ret .next)

/-! ## The nest without flags -/

/-- A combination of tuples, one for each level, or the tuples down to a level whose search goes
wrong. -/
structure Combo where
  tuples : List TuplePtr
  complete : Bool

/-- The combination with one more tuple in front. -/
def Combo.cons (x : TuplePtr) (c : Combo) : Combo := ⟨x :: c.tuples, c.complete⟩

/-- All combinations, in the order of the loops, where `cand` gives the tuples of a level inside the
enclosing ones `E`. -/
def combos (cand : Level → List TuplePtr → Option (List TuplePtr)) :
    List Level → List TuplePtr → List Combo
  | [], _ => [⟨[], true⟩]
  | L :: rest, E =>
    match cand L E with
    | none => [⟨[], false⟩]
    | some xs => xs.flatMap fun x => (combos cand rest (E ++ [x])).map (Combo.cons x)

/-- The tuples of the consuming levels, from the inside out. -/
def taken : List Level → List TuplePtr → List TuplePtr
  | L :: levels, x :: c => taken levels c ++ if L.kind = .linear then [x] else []
  | _, _ => []

/-- What a nest has done: the rest of the state, the combinations tried with their success, the
tuples consumed, and whether all searches have come to their end. -/
structure NestView (σ : Type) where
  env : σ
  ran : List (List TuplePtr × Bool)
  consumed : List TuplePtr
  ok : Bool

namespace NestView

variable (content : TuplePtr → Tuple) (f : σ → List Tuple → σ × Bool)

/-- The innermost code runs. -/
def tryOn (v : NestView σ) (c : List TuplePtr) : NestView σ × Bool :=
  let r := f v.env (c.map content)
  ({ v with env := r.1, ran := v.ran ++ [(c, r.2)] }, r.2)

/-- Tuples are consumed. -/
def consume (v : NestView σ) (xs : List TuplePtr) : NestView σ :=
  { v with consumed := v.consumed ++ xs }

/-- A search goes wrong. -/
def fault (v : NestView σ) : NestView σ := { v with ok := false }

/-- One of the tuples of the consuming levels has been consumed. -/
def Spent (v : NestView σ) (levels : List Level) (c : List TuplePtr) : Prop :=
  ∃ x ∈ taken levels c, x ∈ v.consumed

instance (v : NestView σ) (levels : List Level) (c : List TuplePtr) :
    Decidable (v.Spent levels c) :=
  inferInstanceAs (Decidable (∃ x ∈ taken levels c, x ∈ v.consumed))

/-- **What a nest does with a combination** inside the tuples `E`. -/
def attempt (levels : List Level) (E : List TuplePtr) (v : NestView σ) (c : Combo) : NestView σ :=
  if v.Spent levels c.tuples then v
  else if c.complete then
    let r := v.tryOn content f (E ++ c.tuples)
    if r.2 then r.1.consume (taken levels c.tuples) else r.1
  else v.fault

/-- The first combination that succeeds. -/
def search (levels : List Level) (E : List TuplePtr) :
    List Combo → NestView σ → NestView σ × Option (List TuplePtr)
  | [], v => (v, none)
  | c :: cs, v =>
    if v.Spent levels c.tuples then search levels E cs v
    else if c.complete then
      let r := v.tryOn content f (E ++ c.tuples)
      if r.2 then (r.1, some c.tuples) else search levels E cs r.1
    else search levels E cs v.fault

variable {content f}

/-! ## How the combinations of a level are made of those inside it -/

@[simp] theorem consumed_tryOn (v : NestView σ) (c : List TuplePtr) :
    (v.tryOn content f c).1.consumed = v.consumed := rfl

@[simp] theorem consumed_fault (v : NestView σ) : v.fault.consumed = v.consumed := rfl

@[simp] theorem consumed_consume (v : NestView σ) (xs : List TuplePtr) :
    (v.consume xs).consumed = v.consumed ++ xs := rfl

@[simp] theorem consume_nil (v : NestView σ) : v.consume [] = v := by
  simp [consume]

theorem search_append (levels : List Level) (E : List TuplePtr) (cs ds : List Combo)
    (v : NestView σ) :
    search content f levels E (cs ++ ds) v =
      match search content f levels E cs v with
      | (w, none) => search content f levels E ds w
      | (w, some c) => (w, some c) := by
  induction cs generalizing v with
  | nil => rfl
  | cons c cs ih =>
    rw [List.cons_append, search, search]
    split
    · exact ih v
    · split
      · dsimp only
        split
        · rfl
        · exact ih _
      · exact ih _

section Level

variable {L : Level} {rest : List Level} {E : List TuplePtr} {x : TuplePtr} {v : NestView σ}

theorem spent_cons (c : List TuplePtr) :
    v.Spent (L :: rest) (x :: c) ↔ v.Spent rest c ∨ (L.kind = .linear ∧ x ∈ v.consumed) := by
  by_cases hL : L.kind = .linear
  · simp [Spent, taken, hL, or_and_right, exists_or]
  · simp [Spent, taken, hL]

/-- The combinations with a consumed tuple are passed over. -/
theorem foldl_attempt_spent (hL : L.kind = .linear) (hx : x ∈ v.consumed) (cs : List Combo) :
    (cs.map (Combo.cons x)).foldl (attempt content f (L :: rest) E) v = v := by
  induction cs with
  | nil => rfl
  | cons c cs ih =>
    have hspent : v.Spent (L :: rest) (Combo.cons x c).tuples := (spent_cons _).2 (.inr ⟨hL, hx⟩)
    rw [List.map_cons, List.foldl_cons, attempt, if_pos hspent, ih]

theorem search_spent (hL : L.kind = .linear) (hx : x ∈ v.consumed) (cs : List Combo) :
    search content f (L :: rest) E (cs.map (Combo.cons x)) v = (v, none) := by
  induction cs with
  | nil => rfl
  | cons c cs ih =>
    have hspent : v.Spent (L :: rest) (Combo.cons x c).tuples := (spent_cons _).2 (.inr ⟨hL, hx⟩)
    rw [List.map_cons, search, if_pos hspent, ih]

/-- A level that does not consume adds nothing to the attempts inside it. -/
theorem foldl_attempt_cons (hL : L.kind ≠ .linear) (cs : List Combo) (v : NestView σ) :
    (cs.map (Combo.cons x)).foldl (attempt content f (L :: rest) E) v =
      cs.foldl (attempt content f rest (E ++ [x])) v := by
  rw [List.foldl_map]
  refine List.foldl_ext _ _ _ fun v c _ => ?_
  have htaken : taken (L :: rest) (x :: c.tuples) = taken rest c.tuples := by
    rw [taken, if_neg hL, List.append_nil]
  simp only [attempt, Spent, Combo.cons, htaken, List.append_assoc, List.singleton_append]

/-- A search inside a tuple that is not consumed is a search through the combinations inside. -/
theorem search_cons (cs : List Combo) (v : NestView σ) (hx : L.kind = .linear → x ∉ v.consumed) :
    search content f (L :: rest) E (cs.map (Combo.cons x)) v =
      ((search content f rest (E ++ [x]) cs v).1,
        (search content f rest (E ++ [x]) cs v).2.map (x :: ·)) := by
  induction cs generalizing v with
  | nil => rfl
  | cons c cs ih =>
    have hspent : v.Spent (L :: rest) (Combo.cons x c).tuples ↔ v.Spent rest c.tuples := by
      rw [Combo.cons, spent_cons]
      exact or_iff_left fun h => hx h.1 h.2
    have happ : E ++ (Combo.cons x c).tuples = E ++ [x] ++ c.tuples := by
      simp [Combo.cons]
    rw [List.map_cons, search, search, happ]
    simp only [hspent]
    split
    · exact ih v hx
    · rw [show (Combo.cons x c).complete = c.complete from rfl]
      split
      · split
        · rfl
        · exact ih _ hx
      · exact ih _ hx

/-- At a consuming level that is not inside another, the attempts with a tuple end with the first
success, for then the tuple is consumed. -/
theorem foldl_attempt_linear (hL : L.kind = .linear) (cs : List Combo) (v : NestView σ)
    (hx : x ∉ v.consumed) :
    (cs.map (Combo.cons x)).foldl (attempt content f (L :: rest) E) v =
      match search content f rest (E ++ [x]) cs v with
      | (w, none) => w
      | (w, some c) => w.consume (taken rest c ++ [x]) := by
  induction cs generalizing v with
  | nil => rfl
  | cons c cs ih =>
    have hspent : v.Spent (L :: rest) (Combo.cons x c).tuples ↔ v.Spent rest c.tuples := by
      rw [Combo.cons, spent_cons]
      exact or_iff_left fun h => hx h.2
    have happ : E ++ (Combo.cons x c).tuples = E ++ [x] ++ c.tuples := by
      simp [Combo.cons]
    have htaken : taken (L :: rest) (Combo.cons x c).tuples = taken rest c.tuples ++ [x] := by
      rw [Combo.cons, taken, if_pos hL]
    rw [List.map_cons, List.foldl_cons, attempt, search, happ, htaken]
    simp only [hspent]
    split
    · exact ih v hx
    · rw [show (Combo.cons x c).complete = c.complete from rfl]
      split
      · split
        · exact foldl_attempt_spent hL (by simp) cs
        · exact ih _ hx
      · exact ih _ hx

end Level

end NestView

/-! ## The state of the interpreter, seen so -/

/-- The combinations tried, with their success. -/
def ransOf (log : List IterEvent) : List (List TuplePtr × Bool) :=
  log.filterMap fun
    | .ran xs ret => some (xs, ret == .derived)
    | _ => none

/-- The tuples consumed. -/
def consumedOf (log : List IterEvent) : List TuplePtr :=
  log.filterMap fun
    | .removed x _ _ true => some x
    | _ => none

/-- All searches have come to their end. -/
def searchesOk (log : List IterEvent) : Bool := log.all fun e => e != .searched false

/-- What a nest sees of the state. -/
def IterState.view (s : IterState σ) : NestView σ :=
  ⟨s.env, ransOf s.log, consumedOf s.log, searchesOk s.log⟩

namespace IterState

@[simp] theorem view_offered (s : IterState σ) (x : TuplePtr) (alive : Bool) :
    (s.note (.offered x alive)).view = s.view := by
  simp [view, note, ransOf, consumedOf, searchesOk]

@[simp] theorem view_entered (s : IterState σ) (clean : Bool) :
    (s.note (.entered clean)).view = s.view := by
  simp [view, note, ransOf, consumedOf, searchesOk]

@[simp] theorem view_skipped (s : IterState σ) (x : TuplePtr) (held : Bool) :
    (s.note (.skipped x held)).view = s.view := by
  simp [view, note, ransOf, consumedOf, searchesOk]

@[simp] theorem view_searched (s : IterState σ) : (s.note (.searched true)).view = s.view := by
  simp [view, note, ransOf, consumedOf, searchesOk]

theorem view_searched_false (s : IterState σ) :
    (s.note (.searched false)).view = s.view.fault := by
  simp [view, note, ransOf, consumedOf, searchesOk, NestView.fault]

@[simp] theorem view_erase (s : IterState σ) (x : TuplePtr) : (s.erase x).view = s.view := by
  unfold erase
  dsimp only
  split <;> simp [view, setSlot, note, ransOf, consumedOf, searchesOk]

theorem view_consume (s : IterState σ) (pending : List TuplePtr) (x : TuplePtr) :
    (s.consume pending x).view = s.view.consume [x] := by
  rw [consume, view_erase]
  simp [view, note, ransOf, consumedOf, searchesOk, NestView.consume]

@[simp] theorem view_push (s : IterState σ) (this isCycle : Bool) (new old : ℕ) :
    (s.push this isCycle new old).view = s.view := rfl

@[simp] theorem view_pop (s : IterState σ) (isLinear : Bool) (depth : ℕ) :
    (s.pop isLinear depth).view = s.view := rfl

@[simp] theorem view_setTuple (s : IterState σ) (reg : ℕ) (x : TuplePtr) (isLinearPred : Bool) :
    (s.setTuple reg x isLinearPred).view = s.view := rfl

end IterState

end Meld
