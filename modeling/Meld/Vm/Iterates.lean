import Mathlib.Logic.Function.Basic
import Meld.Db.TrieSearch
import Meld.Lib.HashTree
import Meld.Vm.LinearIter

/-!
# The iterate instructions

A rule body is compiled to nested iterates.  Each one goes through the tuples of a predicate, puts
one after the other into its register and runs its body on it; what the body returns decides whether
the tuple is consumed and whether the iterate goes on or returns too.  The decision is spread over
the iterates, a flag `is_linear` that each of them sets and restores, and the dispatch of the
instruction.

* `TuplePtr`, `TupleSlot`, `IterState`: tuples are pointers; the state has the registers, the bitmap
  `tuple_regs` of those that hold linear tuples, the linear predicates, each stored as a list or as
  a hash table, and the contents of the tuples.
* `IterEvent`: what happens is written to a log, together with what is needed to judge it: which
  tuples the enclosing iterates hold, and which an enclosing ordered iterate has still to offer.
* `IterCode`: iterates and `ADDLINEAR`, with plain instructions between them as functions on the
  rest of the state.
* `executePersIter`, `executeLinearIter`, `executeRlinearIter`, `executeOlinearIter`,
  `executeOrlinearIter`: the iterates.
* `IterCode.exec`: the interpreter.

New facts wait in `generated` until the rule is done, but `ADDLINEAR` puts a tuple into the store at
once, and may turn a list into a hash table.  An iterate is followed here as a loop over the tuples
that its list or its bucket lists have at the start, which passes over those that have left in the
meantime: this is what it does unless a tuple is added to its predicate.  The log tells when that
happens, and when an iterate reads a hash table as a list or a bucket list that has been freed.
-/

namespace Meld

open HashTree

/-- A `vm::tuple *`: the predicate of the tuple and its number. -/
structure TuplePtr where
  pred : ℕ
  id : ℕ
  deriving DecidableEq

/-- What an execution does. -/
inductive IterEvent where
  /-- Plain code that ends in a return has run, inside iterates that hold these tuples. -/
  | ran (tuples : List TuplePtr) (ret : ReturnType)
  /-- An iterate over a linear predicate has started; `clean` if no marked register below its own,
  other than those of enclosing iterates, points at a tuple of its list. -/
  | entered (clean : Bool)
  /-- A stored matching tuple was passed over; `held` if an enclosing iterate holds it in a lower
  register. -/
  | skipped (x : TuplePtr) (held : Bool)
  /-- A body is run on the tuple; `alive` if the tuple is stored. -/
  | offered (x : TuplePtr) (alive : Bool)
  /-- The tuple leaves its list: consumed, or updated and moved to the generated facts; `pending` if
  an enclosing ordered iterate has collected it and not yet offered it. -/
  | removed (x : TuplePtr) (alive pending consumed : Bool)
  /-- A search of the trie of a persistent predicate came to its end, or not. -/
  | searched (ok : Bool)
  /-- A bucket list was looked up; `complete` if it has all matching tuples of the predicate. -/
  | lookedUp (complete : Bool)
  /-- A hash table was read as a list, or a bucket list after it had been freed. -/
  | misread
  /-- A tuple was taken out of a hash table; `intact` if all others are still in it. -/
  | unlinked (intact : Bool)
  /-- A tuple was added; `under` if an enclosing iterate goes through its predicate. -/
  | added (x : TuplePtr) (under : Bool)
  deriving DecidableEq

/-- The hash table of a predicate, as a tree of buckets. -/
def valueScheme : Scheme Value where
  hash := hashField
  same := sameField0
  width := Hash.prime
  slot id := Hash.modHash (id &&& Hash.subhashMask)
  slot_lt := Hash.digit_lt
  rest id := id >>> Hash.subhashShift
  threshold := Hash.createHashtableThreshold
  levels := Hash.maxLevels
  counter := 2 ^ 16

/-- The slot of a predicate in `linear_store`; the bitmap `types` tells the two kinds apart. -/
inductive TupleSlot where
  | list (xs : List TuplePtr)
  | table (t : Tree Value TuplePtr)

namespace TupleSlot

/-- The tuples, in the order in which an iterate meets them. -/
def tuples : TupleSlot → List TuplePtr
  | .list xs => xs
  | .table t => items valueScheme t

/-- `stored_as_hash_table`. -/
def isTable : TupleSlot → Bool
  | .list _ => false
  | .table _ => true

/-- `erase` from the list, or from the bucket list of the tuple. -/
def erase (x : TuplePtr) : TupleSlot → TupleSlot
  | .list xs => .list (xs.erase x)
  | .table t => .table (eraseItem valueScheme x t)

/-- Tuples with these keys are inserted. -/
def insertAll (key : TuplePtr → Value) (t : Tree Value TuplePtr) (xs : List TuplePtr) :
    Tree Value TuplePtr :=
  xs.foldl (fun t x => insert valueScheme (key x) x t) t

/-- `add_fact`, `add_fact_list` and `increment_database`: the list of a predicate with a hashed
field becomes a hash table when it would get too long. -/
def add (isHashTable : Bool) (key : TuplePtr → Value) (xs : List TuplePtr) : TupleSlot → TupleSlot
  | .table t => .table (insertAll key t xs)
  | .list ys =>
    if isHashTable && decide (Hash.createHashtableThreshold ≤ ys.length + xs.length) then
      .table (insertAll key (insertAll key HashTree.empty ys) xs)
    else .list (ys ++ xs)

end TupleSlot

/-- The state of the interpreter, as far as iterates go.  `env` is everything else. -/
structure IterState (σ : Type) where
  isLinear : Bool
  depth : ℕ
  regs : ℕ → Option TuplePtr
  tupleRegs : ℕ → Bool
  updatedMap : ℕ → Bool
  slots : ℕ → TupleSlot
  generated : List TuplePtr
  content : TuplePtr → Tuple
  env : σ
  log : List IterEvent

/-- What the iterates read besides the state: the search of the persistent tuples that match, `none`
when it reads through a wrong pointer, the least depth of a persistent tuple, the cycle predicates,
and the predicates with a hashed field. -/
structure IterContext where
  search : ℕ → MatchObject → Option (List TuplePtr)
  minDepth : TuplePtr → ℕ
  isCycle : ℕ → Bool
  isHashTable : ℕ → Bool
  hashedField : ℕ → ℕ

/-- The order in which an ordered iterate offers its candidates, by chance or by a field. -/
structure Selector (σ : Type) where
  pick : IterState σ → List TuplePtr → List TuplePtr
  perm : ∀ s xs, (pick s xs).Perm xs

/-- The iterate instructions. -/
inductive IterKind (σ : Type) where
  | pers
  | linear
  | rlinear
  | olinear (sel : Selector σ)
  | orlinear (sel : Selector σ)

/-- An iterate instruction: its kind, its predicate and its register, and the match object as a
function of the state and of the tuples of the enclosing iterates. -/
structure Iterate (σ : Type) where
  kind : IterKind σ
  pred : ℕ
  reg : ℕ
  pattern : σ → List Tuple → MatchObject

/-- Code.  Plain instructions are functions of the state and of the tuples of the enclosing
iterates. -/
inductive IterCode (σ : Type) where
  /-- a return -/
  | ret (ret : ReturnType)
  /-- plain code up to a return -/
  | leaf (f : σ → List Tuple → σ × ReturnType)
  /-- plain code up to a conditional jump -/
  | test (f : σ → List Tuple → σ × Bool) (yes no : IterCode σ)
  /-- `UPDATE` of the tuple in a register, and the writes to its fields -/
  | update (reg : ℕ) (f : σ → Tuple → Tuple) (next : IterCode σ)
  /-- `ADDLINEAR` of a new tuple -/
  | add (f : σ → List Tuple → TuplePtr × Tuple) (next : IterCode σ)
  /-- an iterate with its body, and the code behind it -/
  | iter (it : Iterate σ) (body next : IterCode σ)

namespace IterState

variable {σ : Type}

/-- The stored tuples of a predicate. -/
def store (s : IterState σ) (pred : ℕ) : List TuplePtr := (s.slots pred).tuples

/-- `tuple_is_used`: a register below `reg` that is marked in `tuple_regs` has the tuple. -/
def tupleIsUsed (s : IterState σ) (x : TuplePtr) (reg : ℕ) : Bool :=
  (List.range reg).any fun r => s.tupleRegs r && decide (s.regs r = some x)

/-- Write to the log. -/
def note (s : IterState σ) (e : IterEvent) : IterState σ := { s with log := s.log ++ [e] }

/-- `PUSH_CURRENT_STATE`. -/
def push (s : IterState σ) (thisIsLinear isCycle : Bool) (newDepth oldDepth : ℕ) : IterState σ :=
  { s with
    isLinear := thisIsLinear || s.isLinear
    depth := if isCycle then max (newDepth + 1) oldDepth else oldDepth }

/-- `POP_STATE`. -/
def pop (s : IterState σ) (oldIsLinear : Bool) (oldDepth : ℕ) : IterState σ :=
  { s with isLinear := oldIsLinear, depth := oldDepth }

/-- The head of `execute`: the tuple goes to its register, which is marked if the predicate is
linear. -/
def setTuple (s : IterState σ) (reg : ℕ) (x : TuplePtr) (isLinearPred : Bool) : IterState σ :=
  { s with
    regs := Function.update s.regs reg (some x)
    tupleRegs := if isLinearPred then Function.update s.tupleRegs reg true else s.tupleRegs }

/-- The slot of the predicate has changed. -/
def setSlot (s : IterState σ) (pred : ℕ) (slot : TupleSlot) : IterState σ :=
  { s with slots := Function.update s.slots pred slot }

/-- `erase` from the list of the predicate, or `erase_from_list` from its hash table. -/
def erase (s : IterState σ) (x : TuplePtr) : IterState σ :=
  let slot := (s.slots x.pred).erase x
  if (s.slots x.pred).isTable then
    (s.note (.unlinked ((s.store x.pred).all fun y =>
      decide (y = x) || decide (y ∈ slot.tuples)))).setSlot x.pred slot
  else s.setSlot x.pred slot

/-- The tuple is stored. -/
def alive (s : IterState σ) (x : TuplePtr) : Bool := decide (x ∈ s.store x.pred)

/-- The tuple is erased and destroyed. -/
def consume (s : IterState σ) (pending : List TuplePtr) (x : TuplePtr) : IterState σ :=
  (s.note (.removed x (s.alive x) (decide (x ∈ pending)) true)).erase x

/-- The end of a round of `execute_olinear_iter` whose body has succeeded: the tuple is erased from
a list. -/
def consumeOrdered (s : IterState σ) (pending : List TuplePtr) (x : TuplePtr) : IterState σ :=
  if (s.slots x.pred).isTable then s.note .misread else s.consume pending x

/-- New tuples are put into the slots of their predicates. -/
def addFacts (C : IterContext) (s : IterState σ) (xs : List TuplePtr) : IterState σ :=
  { s with
    slots := fun p => (s.slots p).add (C.isHashTable p)
      (fun x => getField (C.hashedField p) (s.content x)) (xs.filter fun x => decide (x.pred = p)) }

/-- The end of a round of `execute_linear_iter_list` whose body has succeeded: an updated tuple goes
to the generated facts, or stays if the iterate is the outermost; any other is consumed. -/
def finishLinear (s : IterState σ) (pending : List TuplePtr) (reg : ℕ) (x : TuplePtr) :
    IterState σ :=
  if s.updatedMap reg then
    let s := { s with updatedMap := Function.update s.updatedMap reg false }
    if reg > 0 then
      let s := (s.note (.removed x (s.alive x) (decide (x ∈ pending)) false)).erase x
      { s with generated := s.generated ++ [x] }
    else s
  else s.consume pending x

end IterState

/-- The enclosing iterates, outermost first: their registers and the tuples they hold. -/
abbrev Enclosing := List (ℕ × TuplePtr)

/-- An enclosing iterate holds the tuple in a lower register. -/
def Enclosing.holds (E : Enclosing) (reg : ℕ) (x : TuplePtr) : Bool :=
  E.any fun e => decide (e.1 < reg) && decide (e.2 = x)

/-- The body of an iterate as a function of the candidates that enclosing ordered iterates have
still to offer, of the tuple and of the state. -/
abbrev IterBody (σ : Type) := List TuplePtr → TuplePtr → IterState σ → IterState σ × ReturnType

section Iterates

variable {σ : Type} (C : IterContext)

/-- The test that ends an iterate: `RETURN_LINEAR` always does, `RETURN_DERIVED` inside a consuming
iterate. -/
def endsIterate (oldIsLinear : Bool) (ret : ReturnType) : Bool :=
  ret == .linear || (oldIsLinear && ret == .derived)

/-- One run of the body, between `PUSH_CURRENT_STATE` and `POP_STATE`. -/
def runBody (it : Iterate σ) (thisIsLinear isLinearPred oldIsLinear : Bool) (oldDepth : ℕ)
    (body : IterBody σ) (pending : List TuplePtr) (x : TuplePtr) (newDepth : ℕ) (alive : Bool)
    (s : IterState σ) : IterState σ × ReturnType :=
  let s := (s.note (.offered x alive)).push thisIsLinear (C.isCycle it.pred) newDepth oldDepth
  let r := body pending x (s.setTuple it.reg x isLinearPred)
  (r.1.pop oldIsLinear oldDepth, r.2)

/-- The loop of `execute_pers_iter`. -/
def persLoop (it : Iterate σ) (oldIsLinear : Bool) (oldDepth : ℕ) (body : IterBody σ)
    (pending : List TuplePtr) : List TuplePtr → IterState σ → IterState σ × ReturnType
  | [], s => (s, .noReturn)
  | x :: rest, s =>
    let r := runBody C it false false oldIsLinear oldDepth body pending x (C.minDepth x) true s
    if endsIterate oldIsLinear r.2 then r
    else persLoop it oldIsLinear oldDepth body pending rest r.1

/-- `execute_pers_iter`. -/
def executePersIter (it : Iterate σ) (m : MatchObject) (body : IterBody σ)
    (pending : List TuplePtr) (s : IterState σ) : IterState σ × ReturnType :=
  match C.search it.pred m with
  | none => (s.note (.searched false), .noReturn)
  | some xs =>
    persLoop C it s.isLinear s.depth body pending xs (s.note (.searched true))

/-- The loop of `execute_linear_iter_list` and `execute_rlinear_iter_list`, over the tuples of a
list. -/
def listLoop (it : Iterate σ) (consumes : Bool) (E : Enclosing) (m : MatchObject)
    (oldIsLinear : Bool) (oldDepth : ℕ) (body : IterBody σ) (pending : List TuplePtr) :
    List TuplePtr → IterState σ → IterState σ × ReturnType
  | [], s => (s, .noReturn)
  | x :: rest, s =>
    if !s.alive x then
      listLoop it consumes E m oldIsLinear oldDepth body pending rest s
    else if s.tupleIsUsed x it.reg then
      listLoop it consumes E m oldIsLinear oldDepth body pending rest
        (if doMatches m (s.content x) then s.note (.skipped x (E.holds it.reg x)) else s)
    else if !doMatches m (s.content x) then
      listLoop it consumes E m oldIsLinear oldDepth body pending rest s
    else
      let r := runBody C it consumes true oldIsLinear oldDepth body pending x 0 true s
      let s := if consumes && r.2.toFinish then r.1.finishLinear pending it.reg x else r.1
      if endsIterate oldIsLinear r.2 then (s, r.2)
      else listLoop it consumes E m oldIsLinear oldDepth body pending rest s

/-- These tuples are passed over. -/
def IterState.noteSkipped (s : IterState σ) (it : Iterate σ) (E : Enclosing)
    (xs : List TuplePtr) : IterState σ :=
  xs.foldl (fun s x => s.note (.skipped x (E.holds it.reg x))) s

/-- No marked register below that of the iterate, other than those of enclosing iterates, points at
a tuple of the list. -/
def cleanBelow (it : Iterate σ) (E : Enclosing) (s : IterState σ) : Bool :=
  (List.range it.reg).all fun r =>
    !s.tupleRegs r || E.any (fun e => decide (e.1 = r)) ||
      (s.store it.pred).all fun x => decide (s.regs r ≠ some x)

/-- The start of an iterate over a linear predicate. -/
def IterState.enterLinear (s : IterState σ) (it : Iterate σ) (E : Enclosing) : IterState σ :=
  s.note (.entered (cleanBelow it E s))

/-- The loop over the bucket lists of a hash table.  A list that has been freed before the loop
comes to it is passed over; the step from a list that has been freed reads it. -/
def tableLoop (it : Iterate σ) (consumes : Bool) (E : Enclosing) (m : MatchObject)
    (oldIsLinear : Bool) (oldDepth : ℕ) (body : IterBody σ) (pending : List TuplePtr) :
    List (List TuplePtr) → IterState σ → IterState σ × ReturnType
  | [], s => (s, .noReturn)
  | xs :: rest, s =>
    if !xs.any s.alive then tableLoop it consumes E m oldIsLinear oldDepth body pending rest s
    else
      let r := listLoop C it consumes E m oldIsLinear oldDepth body pending xs s
      if r.2 ≠ .noReturn then r
      else if !xs.any r.1.alive then (r.1.note .misread, .noReturn)
      else tableLoop it consumes E m oldIsLinear oldDepth body pending rest r.1

/-- The `tuple_field` that the hashed field is matched with. -/
def lookupField (pred : ℕ) (m : MatchObject) : Option Value :=
  match m.fields.getD (C.hashedField pred) (.any .int) with
  | .any _ => none
  | .int i => some (.int i)
  | .float x => some (.float x)
  | .node n => some (.node n)
  | .nil _ => some .nil
  | .nonNil _ => some (.cons .nil .nil)
  | .list _ _ _ => some (.cons .nil .nil)

/-- The tuples `xs` have been looked up: all others are passed over. -/
def IterState.lookUp (s : IterState σ) (it : Iterate σ) (E : Enclosing) (m : MatchObject)
    (xs : List TuplePtr) : IterState σ :=
  let missed := (s.store it.pred).filter fun x => decide (x ∉ xs) && doMatches m (s.content x)
  (s.note (.lookedUp missed.isEmpty)).noteSkipped it E missed

/-- The common form of `execute_linear_iter` and `execute_rlinear_iter`. -/
def executeStoredIter (it : Iterate σ) (consumes : Bool) (E : Enclosing) (m : MatchObject)
    (body : IterBody σ) (pending : List TuplePtr) (s : IterState σ) : IterState σ × ReturnType :=
  match s.slots it.pred with
  | .list xs => listLoop C it consumes E m s.isLinear s.depth body pending xs (s.enterLinear it E)
  | .table t =>
    match lookupField C it.pred m with
    | some v =>
      let xs := lookupItems valueScheme v t
      listLoop C it consumes E m s.isLinear s.depth body pending xs
        ((s.enterLinear it E).lookUp it E m xs)
    | none =>
      tableLoop C it consumes E m s.isLinear s.depth body pending
        ((walk valueScheme t).map Prod.snd) (s.enterLinear it E)

/-- On a list, it is the loop over its tuples. -/
theorem executeStoredIter_of_list {it : Iterate σ} {s : IterState σ} {xs : List TuplePtr}
    (hs : s.slots it.pred = .list xs) (consumes : Bool) (E : Enclosing) (m : MatchObject)
    (body : IterBody σ) (pending : List TuplePtr) :
    executeStoredIter C it consumes E m body pending s =
      listLoop C it consumes E m s.isLinear s.depth body pending xs (s.enterLinear it E) := by
  rw [executeStoredIter, hs]

/-- `execute_linear_iter`. -/
def executeLinearIter (it : Iterate σ) (E : Enclosing) (m : MatchObject) (body : IterBody σ)
    (pending : List TuplePtr) (s : IterState σ) : IterState σ × ReturnType :=
  executeStoredIter C it true E m body pending s

/-- `execute_rlinear_iter`. -/
def executeRlinearIter (it : Iterate σ) (E : Enclosing) (m : MatchObject) (body : IterBody σ)
    (pending : List TuplePtr) (s : IterState σ) : IterState σ × ReturnType :=
  executeStoredIter C it false E m body pending s

/-- The loop of `execute_olinear_iter` and `execute_orlinear_iter`, over the candidates. -/
def orderedLoop (it : Iterate σ) (consumes : Bool) (E : Enclosing) (oldIsLinear : Bool)
    (oldDepth : ℕ) (body : IterBody σ) (pending : List TuplePtr) :
    List TuplePtr → IterState σ → IterState σ × ReturnType
  | [], s => (s, .noReturn)
  | x :: rest, s =>
    if s.tupleIsUsed x it.reg then
      orderedLoop it consumes E oldIsLinear oldDepth body pending rest
        (s.note (.skipped x (E.holds it.reg x)))
    else
      let r := runBody C it consumes true oldIsLinear oldDepth body (rest ++ pending) x 0
        (s.alive x) s
      let s := if consumes && r.2.toFinish then r.1.consumeOrdered pending x else r.1
      if endsIterate oldIsLinear r.2 then (s, r.2)
      else orderedLoop it consumes E oldIsLinear oldDepth body pending rest s

/-- The first loop of an ordered iterate: the tuples that are passed over. -/
def noteUsed (it : Iterate σ) (E : Enclosing) (m : MatchObject) (s : IterState σ) : IterState σ :=
  s.noteSkipped it E ((s.store it.pred).filter fun x =>
    s.tupleIsUsed x it.reg && doMatches m (s.content x))

/-- The first loop of an ordered iterate: the candidates. -/
def candidates (it : Iterate σ) (m : MatchObject) (s : IterState σ) : List TuplePtr :=
  (s.store it.pred).filter fun x => !s.tupleIsUsed x it.reg && doMatches m (s.content x)

/-- The common form of the ordered iterates.  They take the slot of the predicate with
`get_linked_list`, without asking what it holds. -/
def executeOrderedIter (it : Iterate σ) (sel : Selector σ) (consumes : Bool) (E : Enclosing)
    (m : MatchObject) (body : IterBody σ) (pending : List TuplePtr) (s : IterState σ) :
    IterState σ × ReturnType :=
  if (s.slots it.pred).isTable then ((s.enterLinear it E).note .misread, .noReturn)
  else
    orderedLoop C it consumes E s.isLinear s.depth body pending (sel.pick s (candidates it m s))
      (noteUsed it E m (s.enterLinear it E))

/-- `execute_olinear_iter`. -/
def executeOlinearIter (it : Iterate σ) (sel : Selector σ) (E : Enclosing) (m : MatchObject)
    (body : IterBody σ) (pending : List TuplePtr) (s : IterState σ) :
    IterState σ × ReturnType :=
  executeOrderedIter C it sel true E m body pending s

/-- `execute_orlinear_iter`. -/
def executeOrlinearIter (it : Iterate σ) (sel : Selector σ) (E : Enclosing) (m : MatchObject)
    (body : IterBody σ) (pending : List TuplePtr) (s : IterState σ) :
    IterState σ × ReturnType :=
  executeOrderedIter C it sel false E m body pending s

/-- An iterate instruction, up to the value its routine returns. -/
def executeIter (it : Iterate σ) (E : Enclosing) (body : IterBody σ) (pending : List TuplePtr)
    (s : IterState σ) : IterState σ × ReturnType :=
  let m := it.pattern s.env (E.map fun e => s.content e.2)
  match it.kind with
  | .pers => executePersIter C it m body pending s
  | .linear => executeLinearIter C it E m body pending s
  | .rlinear => executeRlinearIter C it E m body pending s
  | .olinear sel => executeOlinearIter C it sel E m body pending s
  | .orlinear sel => executeOrlinearIter C it sel E m body pending s

/-- `execute`.  `DECIDE_NEXT_ITER_INSTR` stands behind an iterate: it returns `RETURN_LINEAR`, and
`RETURN_DERIVED` if the flag is set, and else the code behind the iterate is next. -/
def IterCode.exec : IterCode σ → Enclosing → List TuplePtr → IterState σ → IterState σ × ReturnType
  | .ret r, _, _, s => (s, r)
  | .leaf f, E, _, s =>
    let r := f s.env (E.map fun e => s.content e.2)
    ({ s.note (.ran (E.map Prod.snd) r.2) with env := r.1 }, r.2)
  | .test f yes no, E, pending, s =>
    let r := f s.env (E.map fun e => s.content e.2)
    if r.2 then yes.exec E pending { s with env := r.1 }
    else no.exec E pending { s with env := r.1 }
  | .update reg f next, E, pending, s =>
    match s.regs reg with
    | none => next.exec E pending s
    | some x =>
      next.exec E pending
        { s with
          content := Function.update s.content x (f s.env (s.content x))
          updatedMap := Function.update s.updatedMap reg true }
  | .add f next, E, pending, s =>
    let r := f s.env (E.map fun e => s.content e.2)
    -- the address of a tuple in use cannot be that of a new one
    if r.1 ∈ s.store r.1.pred ∨ r.1 ∈ s.generated then next.exec E pending s
    else
      let s := s.note (.added r.1 (E.any fun e => decide (e.2.pred = r.1.pred)))
      next.exec E pending
        (({ s with content := Function.update s.content r.1 r.2 }).addFacts C [r.1])
  | .iter it body next, E, pending, s =>
    let r := executeIter C it E (fun pending x s => body.exec (E ++ [(it.reg, x)]) pending s)
      pending s
    if r.2 = .linear then r
    else if r.2 = .derived ∧ r.1.isLinear = true then r
    else next.exec E pending r.1

end Iterates

end Meld
