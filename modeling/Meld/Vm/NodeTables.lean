import Meld.Lib.Agree
import Meld.Thread.NodeRanges
import Meld.Vm.Instr

/-!
# Tables of nodes in the byte code

The instructions `SELECT` and `NODE_TYPE` carry a table with one entry for each initial node, and
look up the entry of the node that a rule runs on.  That may be a node which was created during the
run, or the node of a thread, whose identifiers lie behind those of the initial nodes.  `SELECT`
asks first if the node is an initial one.  `NODE_TYPE` does not, and reads the byte code behind its
table; the function that compiled programs call for this, `read_node_type`, compares with the number
of entries.

* `executeSelect`, `executeNodeType`, `readNodeType`: the functions, with the entries they look up.
* `TableOp`, `tableMachine`: runs in which nodes are created and deleted and the instructions are
  executed.
* `Respects`: an instruction stays in its table and has the right result.
* `Covered`: the entry of the node is in the table, or not asked for.
* `table_accesses_iff`: the instructions of a run respect their tables exactly if all are covered.
-/

namespace Meld
namespace NodeTables

open Instr

/-! ## The instructions -/

/-- `select_size`. -/
def selectSize (code : Code) (pc : ℕ) : ℕ := pcounterUint code (pc + instrSize)

/-- `select_hash_start`. -/
def selectHashStart (pc : ℕ) : ℕ := pc + selectBase

/-- `select_hash`. -/
def selectHash (code : Code) (hashStart val : ℕ) : ℕ :=
  pcounterUint code (hashStart + codeSizeT * val)

/-- `select_hash_code`. -/
def selectHashCode (hashStart hashSize hashed : ℕ) : ℕ :=
  hashStart + hashSize * codeSizeT + hashed - 1

/-- `execute_select`: where execution goes on, and the entries that were looked up. -/
def executeSelect (code : Code) (staticMaxId id : BitVec 64) (pc : ℕ) : ℕ × List ℕ :=
  if id > staticMaxId then (pc + selectSize code pc, [])
  else
    let hashStart := selectHashStart pc
    let hashed := selectHash code hashStart id.toNat
    -- no specific code
    (if hashed = 0 then pc + selectSize code pc
      else selectHashCode hashStart (selectHashSize code pc) hashed, [id.toNat])

/-- `execute_node_type`: the value, and the entries that were looked up. -/
def executeNodeType (code : Code) (id : BitVec 64) (pc : ℕ) : ℕ × List ℕ :=
  let pc := pc + nodeTypeBase
  ((code (pc + id.toNat)).toNat, [id.toNat])

/-- `read_node_type`, on a table. -/
def readNodeType (table : ℕ → UInt8) (numNodes : ℕ) (id : BitVec 64) : ℕ :=
  if numNodes ≤ id.toNat then 0 else (table id.toNat).toNat

/-- The table of a `NODE_TYPE` instruction. -/
def nodeTypeTable (code : Code) (pc : ℕ) (i : ℕ) : UInt8 := code (pc + nodeTypeBase + i)

/-! ## Runs -/

/-- A node: an initial one by its identifier, or one that was created by its address. -/
inductive NodeRef where
  | initial (id : BitVec 64)
  | created (address : ℕ)

/-- What happens in a run: the nodes change, or an instruction is executed for a node. -/
inductive TableOp (τ : Type*) where
  | ids (e : IdsEvent τ)
  | select (n : NodeRef) (pc : ℕ)
  | nodeType (n : NodeRef) (pc : ℕ)

/-- What an instruction did, with the entries that it looked up. -/
inductive TableResult where
  | ids
  | select (next : ℕ) (entries : List ℕ)
  | nodeType (value : ℕ) (entries : List ℕ)

section Runs

variable {τ : Type*} [DecidableEq τ]

/-- `get_id`, for a node in use. -/
def nodeId (s : IdsState τ) : NodeRef → Option (BitVec 64)
  | .initial id => (s.db.nodes id).map fun _ => id
  | .created p => if p ∈ s.live then (s.mem p).map DynNode.id else none

/-- The runs of a program. -/
def tableMachine (code : Code) (staticMaxId : BitVec 64) :
    Machine (TableOp τ) TableResult (IdsState τ) where
  step s
    | .ids e => (s.step e).map fun s => (.ids, s)
    | .select n pc => (nodeId s n).map fun id =>
      let r := executeSelect code staticMaxId id pc
      (.select r.1 r.2, s)
    | .nodeType n pc => (nodeId s n).map fun id =>
      let r := executeNodeType code id pc
      (.nodeType r.1 r.2, s)

/-- The entries are in the table, and a type is the one that `read_node_type` gives. -/
def Respects (code : Code) (s : IdsState τ) : TableOp τ → TableResult → Prop
  | .select _ pc, .select _ entries => ∀ i ∈ entries, i < selectHashSize code pc
  | .nodeType n pc, .nodeType value entries =>
    (∀ i ∈ entries, i < nodeTypeCount code pc) ∧
      ∀ id, nodeId s n = some id →
        value = readNodeType (nodeTypeTable code pc) (nodeTypeCount code pc) id
  | _, _ => True

/-- A node that `SELECT` is executed for was created later or has an entry, and a node that
`NODE_TYPE` is executed for has an entry. -/
def Covered (code : Code) (staticMaxId : BitVec 64) (s : IdsState τ) : TableOp τ → Prop
  | .ids _ => True
  | .select n pc => ∀ id, nodeId s n = some id →
    staticMaxId < id ∨ id.toNat < selectHashSize code pc
  | .nodeType n pc => ∀ id, nodeId s n = some id → id.toNat < nodeTypeCount code pc

theorem executeSelect_entries_iff (code : Code) (staticMaxId id : BitVec 64) (pc : ℕ) :
    (∀ i ∈ (executeSelect code staticMaxId id pc).2, i < selectHashSize code pc) ↔
      staticMaxId < id ∨ id.toNat < selectHashSize code pc := by
  rw [executeSelect]
  split
  · rename_i hgt
    exact iff_of_true nofun (Or.inl hgt)
  · rename_i hgt
    rw [or_iff_right hgt]
    exact List.forall_mem_singleton

/-- In its table, `NODE_TYPE` gives what `read_node_type` gives. -/
theorem executeNodeType_eq {code : Code} {id : BitVec 64} {pc : ℕ}
    (h : id.toNat < nodeTypeCount code pc) :
    (executeNodeType code id pc).1 =
      readNodeType (nodeTypeTable code pc) (nodeTypeCount code pc) id :=
  (if_neg (Nat.not_le.2 h)).symm

/-- **One step.** -/
theorem respects_iff (code : Code) (staticMaxId : BitVec 64) (s : IdsState τ) (op : TableOp τ) :
    (∀ r, (tableMachine code staticMaxId).step s op = some r → Respects code s op r.1) ↔
      Covered code staticMaxId s op := by
  cases op with
  | ids e =>
    refine iff_of_true (fun r hr => ?_) trivial
    obtain ⟨s', -, rfl⟩ := Option.map_eq_some_iff.1 hr
    trivial
  | select n pc =>
    constructor
    · intro h id hid
      exact (executeSelect_entries_iff code staticMaxId id pc).1 (h _ (congrArg (Option.map _) hid))
    · intro h r hr
      obtain ⟨id, hid, rfl⟩ := Option.map_eq_some_iff.1 hr
      exact (executeSelect_entries_iff code staticMaxId id pc).2 (h id hid)
  | nodeType n pc =>
    constructor
    · intro h id hid
      exact (h _ (congrArg (Option.map _) hid)).1 _ List.mem_cons_self
    · intro h r hr
      obtain ⟨id, hid, rfl⟩ := Option.map_eq_some_iff.1 hr
      refine ⟨List.forall_mem_singleton.2 (h id hid), fun id' hid' => ?_⟩
      obtain rfl := Option.some.inj (hid.symm.trans hid')
      exact executeNodeType_eq (h id hid)

end Runs

/-- **The tables in a run**: in every run of a program, from the nodes that its database was made
with, the instructions stay in their tables and have the right results exactly if the nodes that
they are executed for are covered. -/
theorem table_accesses_iff {τ : Type*} [DecidableEq τ] (code : Code)
    (pairs : List (BitVec 64 × BitVec 64)) (ops : List (TableOp τ)) :
    (tableMachine code (NodeDatabase.read pairs).maxNodeId).Along
        (fun s op => ∀ r, (tableMachine code (NodeDatabase.read pairs).maxNodeId).step s op =
          some r → Respects code s op r.1)
        (IdsState.init pairs) ops ↔
      (tableMachine code (NodeDatabase.read pairs).maxNodeId).Along
        (Covered code (NodeDatabase.read pairs).maxNodeId) (IdsState.init pairs) ops :=
  Machine.along_congr (respects_iff code (NodeDatabase.read pairs).maxNodeId)

/-- The code of `NODE_TYPE` with a table for one node, whose type is 5, and a byte behind it. -/
def oneNodeCode : Code := fun i => [0xbf, 0, 1, 0, 0, 0, 5, 9].getD i 0

/-- A thread creates a node and asks for its type. -/
def createdRun : List (TableOp Unit) :=
  [.ids (.start ()), .ids (.create ()), .ids (.next ()), .ids (.fresh () 1),
    .nodeType (.created 1) 0]

/-- **A node that was created** has the byte behind the table as its type. -/
theorem not_respects_created :
    ¬ (tableMachine oneNodeCode (NodeDatabase.read [(0, 0)]).maxNodeId).Along
      (fun s op => ∀ r, (tableMachine oneNodeCode (NodeDatabase.read [(0, 0)]).maxNodeId).step s op =
        some r → Respects oneNodeCode s op r.1)
      (IdsState.init [(0, 0)]) createdRun := by
  intro h
  have hnode := ((((h.2 _ rfl).2 _ rfl).2 _ rfl).2 _ rfl).1 _ rfl
  exact absurd (hnode.1 1 List.mem_cons_self) (by decide)

/-! ## Tables for the initial nodes -/

section Sized

open IdsState

variable {τ : Type*} {code : Code} {pairs : List (BitVec 64 × BitVec 64)} {s s' : IdsState τ}
  {pc : ℕ}

variable [DecidableEq τ]

end Sized

end NodeTables
end Meld
