import Mathlib.Data.List.TakeDrop
import Mathlib.Data.Int.Basic

/-!
# The call stack

`vm::call_stack` grows downwards: its top is `size` words before the end of its buffer.  When the
buffer is full it is copied to the upper half of one of twice the size.  That is done once for every
push, and `PUSHN` can ask for more than the new half has room for.

* `CallStack`: the buffer with `push`, `pop`, `pushRegs` and `popRegs`.
* `StackOp`, `run`: the instructions, with the registers of the machine.
* `contents`, `Lifo`: the words of the stack, and what an operation does to them.
* `run_spec`: while every push fits in the doubled buffer, the stack fits in its buffer and is a
  LIFO.
-/

namespace Meld

/-- `NUM_REGS`. -/
def numRegs : ℕ := 32

/-- `vm::call_stack`. -/
structure CallStack (α : Type*) where
  vec : List α
  capacity : ℕ
  size : ℕ

namespace CallStack

variable {α : Type*} [Inhabited α]

/-- The constructor.  The words of a new buffer are not initialised. -/
def create : CallStack α := ⟨List.replicate (2 * numRegs) default, 2 * numRegs, 0⟩

/-- `expand`: the old words are copied behind as many new ones. -/
def expand (s : CallStack α) : CallStack α :=
  ⟨List.replicate s.capacity default ++ s.vec.take s.capacity, s.capacity * 2, s.size⟩

/-- `push`. -/
def push (howmany : ℕ) (s : CallStack α) : CallStack α :=
  let s := { s with size := s.size + howmany }
  if s.size > s.capacity then s.expand else s

/-- `pop`. -/
def pop (howmany : ℕ) (s : CallStack α) : CallStack α := { s with size := s.size - howmany }

/-- `get_stack_at`, as an index into the buffer. -/
def getStackAt (off : ℕ) (s : CallStack α) : ℤ := s.capacity - s.size + off

/-- A write through `get_stack_at`, of words that follow each other. -/
def store (off : ℕ) (ws : List α) (s : CallStack α) : Option (CallStack α) :=
  let i := s.getStackAt off
  if 0 ≤ i ∧ i + ws.length ≤ s.capacity then
    some { s with vec := s.vec.take i.toNat ++ ws ++ s.vec.drop (i.toNat + ws.length) }
  else none

/-- A read through `get_stack_at`, of `n` words. -/
def load (off n : ℕ) (s : CallStack α) : Option (List α) :=
  let i := s.getStackAt off
  if 0 ≤ i ∧ i + n ≤ s.capacity then some ((s.vec.drop i.toNat).take n) else none

/-- `push_regs`. -/
def pushRegs (regs : List α) (s : CallStack α) : Option (CallStack α) :=
  (s.push numRegs).store 0 regs

/-- `pop_regs`: the registers, and the stack. -/
def popRegs (s : CallStack α) : Option (List α × CallStack α) :=
  (s.load 0 numRegs).map fun regs => (regs, s.pop numRegs)

end CallStack

/-- The part of the machine that the instructions work on. -/
structure StackMachine (α : Type*) where
  stack : CallStack α
  regs : List α

/-- `PUSH` and `PUSHN`, `POP`, `PUSH_REGS`, `POP_REGS`, a move to the stack, and whatever else
changes the registers. -/
inductive StackOp (α : Type*) where
  | push (n : ℕ)
  | pop (n : ℕ)
  | pushRegs
  | popRegs
  | move (off : ℕ) (w : α)
  | setRegs (regs : List α)

namespace StackMachine

variable {α : Type*} [Inhabited α]

/-- One instruction. -/
def step (m : StackMachine α) : StackOp α → Option (StackMachine α)
  | .push n => some { m with stack := m.stack.push n }
  | .pop n => some { m with stack := m.stack.pop n }
  | .pushRegs => (m.stack.pushRegs m.regs).map fun s => { m with stack := s }
  | .popRegs => m.stack.popRegs.map fun r => ⟨r.2, r.1⟩
  | .move off w => (m.stack.store off [w]).map fun s => { m with stack := s }
  | .setRegs regs => some { m with regs := regs }

/-- A sequence of instructions. -/
def run (ops : List (StackOp α)) (m : StackMachine α) : Option (StackMachine α) :=
  ops.foldlM (fun m op => m.step op) m

end StackMachine

/-! ## The words of the stack -/

namespace CallStack

variable {α : Type*} [Inhabited α] {s s' : CallStack α}

/-- The words of the stack, the top first. -/
def contents (s : CallStack α) : List α := s.vec.drop (s.capacity - s.size)

/-- The buffer has its capacity, which is that of the first one at least, and the stack fits in
it. -/
structure Fits (s : CallStack α) : Prop where
  length : s.vec.length = s.capacity
  size : s.size ≤ s.capacity
  regs : 2 * numRegs ≤ s.capacity

omit [Inhabited α] in
theorem Fits.length_contents (h : s.Fits) : s.contents.length = s.size := by
  rw [contents, List.length_drop, h.length]
  exact Nat.sub_sub_self h.size

omit [Inhabited α] in
/-- The top is inside the buffer. -/
theorem Fits.getStackAt (h : s.Fits) (off : ℕ) :
    s.getStackAt off = ((s.capacity - s.size + off : ℕ) : ℤ) := by
  have hsize := h.size
  unfold CallStack.getStackAt
  omega

theorem fits_create : (create : CallStack α).Fits :=
  ⟨List.length_replicate, Nat.zero_le _, Nat.le_refl _⟩

omit [Inhabited α] in
/-- A list with more of its end. -/
theorem exists_drop_eq {v : List α} {c size n : ℕ} (hv : v.length = c) (hn : size + n ≤ c) :
    ∃ junk : List α, junk.length = n ∧ v.drop (c - (size + n)) = junk ++ v.drop (c - size) := by
  refine ⟨(v.drop (c - (size + n))).take n, ?_, ?_⟩
  · rw [List.length_take, List.length_drop, hv]
    omega
  · have hsplit : c - size = c - (size + n) + n := by omega
    rw [hsplit, ← List.drop_drop, List.take_append_drop]

omit [Inhabited α] in
/-- The words behind a new half. -/
theorem drop_expand {v : List α} {c size : ℕ} (hsize : size ≤ c) (d : α) :
    (List.replicate c d ++ v).drop (c * 2 - size) = v.drop (c - size) := by
  have hsplit : c * 2 - size = (List.replicate c d).length + (c - size) := by
    rw [List.length_replicate]
    omega
  rw [hsplit, ← List.drop_drop, List.drop_left]

/-- **A push** that has room after one expansion. -/
theorem Fits.push {n : ℕ} (h : s.Fits) (hn : s.size + n ≤ 2 * s.capacity) :
    (s.push n).Fits ∧ ∃ junk : List α, junk.length = n ∧ (s.push n).contents = junk ++ s.contents := by
  unfold CallStack.push
  by_cases hfull : s.size + n > s.capacity
  · have htake : s.vec.take s.capacity = s.vec := List.take_of_length_le (Nat.le_of_eq h.length)
    have hlength : (List.replicate s.capacity default ++ s.vec).length = s.capacity * 2 := by
      rw [List.length_append, List.length_replicate, h.length]
      omega
    obtain ⟨junk, hjunk, hdrop⟩ := exists_drop_eq hlength (show s.size + n ≤ s.capacity * 2 by omega)
    rw [drop_expand h.size] at hdrop
    simp only [if_pos hfull, expand, htake]
    refine ⟨⟨hlength, ?_, ?_⟩, junk, hjunk, hdrop⟩
    · show s.size + n ≤ s.capacity * 2
      omega
    · have hregs := h.regs
      show 2 * numRegs ≤ s.capacity * 2
      omega
  · simp only [if_neg hfull]
    refine ⟨⟨h.length, Nat.not_lt.1 hfull, h.regs⟩, ?_⟩
    exact exists_drop_eq h.length (Nat.not_lt.1 hfull)

omit [Inhabited α] in
/-- **A pop** of at most the stack. -/
theorem Fits.pop {n : ℕ} (h : s.Fits) (hn : n ≤ s.size) :
    (s.pop n).Fits ∧ (s.pop n).contents = s.contents.drop n := by
  refine ⟨⟨h.length, Nat.le_trans (Nat.sub_le _ _) h.size, h.regs⟩, ?_⟩
  have hsize := h.size
  have hsplit : s.capacity - (s.size - n) = s.capacity - s.size + n := by omega
  show s.vec.drop (s.capacity - (s.size - n)) = _
  rw [hsplit, contents, List.drop_drop]

omit [Inhabited α] in
/-- **A write** inside the stack. -/
theorem Fits.store {off : ℕ} {ws : List α} (h : s.Fits) (hws : off + ws.length ≤ s.size) :
    ∃ s', s.store off ws = some s' ∧ s'.Fits ∧ s'.size = s.size ∧
      s'.contents = s.contents.take off ++ ws ++ s.contents.drop (off + ws.length) := by
  have hsize := h.size
  have hbound : 0 ≤ s.getStackAt off ∧ s.getStackAt off + ws.length ≤ s.capacity := by
    rw [h.getStackAt]
    omega
  refine ⟨_, if_pos hbound, ⟨?_, hsize, h.regs⟩, rfl, ?_⟩
  · rw [h.getStackAt, Int.toNat_natCast]
    simp only [List.length_append, List.length_take, List.length_drop, h.length]
    omega
  · unfold contents
    simp only [h.getStackAt, Int.toNat_natCast]
    have hle : s.capacity - s.size ≤
        (s.vec.take (s.capacity - s.size + off)).length := by
      rw [List.length_take, h.length]
      omega
    rw [List.append_assoc, List.drop_append_of_le_length hle, ← List.append_assoc, List.drop_take,
      Nat.add_sub_cancel_left, List.drop_drop, Nat.add_assoc]

omit [Inhabited α] in
/-- **A read** inside the stack. -/
theorem Fits.load {off n : ℕ} (h : s.Fits) (hn : off + n ≤ s.size) :
    s.load off n = some ((s.contents.drop off).take n) := by
  have hsize := h.size
  have hbound : 0 ≤ s.getStackAt off ∧ s.getStackAt off + n ≤ s.capacity := by
    rw [h.getStackAt]
    omega
  unfold CallStack.load contents
  simp only [if_pos hbound]
  rw [h.getStackAt, Int.toNat_natCast, List.drop_drop]

theorem Fits.pushRegs {regs : List α} (h : s.Fits) (hregs : regs.length = numRegs) :
    ∃ s', s.pushRegs regs = some s' ∧ s'.Fits ∧ s'.contents = regs ++ s.contents := by
  have hroom : s.size + numRegs ≤ 2 * s.capacity := by
    have hsize := h.size
    have hcap := h.regs
    omega
  obtain ⟨hfits, junk, hjunk, hcontents⟩ := h.push hroom
  have hsize : 0 + regs.length ≤ (s.push numRegs).size := by
    rw [← hfits.length_contents, hcontents, List.length_append, hjunk, hregs]
    omega
  obtain ⟨s', hstore, hfits', -, hcontents'⟩ := hfits.store hsize
  refine ⟨s', hstore, hfits', ?_⟩
  rw [hcontents', hcontents, List.take_zero, List.nil_append, Nat.zero_add, hregs, ← hjunk,
    List.drop_left]

omit [Inhabited α] in
theorem Fits.popRegs (h : s.Fits) (hsize : numRegs ≤ s.size) :
    ∃ s', s.popRegs = some (s.contents.take numRegs, s') ∧ s'.Fits ∧
      s'.contents = s.contents.drop numRegs := by
  obtain ⟨hfits, hcontents⟩ := h.pop hsize
  refine ⟨s.pop numRegs, ?_, hfits, hcontents⟩
  rw [CallStack.popRegs, h.load (by omega)]
  rfl

end CallStack

/-! ## Runs -/

namespace StackMachine

variable {α : Type*} [Inhabited α] {m m' : StackMachine α}

/-- What the compiler promises: the operand of `PUSHN` is a byte, nothing is popped, restored or
written that is not on the stack, and there are `NUM_REGS` registers. -/
def Legal (m : StackMachine α) : StackOp α → Prop
  | .push n => n ≤ 255
  | .pop n => n ≤ m.stack.size
  | .pushRegs => True
  | .popRegs => numRegs ≤ m.stack.size
  | .move off _ => off < m.stack.size
  | .setRegs regs => regs.length = numRegs

/-- A push fits in a buffer of twice the size. -/
def HasRoom (m : StackMachine α) : StackOp α → Prop
  | .push n => m.stack.size + n ≤ 2 * m.stack.capacity
  | _ => True

/-- Every instruction is legal and has room when it is executed. -/
def RoomyRun : List (StackOp α) → StackMachine α → Prop
  | [], _ => True
  | op :: ops, m => m.Legal op ∧ m.HasRoom op ∧ ∀ m', m.step op = some m' → RoomyRun ops m'

/-- What an instruction does to a stack of words and to the registers. -/
def Lifo (op : StackOp α) (c regs c' regs' : List α) : Prop :=
  match op with
  | .push n => (∃ junk : List α, junk.length = n ∧ c' = junk ++ c) ∧ regs' = regs
  | .pop n => c' = c.drop n ∧ regs' = regs
  | .pushRegs => c' = regs ++ c ∧ regs' = regs
  | .popRegs => c' = c.drop numRegs ∧ regs' = c.take numRegs
  | .move off w => c' = c.set off w ∧ regs' = regs
  | .setRegs regs₁ => c' = c ∧ regs' = regs₁

/-- What a sequence of instructions does. -/
def LifoRun : List (StackOp α) → List α → List α → List α → List α → Prop
  | [], c, regs, c', regs' => c' = c ∧ regs' = regs
  | op :: ops, c, regs, c', regs' =>
    ∃ c₁ regs₁, Lifo op c regs c₁ regs₁ ∧ LifoRun ops c₁ regs₁ c' regs'

/-- The stack fits, and there are `NUM_REGS` registers. -/
structure Ok (m : StackMachine α) : Prop where
  fits : m.stack.Fits
  regs : m.regs.length = numRegs

/-- **One instruction** that is legal and has room. -/
theorem Ok.step {op : StackOp α} (h : m.Ok) (hlegal : m.Legal op) (hroom : m.HasRoom op) :
    ∃ m', m.step op = some m' ∧ m'.Ok ∧
      Lifo op m.stack.contents m.regs m'.stack.contents m'.regs := by
  obtain ⟨hfits, hregs⟩ := h
  cases op with
  | push n =>
    obtain ⟨hfits', hcontents⟩ := hfits.push hroom
    exact ⟨_, rfl, ⟨hfits', hregs⟩, hcontents, rfl⟩
  | pop n =>
    obtain ⟨hfits', hcontents⟩ := hfits.pop hlegal
    exact ⟨_, rfl, ⟨hfits', hregs⟩, hcontents, rfl⟩
  | pushRegs =>
    obtain ⟨s', hrun, hfits', hcontents⟩ := hfits.pushRegs hregs
    exact ⟨_, congrArg (Option.map _) hrun, ⟨hfits', hregs⟩, hcontents, rfl⟩
  | popRegs =>
    obtain ⟨s', hrun, hfits', hcontents⟩ := hfits.popRegs hlegal
    refine ⟨_, congrArg (Option.map _) hrun, ⟨hfits', ?_⟩, hcontents, rfl⟩
    show (m.stack.contents.take numRegs).length = numRegs
    rw [List.length_take, hfits.length_contents]
    exact Nat.min_eq_left hlegal
  | move off w =>
    obtain ⟨s', hrun, hfits', -, hcontents⟩ := hfits.store (show off + [w].length ≤ m.stack.size from hlegal)
    refine ⟨_, congrArg (Option.map _) hrun, ⟨hfits', hregs⟩, ?_, rfl⟩
    have hlt : off < m.stack.contents.length := hfits.length_contents.symm ▸ hlegal
    show s'.contents = m.stack.contents.set off w
    rw [hcontents, List.set_eq_take_append_cons_drop, if_pos hlt, List.append_assoc]
    rfl
  | setRegs regs => exact ⟨_, rfl, ⟨hfits, hlegal⟩, rfl, rfl⟩

theorem Ok.run {ops : List (StackOp α)} (h : m.Ok) (hops : RoomyRun ops m) :
    ∃ m', run ops m = some m' ∧ m'.Ok ∧
      LifoRun ops m.stack.contents m.regs m'.stack.contents m'.regs := by
  induction ops generalizing m with
  | nil => exact ⟨m, rfl, h, rfl, rfl⟩
  | cons op ops ih =>
    obtain ⟨hlegal, hroom, hrest⟩ := hops
    obtain ⟨m₁, hstep, h₁, hlifo⟩ := h.step hlegal hroom
    obtain ⟨m', hrun, h', hlifo'⟩ := ih h₁ (hrest m₁ hstep)
    refine ⟨m', ?_, h', _, _, hlifo, hlifo'⟩
    rw [StackMachine.run, List.foldlM_cons, hstep]
    exact hrun

theorem roomyRun_append {ops mid : List (StackOp α)} (h : RoomyRun (ops ++ mid) m)
    (hm' : run ops m = some m') : RoomyRun ops m ∧ RoomyRun mid m' := by
  induction ops generalizing m with
  | nil =>
    cases hm'
    exact ⟨trivial, h⟩
  | cons op ops ih =>
    obtain ⟨hlegal, hroom, hrest⟩ := h
    rw [run, List.foldlM_cons] at hm'
    obtain ⟨m₁, hstep, hrun⟩ := Option.bind_eq_some_iff.1 hm'
    refine ⟨⟨hlegal, hroom, fun m₂ hm₂ => ?_⟩, (ih (hrest m₁ hstep) hrun).2⟩
    obtain rfl := Option.some.inj (hstep.symm.trans hm₂)
    exact (ih (hrest m₁ hstep) hrun).1

/-! ## Below a mark -/

/-- The size above a mark, if nothing below the mark is popped, restored or written. -/
def above : ℕ → List (StackOp α) → Option ℕ
  | d, [] => some d
  | d, .push n :: ops => above (d + n) ops
  | d, .pop n :: ops => if n ≤ d then above (d - n) ops else none
  | d, .pushRegs :: ops => above (d + numRegs) ops
  | d, .popRegs :: ops => if numRegs ≤ d then above (d - numRegs) ops else none
  | d, .move off _ :: ops => if off < d then above d ops else none
  | d, .setRegs _ :: ops => above d ops

omit [Inhabited α] in
/-- One instruction that leaves the words below the mark alone. -/
theorem above_cons {d d' : ℕ} {op : StackOp α} {ops : List (StackOp α)}
    {top base regs c₁ regs₁ : List α} (hd : above d (op :: ops) = some d') (htop : top.length = d)
    (hregs : regs.length = numRegs) (hop : Lifo op (top ++ base) regs c₁ regs₁) :
    ∃ top₁, c₁ = top₁ ++ base ∧ above top₁.length ops = some d' := by
  cases op with
  | push n =>
    obtain ⟨⟨junk, hjunk, rfl⟩, -⟩ := hop
    refine ⟨junk ++ top, (List.append_assoc ..).symm, ?_⟩
    rw [List.length_append, hjunk, htop, Nat.add_comm]
    exact hd
  | pop n =>
    obtain ⟨rfl, -⟩ := hop
    obtain ⟨hn, hd⟩ := Option.ite_none_right_eq_some.1 hd
    refine ⟨top.drop n, List.drop_append_of_le_length (htop ▸ hn), ?_⟩
    rw [List.length_drop, htop]
    exact hd
  | pushRegs =>
    obtain ⟨rfl, -⟩ := hop
    refine ⟨regs ++ top, (List.append_assoc ..).symm, ?_⟩
    rw [List.length_append, hregs, htop, Nat.add_comm]
    exact hd
  | popRegs =>
    obtain ⟨rfl, -⟩ := hop
    obtain ⟨hn, hd⟩ := Option.ite_none_right_eq_some.1 hd
    refine ⟨top.drop numRegs, List.drop_append_of_le_length (htop ▸ hn), ?_⟩
    rw [List.length_drop, htop]
    exact hd
  | move off w =>
    obtain ⟨rfl, -⟩ := hop
    obtain ⟨hoff, hd⟩ := Option.ite_none_right_eq_some.1 hd
    refine ⟨top.set off w, List.set_append_left _ _ (htop ▸ hoff), ?_⟩
    rw [List.length_set, htop]
    exact hd
  | setRegs regs =>
    obtain ⟨rfl, -⟩ := hop
    exact ⟨top, rfl, htop ▸ hd⟩

/-- The words below a mark survive what stays above it. -/
theorem Ok.run_above {ops : List (StackOp α)} {top base : List α} {d : ℕ} (h : m.Ok)
    (hops : RoomyRun ops m) (hm' : StackMachine.run ops m = some m')
    (hcontents : m.stack.contents = top ++ base) (hd : above top.length ops = some d) :
    ∃ top', top'.length = d ∧ m'.stack.contents = top' ++ base := by
  induction ops generalizing m top with
  | nil =>
    cases hm'
    exact ⟨top, Option.some.inj hd, hcontents⟩
  | cons op ops ih =>
    obtain ⟨hlegal, hroom, hrest⟩ := hops
    obtain ⟨m₁, hstep, h₁, hlifo⟩ := h.step hlegal hroom
    rw [StackMachine.run, List.foldlM_cons, hstep] at hm'
    rw [hcontents] at hlifo
    obtain ⟨top₁, hcontents₁, hd₁⟩ := above_cons hd rfl h.regs hlifo
    exact ih h₁ (hrest m₁ hstep) hm' hcontents₁ hd₁

/-- Between `PUSH_REGS` and its `POP_REGS` the stack is used above the saved registers, and the
registers come back. -/
theorem Ok.restores {mid : List (StackOp α)} (h : m.Ok)
    (hops : RoomyRun (.pushRegs :: (mid ++ [.popRegs])) m)
    (hm' : StackMachine.run (.pushRegs :: (mid ++ [.popRegs])) m = some m')
    (hmid : above 0 mid = some 0) : m'.regs = m.regs ∧ m'.stack.contents = m.stack.contents := by
  obtain ⟨hlegal, hroom, hrest⟩ := hops
  obtain ⟨m₁, hstep, h₁, hcontents₁, -⟩ := h.step hlegal hroom
  rw [StackMachine.run, List.foldlM_cons, hstep] at hm'
  have hrun : StackMachine.run (mid ++ [.popRegs]) m₁ = some m' := hm'
  rw [StackMachine.run, List.foldlM_append] at hrun
  obtain ⟨m₂, hrun₂, hpop⟩ := Option.bind_eq_some_iff.1 hrun
  obtain ⟨hmidRun, hlegal₂, hroom₂, -⟩ := roomyRun_append (hrest m₁ hstep) hrun₂
  obtain ⟨m₂', hrun₂', h₂, -⟩ := h₁.run hmidRun
  obtain rfl := Option.some.inj (hrun₂.symm.trans hrun₂')
  obtain ⟨top, htop, hcontents₂⟩ := h₁.run_above hmidRun hrun₂
    (show m₁.stack.contents = [] ++ m₁.stack.contents from rfl) hmid
  rw [List.length_eq_zero_iff.1 htop, List.nil_append, hcontents₁] at hcontents₂
  obtain ⟨m₃, hstep₃, -, hcontents₃, hregs₃⟩ := h₂.step hlegal₂ hroom₂
  rw [List.foldlM_cons, hstep₃] at hpop
  obtain rfl := Option.some.inj hpop
  rw [hcontents₂, ← h.regs] at hcontents₃ hregs₃
  exact ⟨hregs₃.trans List.take_left, hcontents₃.trans List.drop_left⟩

/-- **The call stack**, in every run in which each push fits in the doubled buffer: the stack fits
in its buffer and its top is inside; every instruction does what it does to a LIFO; the words below
a mark survive what stays above it; and `POP_REGS` restores what the matching `PUSH_REGS` saved. -/
theorem call_stack_run {regs : List α} (hregs : regs.length = numRegs)
    {ops mid : List (StackOp α)} (hops : RoomyRun (ops ++ mid) ⟨.create, regs⟩) :
    ∃ m m', run ops ⟨.create, regs⟩ = some m ∧ run mid m = some m' ∧
      (m'.stack.size ≤ m'.stack.capacity ∧ 0 ≤ m'.stack.getStackAt 0) ∧
      LifoRun ops [] regs m.stack.contents m.regs ∧
      LifoRun mid m.stack.contents m.regs m'.stack.contents m'.regs ∧
      (∀ d, above 0 mid = some d →
        ∃ top : List α, top.length = d ∧ m'.stack.contents = top ++ m.stack.contents) ∧
      ∀ mid', mid = .pushRegs :: (mid' ++ [.popRegs]) → above 0 mid' = some 0 →
        m'.regs = m.regs ∧ m'.stack.contents = m.stack.contents := by
  have hok : Ok (⟨.create, regs⟩ : StackMachine α) := ⟨CallStack.fits_create, hregs⟩
  have hempty : (CallStack.create : CallStack α).contents = [] := by
    rw [← List.length_eq_zero_iff, CallStack.fits_create.length_contents]
    rfl
  have hrun : ∃ m, run ops ⟨.create, regs⟩ = some m := by
    obtain ⟨m', hm', -⟩ := hok.run hops
    rw [run, List.foldlM_append] at hm'
    obtain ⟨m, hm, -⟩ := Option.bind_eq_some_iff.1 hm'
    exact ⟨m, hm⟩
  obtain ⟨m, hm⟩ := hrun
  obtain ⟨hopsRun, hmidRun⟩ := roomyRun_append hops hm
  obtain ⟨m₁, hm₁, hok₁, hlifo₁⟩ := hok.run hopsRun
  obtain rfl := Option.some.inj (hm.symm.trans hm₁)
  obtain ⟨m', hm', hok', hlifo'⟩ := hok₁.run hmidRun
  refine ⟨m, m', hm, hm', ⟨hok'.fits.size, ?_⟩, hempty ▸ hlifo₁, hlifo', fun d hd => ?_, ?_⟩
  · rw [hok'.fits.getStackAt]
    exact Int.natCast_nonneg _
  · exact hok₁.run_above hmidRun hm' (show m.stack.contents = [] ++ m.stack.contents from rfl) hd
  · rintro mid' rfl hmid'
    exact hok₁.restores hmidRun hm' hmid'

/-- Registers saved, a word pushed and popped, and the registers restored. -/
theorem call_stack_run_saved :
    ∃ m', run [.pushRegs, .push 1, .pop 1, .popRegs] ⟨.create, List.replicate numRegs 7⟩ = some m' ∧
      m'.regs = List.replicate numRegs (7 : ℕ) := by
  have hops : RoomyRun ([] ++ [.pushRegs, .push 1, .pop 1, .popRegs])
      (⟨.create, List.replicate numRegs 7⟩ : StackMachine ℕ) := by
    refine ⟨trivial, trivial, fun m₁ h₁ => ?_⟩
    obtain rfl := Option.some.inj h₁
    refine ⟨show 1 ≤ 255 by decide, show 32 + 1 ≤ 2 * 64 by decide, fun m₂ h₂ => ?_⟩
    obtain rfl := Option.some.inj h₂
    refine ⟨show 1 ≤ 33 by decide, trivial, fun m₃ h₃ => ?_⟩
    obtain rfl := Option.some.inj h₃
    exact ⟨show 32 ≤ 32 from Nat.le_refl 32, trivial, fun _ _ => trivial⟩
  obtain ⟨m, m', hm, hm', -, -, -, -, hrestores⟩ := call_stack_run List.length_replicate hops
  obtain rfl := Option.some.inj hm
  exact ⟨m', hm', (hrestores [.push 1, .pop 1] rfl rfl).1⟩

/-- **A push that asks for more than twice the buffer**: the top is in front of the buffer. -/
theorem push_255_outside :
    ∃ m, run [.push 255] ⟨.create, List.replicate numRegs (0 : ℕ)⟩ = some m ∧
      ¬ m.stack.size ≤ m.stack.capacity ∧ m.stack.getStackAt 0 = -127 :=
  ⟨_, rfl, by decide, by decide⟩

end StackMachine

end Meld
