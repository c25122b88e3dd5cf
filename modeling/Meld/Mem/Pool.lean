import Meld.Lib.Linked
import Meld.Mem.MixedGroup

/-!
# The memory pool of a thread

The pool rounds a request and passes it to one of its groups.  What the clients hold and what they
have returned is recorded beside the state of the code: `live` and `freed` are blocks with their
rounded sizes, and `sizes g` are the sizes that were ever freed in the group `g`.

* `step`: the requests, and the writes of clients to blocks that they hold.
* `Allowed`: what the pool may expect of its clients and of the system: a block is freed once and
  with its own size, a client writes to blocks that it holds, and a new page is apart from the
  others.
* `PoolGood`, `RequestGood`: what is claimed about the states and about the next request.
* `Careful`: the requests that the table of free lists can serve.
-/

namespace Meld

open Linked MixedGroup

/-- The groups of the pool. -/
inductive GroupId where
  | conses
  | small
  | medium
  | large
  deriving DecidableEq

/-- A request: `allocate_cons` and `deallocate_cons`, or `allocate` and `deallocate`. -/
structure Request where
  cons : Bool
  size : ℕ

/-- The loop of `make_size`: at most three rounds lead to a multiple of four. -/
def roundLoop : ℕ → ℕ → ℕ
  | 0, size => size
  | fuel + 1, size => if size % 4 ≠ 0 then roundLoop fuel (size + 1) else size

/-- `make_size`, where `MEM_MIN_OBJS` is `8`. -/
def makeSize (size : ℕ) : ℕ := roundLoop 3 (max 8 size)

namespace Request

/-- The size that is passed to the group. -/
def passed (r : Request) : ℕ := if r.cons then r.size else makeSize r.size

/-- The group of a request. -/
def group (r : Request) : GroupId :=
  if r.cons then .conses
  else if makeSize r.size ≤ 128 then .small
  else if makeSize r.size ≤ 1024 then .medium
  else .large

/-- The rounded size. -/
def rounded (r : Request) : ℕ := max minSizeObj r.passed

end Request

/-- A block of memory. -/
structure Block where
  group : GroupId
  ptr : ℕ
  size : ℕ
  deriving DecidableEq

/-- Two blocks have no byte in common. -/
def Block.Apart (b c : Block) : Prop := b.ptr + b.size ≤ c.ptr ∨ c.ptr + c.size ≤ b.ptr

/-- Two pages have no byte in common. -/
def Page.Apart (p q : Page) : Prop := p.base + p.size ≤ q.base ∨ q.base + q.size ≤ p.base

/-- The pool, the first words of the blocks, and the blocks of the clients. -/
structure PoolState where
  group : GroupId → MixedGroup
  next : ℕ → ℕ
  live : List Block
  freed : List Block
  sizes : GroupId → List ℕ

inductive PoolEvent where
  /-- `allocate`, where the system returns `base` if a page is needed -/
  | allocate (r : Request) (base : ℕ)
  | deallocate (ptr : ℕ) (r : Request)
  /-- a client writes to memory -/
  | write (a v : ℕ)

namespace PoolState

/-- `START_PAGE_SIZE` times the factor of `create`. -/
def startPageSize : GroupId → ℕ
  | .conses => 256 * 8
  | .small => 256 * 4
  | .medium => 256 * 8
  | .large => 256 * 32

/-- `pool::create`: the tables hold what was in memory. -/
def init (frees : GroupId → ℕ → FreeSize) (next : ℕ → ℕ) (base : GroupId → ℕ) : PoolState where
  group g := MixedGroup.create (frees g) (startPageSize g) (base g)
  next := next
  live := []
  freed := []
  sizes _ := []

/-- The block that a request returns. -/
def newBlock (s : PoolState) (r : Request) (base : ℕ) : Block :=
  ⟨r.group, ((s.group r.group).allocate s.next r.passed base).2, r.rounded⟩

/-- **The requests**: `none` if the program aborts. -/
def step (s : PoolState) : PoolEvent → Option PoolState
  | .allocate r base =>
    some { s with
      group := Function.update s.group r.group ((s.group r.group).allocate s.next r.passed base).1
      live := s.newBlock r base :: s.live
      freed := s.freed.erase (s.newBlock r base) }
  | .deallocate ptr r =>
    ((s.group r.group).deallocate s.next ptr r.passed).map fun q =>
      { group := Function.update s.group r.group q.1
        next := q.2
        live := s.live.erase ⟨r.group, ptr, r.rounded⟩
        freed := ⟨r.group, ptr, r.rounded⟩ :: s.freed
        sizes := Function.update s.sizes r.group (r.rounded :: s.sizes r.group) }
  | .write a v => some { s with next := Function.update s.next a v }

/-- The page of this size at `base` is apart from all pages of the pool. -/
def FreshPage (s : PoolState) (base size : ℕ) : Prop :=
  0 < base ∧ ∀ g, ∀ p ∈ (s.group g).pages, p.Apart ⟨base, 0, size⟩

/-- What the pool may expect. -/
def Allowed (s : PoolState) : PoolEvent → Prop
  | .allocate r base =>
    s.FreshPage base (newPageSize ((s.group r.group).currentSize * 2) r.rounded)
  | .deallocate ptr r => ⟨r.group, ptr, r.rounded⟩ ∈ s.live
  | .write a _ => ∃ b ∈ s.live, b.ptr ≤ a ∧ a < b.ptr + b.size

/-- **The requests that the tables can serve.** -/
def Careful (s : PoolState) : PoolEvent → Prop
  | .deallocate _ r => (s.group r.group).CanFree r.rounded
  | _ => True

/-- The pages of the start are apart. -/
def StartPages (base : GroupId → ℕ) : Prop :=
  (∀ g, 0 < base g) ∧ ∀ g h, g ≠ h →
    (⟨base g, 0, startPageSize g⟩ : Page).Apart ⟨base h, 0, startPageSize h⟩

/-- The states of a pool whose requests are allowed and satisfy `P`. -/
inductive Reach (P : PoolState → PoolEvent → Prop) : PoolState → Prop
  | init (frees : GroupId → ℕ → FreeSize) (next : ℕ → ℕ) (base : GroupId → ℕ)
      (h : StartPages base) : Reach P (init frees next base)
  | step {s s' : PoolState} (e : PoolEvent) (h : Reach P s) (hallowed : s.Allowed e) (hP : P s e)
      (hstep : s.step e = some s') : Reach P s'

/-- The freed blocks of one size. -/
def freedOf (s : PoolState) (g : GroupId) (size : ℕ) : List ℕ :=
  (s.freed.filter fun b => b.group = g ∧ b.size = size).map Block.ptr

/-- **The state of a pool is good**: the blocks in use are apart and inside the pages of their
groups; every table is strictly sorted, its first `num_free` entries are the sizes that were freed,
and their lists are the freed blocks of these sizes. -/
structure PoolGood (s : PoolState) : Prop where
  apart : s.live.Pairwise Block.Apart
  inside : ∀ b ∈ s.live, ∃ p ∈ (s.group b.group).pages,
    p.base + pageHeader ≤ b.ptr ∧ b.ptr + b.size ≤ p.base + p.size
  sorted : ∀ g, Sorted (s.group g).frees (s.group g).numFree
  numFree : ∀ g, (s.group g).numFree ≤ tableSize
  entries : ∀ g z, z ∈ s.sizes g ↔ ∃ i, i < (s.group g).numFree ∧ ((s.group g).frees i).size = z
  lists : ∀ g i, i < (s.group g).numFree →
    Chain s.next ((s.group g).frees i).list (s.freedOf g ((s.group g).frees i).size)

/-- **The next request is served**: it does not abort, and a block that was freed is handed out for
the same rounded size only. -/
def RequestGood (s : PoolState) (e : PoolEvent) : Prop :=
  (∃ s', s.step e = some s') ∧
    ∀ r base, e = .allocate r base → ∀ b ∈ s.freed, b = s.newBlock r base ∨
      b.Apart (s.newBlock r base)

end PoolState

end Meld
