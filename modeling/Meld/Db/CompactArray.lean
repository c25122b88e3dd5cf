import Meld.Vm.Tuple
import Mathlib.Logic.Function.Basic
import Mathlib.Data.List.Induction

/-!
# The compact array

Persistent facts of a predicate declared compact are kept one after the other in a buffer, with a
capacity and a number of tuples that are both 16-bit integers.  The facts of the program are loaded
at once into a buffer of their number; a derived fact goes behind the last one, and into a larger
buffer when there is no room, to which the contents are copied and after which the old buffer is
released.

A buffer is known by a number here; numbers are not used twice.

* `init`, `addNext`, `expand`: the operations of the array.
* `Op`, `run`: sequences of them.
* `run_fits`: after every sequence there is room for the tuples that are counted, unless the
  capacity has wrapped to zero.
-/

namespace Meld

/-- `db::array`: the buffer `data` points to, `cap`, `num_tuples`, and the memory of all buffers
with those that were released.  A slot that was not written holds the empty tuple. -/
structure CompactArray where
  buffer : ℕ
  cap : ℕ
  numTuples : ℕ
  mem : ℕ → ℕ → Tuple
  released : List ℕ

namespace CompactArray

/-- `array()`: no buffer, which is the number 0. -/
def empty : CompactArray := ⟨0, 0, 0, fun _ _ => [], []⟩

/-- `init`: a new buffer. -/
def init (a : CompactArray) (cap : ℕ) : CompactArray :=
  { a with buffer := a.buffer + 1, cap := cap % 2 ^ 16, numTuples := 0 }

/-- `add_next`, with the fields of the tuple filled in. -/
def addNext (a : CompactArray) (tpl : Tuple) : CompactArray :=
  { a with
    numTuples := (a.numTuples + 1) % 2 ^ 16
    mem := Function.update a.mem a.buffer
      (Function.update (a.mem a.buffer) a.numTuples tpl) }

/-- `memcpy` of the first `n` slots of `old` into the buffer. -/
def copyFrom (a : CompactArray) (old n : ℕ) : CompactArray :=
  { a with
    mem := Function.update a.mem a.buffer
      fun i => if i < n then a.mem old i else a.mem a.buffer i }

/-- `expand`.  `init` clears the number of tuples, which is not set again. -/
def expand (a : CompactArray) (tpl : Tuple) : CompactArray :=
  if a.numTuples = a.cap then
    if a.numTuples = 0 then addNext (init a 1) tpl
    else
      let b := copyFrom (init a (a.cap * 2)) a.buffer a.cap
      addNext { b with released := a.buffer :: b.released } tpl
  else addNext a tpl

/-- The facts of the program are loaded: `init` with their number, then `add_next` for each. -/
def load (a : CompactArray) (tpls : List Tuple) : CompactArray :=
  tpls.foldl addNext (init a tpls.length)

/-! ## Runs -/

/-- What is done to the array of a predicate with the given field types. -/
inductive Op (fields : List FieldType) where
  | load (tpls : List (TypedTuple fields))
  | derive (tpl : TypedTuple fields)

variable {fields : List FieldType}

/-- One operation. -/
def exec (a : CompactArray) : Op fields → CompactArray
  | .load tpls => load a (tpls.map Subtype.val)
  | .derive tpl => expand a tpl.1

/-- The array after a sequence of operations on an empty one. -/
def run (ops : List (Op fields)) : CompactArray := ops.foldl exec empty

/-- The counted tuples have room, unless the capacity is zero; and the buffer in use is not a
released one. -/
structure Fits (a : CompactArray) : Prop where
  num_lt : a.numTuples < 2 ^ 16
  num_le : a.cap = 0 ∨ a.numTuples ≤ a.cap
  cap_lt : a.cap < 2 ^ 16
  released_lt : ∀ b ∈ a.released, b < a.buffer

theorem fits_empty : Fits empty := ⟨by decide, Or.inl rfl, by decide, by simp [empty]⟩

variable {a : CompactArray} {tpl : Tuple}

/-- A tuple that finds room. -/
theorem Fits.addNext (h : Fits a) (hroom : a.cap = 0 ∨ a.numTuples < a.cap) :
    Fits (addNext a tpl) where
  num_lt := Nat.mod_lt _ (by decide)
  num_le := by
    have := h.cap_lt
    refine hroom.imp id fun hlt => ?_
    rw [CompactArray.addNext, Nat.mod_eq_of_lt (by omega)]
    exact hlt
  cap_lt := h.cap_lt
  released_lt := h.released_lt

theorem Fits.expand (h : Fits a) : Fits (expand a tpl) := by
  rw [CompactArray.expand]
  split
  · split
    · refine Fits.addNext ⟨Nat.two_pow_pos 16, Or.inr (Nat.zero_le _), Nat.mod_lt _ (by decide), ?_⟩
        (Or.inr Nat.one_pos)
      intro b hb
      exact Nat.lt_succ_of_lt (h.released_lt b hb)
    · refine Fits.addNext ⟨Nat.two_pow_pos 16, Or.inr (Nat.zero_le _), Nat.mod_lt _ (by decide), ?_⟩ ?_
      · intro b hb
        rcases List.mem_cons.1 hb with rfl | hb
        · exact Nat.lt_succ_self _
        · exact Nat.lt_succ_of_lt (h.released_lt b hb)
      · exact Nat.eq_zero_or_pos _
  · refine h.addNext (h.num_le.imp id fun hle => ?_)
    omega

/-- What a sequence of `add_next` leaves as it is, and the number of tuples it leaves. -/
theorem foldl_addNext (tpls : List Tuple) (a : CompactArray) (h : a.numTuples < 2 ^ 16) :
    (tpls.foldl CompactArray.addNext a).buffer = a.buffer ∧
      (tpls.foldl CompactArray.addNext a).cap = a.cap ∧
      (tpls.foldl CompactArray.addNext a).released = a.released ∧
      (tpls.foldl CompactArray.addNext a).numTuples = (a.numTuples + tpls.length) % 2 ^ 16 := by
  induction tpls generalizing a with
  | nil => exact ⟨rfl, rfl, rfl, (Nat.mod_eq_of_lt h).symm⟩
  | cons tpl tpls ih =>
    obtain ⟨hbuf, hcap, hrel, hnum⟩ := ih (CompactArray.addNext a tpl) (Nat.mod_lt _ (by decide))
    refine ⟨hbuf, hcap, hrel, ?_⟩
    rw [List.foldl_cons, hnum, CompactArray.addNext, List.length_cons, Nat.mod_add_mod]
    congr 1
    omega

theorem Fits.load (h : Fits a) (tpls : List Tuple) : Fits (load a tpls) := by
  obtain ⟨hbuf, hcap, hrel, hnum⟩ := foldl_addNext tpls (init a tpls.length)
    (Nat.two_pow_pos 16)
  have hnum' : (CompactArray.load a tpls).numTuples = tpls.length % 2 ^ 16 := by
    rw [CompactArray.load, hnum, init, Nat.zero_add]
  have hcap' : (CompactArray.load a tpls).cap = tpls.length % 2 ^ 16 := hcap
  refine ⟨?_, Or.inr (Nat.le_of_eq (hnum'.trans hcap'.symm)), ?_, ?_⟩
  · rw [hnum']
    exact Nat.mod_lt _ (by decide)
  · rw [hcap']
    exact Nat.mod_lt _ (by decide)
  · intro b hb
    rw [CompactArray.load, hrel] at hb
    rw [CompactArray.load, hbuf]
    exact Nat.lt_succ_of_lt (h.released_lt b hb)

/-- **After every sequence of operations the counted tuples have room**, unless the capacity has
wrapped to zero. -/
theorem run_fits (ops : List (Op fields)) : Fits (run ops) := by
  induction ops using List.reverseRecOn with
  | nil => exact fits_empty
  | append_singleton ops op ih =>
    rw [run, List.foldl_append, List.foldl_cons, List.foldl_nil]
    cases op with
    | load tpls => exact ih.load _
    | derive tpl => exact ih.expand

/-- The tuples the array holds, with their slots. -/
def stored (a : CompactArray) : List (ℕ × Tuple) :=
  (List.range a.numTuples).map fun i => (i, a.mem a.buffer i)

end CompactArray

end Meld
