import Mathlib.Data.List.Basic
import Mathlib.Logic.Function.Basic

/-!
# Regions of memory

A region has a number of places, and what is at a place that was not written is up to whoever had
the memory before.  An access outside of it fails.

* `Region.write`, `Region.copy`, `Region.fill`: one place, the first ones from another region, the
  first ones all alike.
* `Region.take`: what is at the first places.
-/

namespace Meld

/-- A region. -/
structure Region (α : Type*) where
  length : ℕ
  place : ℕ → α

namespace Region

variable {α : Type*}

/-- A region with another value at one place. -/
def put (b : Region α) (i : ℕ) (v : α) : Region α := { b with place := Function.update b.place i v }

/-- A region with other values at the first `n` places. -/
def overlay (b : Region α) (f : ℕ → α) (n : ℕ) : Region α :=
  { b with place := fun i => if i < n then f i else b.place i }

/-- Write a place. -/
def write (b : Region α) (i : ℕ) (v : α) : Option (Region α) :=
  if i < b.length then some (b.put i v) else none

/-- Read a place. -/
def read (b : Region α) (i : ℕ) : Option α := if i < b.length then some (b.place i) else none

/-- `memcpy` of `n` places. -/
def copy (b src : Region α) (n : ℕ) : Option (Region α) :=
  if n ≤ b.length ∧ n ≤ src.length then some (b.overlay src.place n) else none

/-- A loop that writes the places below `n` in ascending order. -/
def fill (b : Region α) (v : α) : ℕ → Option (Region α)
  | 0 => some b
  | n + 1 => (b.fill v n).bind fun b => b.write n v

/-- What is at the first `n` places. -/
def take (b : Region α) (n : ℕ) : List α := (List.range n).map b.place

variable {b src : Region α} {n i : ℕ} {v : α}

@[simp] theorem length_put (b : Region α) (i : ℕ) (v : α) : (b.put i v).length = b.length := rfl

@[simp] theorem length_overlay (b : Region α) (f : ℕ → α) (n : ℕ) :
    (b.overlay f n).length = b.length :=
  rfl

@[simp] theorem place_put_self (b : Region α) (i : ℕ) (v : α) : (b.put i v).place i = v :=
  Function.update_self ..

theorem place_put_of_ne {j : ℕ} (h : j ≠ i) (b : Region α) (v : α) :
    (b.put i v).place j = b.place j :=
  Function.update_of_ne h ..

theorem place_overlay_of_lt (h : i < n) (b : Region α) (f : ℕ → α) :
    (b.overlay f n).place i = f i :=
  if_pos h

@[simp] theorem length_take (b : Region α) (n : ℕ) : (b.take n).length = n := by
  simp [take]

theorem getElem_take (h : i < (b.take n).length) : (b.take n)[i] = b.place i := by
  simp [take]

theorem take_succ (b : Region α) (n : ℕ) : b.take (n + 1) = b.take n ++ [b.place n] := by
  rw [take, List.range_succ, List.map_append]
  rfl

theorem take_congr {c : Region α} (h : ∀ i < n, b.place i = c.place i) : b.take n = c.take n :=
  List.map_congr_left fun i hi => h i (List.mem_range.1 hi)

theorem mem_take : v ∈ b.take n ↔ ∃ i < n, b.place i = v := by
  simp [take]

/-- A write among the first places. -/
theorem take_put (b : Region α) (n i : ℕ) (v : α) : (b.put i v).take n = (b.take n).set i v := by
  refine List.ext_getElem (by simp) fun j _ _ => ?_
  rw [getElem_take, List.getElem_set, getElem_take]
  split
  · rename_i hij
    rw [← hij, place_put_self]
  · rename_i hij
    exact place_put_of_ne (Ne.symm hij) b v

/-- A write behind the first places. -/
theorem take_put_self (b : Region α) (n : ℕ) (v : α) :
    (b.put n v).take (n + 1) = b.take n ++ [v] := by
  rw [take_succ, place_put_self]
  congr 1
  exact take_congr fun i hi => place_put_of_ne (Nat.ne_of_lt hi) b v

theorem take_overlay (b : Region α) (f : ℕ → α) (n : ℕ) :
    (b.overlay f n).take n = (List.range n).map f :=
  List.map_congr_left fun _ hi => place_overlay_of_lt (List.mem_range.1 hi) b f

theorem write_of_lt (h : i < b.length) (v : α) : b.write i v = some (b.put i v) := if_pos h

theorem write_of_le (h : b.length ≤ i) (v : α) : b.write i v = none := if_neg (Nat.not_lt.2 h)

theorem copy_of_le (h : n ≤ b.length) (hsrc : n ≤ src.length) :
    b.copy src n = some (b.overlay src.place n) :=
  if_pos ⟨h, hsrc⟩

theorem copy_of_lt (h : b.length < n) : b.copy src n = none :=
  if_neg fun hn => Nat.not_lt.2 hn.1 h

/-- **The loop** that writes the first places. -/
theorem fill_of_le (h : n ≤ b.length) (v : α) : b.fill v n = some (b.overlay (fun _ => v) n) := by
  induction n with
  | zero => simp [fill, overlay]
  | succ n ih =>
    have hwrite := write_of_lt (b := b.overlay (fun _ => v) n) h v
    rw [fill, ih (Nat.le_of_succ_le h), Option.bind_some, hwrite, put, overlay, overlay]
    congr 2
    funext i
    rw [Function.update_apply]
    split
    · rename_i hi
      rw [if_pos (by omega)]
    · rename_i hi
      exact if_congr (by omega) rfl rfl

theorem fill_of_lt (h : b.length < n) (v : α) : b.fill v n = none := by
  induction n with
  | zero => exact absurd h (Nat.not_lt_zero _)
  | succ n ih =>
    rcases Nat.lt_or_ge b.length n with hlt | hge
    · rw [fill, ih hlt, Option.bind_none]
    · rw [fill, fill_of_le hge, Option.bind_some]
      exact write_of_le (b := b.overlay (fun _ => v) n) (Nat.le_of_lt_succ h) v

end Region
end Meld
