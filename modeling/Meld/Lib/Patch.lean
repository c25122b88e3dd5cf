import Meld.Lib.Bytes

/-!
# Patches

Some data are written into a buffer, each at its own place.  A place that no other one overlaps has
its data in the end, in whatever order the writes come, and what lies in no place is as it was.

* `patch`: the writes, one after the other.
* `getElem?_patch`: what lies in no place is not changed.
* `readAt_patch`: each place has its data.
-/

namespace Bytes

variable {α : Type*} {buf : List α} {ws : List (ℕ × List α)} {w v : ℕ × List α} {k : ℕ}

/-- The data of a write stay in the buffer. -/
def InRange (buf : List α) (w : ℕ × List α) : Prop := w.1 + w.2.length ≤ buf.length

/-- The place `k` is not written to. -/
def Outside (w : ℕ × List α) (k : ℕ) : Prop := k < w.1 ∨ w.1 + w.2.length ≤ k

/-- Two writes do not overlap. -/
def Apart (w v : ℕ × List α) : Prop := w.1 + w.2.length ≤ v.1 ∨ v.1 + v.2.length ≤ w.1

/-- The writes, one after the other. -/
def patch (buf : List α) (ws : List (ℕ × List α)) : List α :=
  ws.foldl (fun buf w => writeAt buf w.1 w.2) buf

theorem getElem?_writeAt_outside (hw : InRange buf w) (hk : Outside w k) :
    (writeAt buf w.1 w.2)[k]? = buf[k]? := by
  have hlen : (buf.take w.1).length = w.1 :=
    List.length_take_of_le (Nat.le_trans (Nat.le_add_right ..) hw)
  rw [writeAt]
  rcases hk with hk | hk
  · rw [List.append_assoc, List.getElem?_append_left (by omega), List.getElem?_take_of_lt hk]
  · rw [List.getElem?_append_right (by rw [List.length_append]; omega), List.length_append, hlen,
      List.getElem?_drop]
    congr 1
    omega

theorem getElem?_writeAt (hw : InRange buf w) {i : ℕ} (hi : i < w.2.length) :
    (writeAt buf w.1 w.2)[w.1 + i]? = w.2[i]? := by
  have hlen : (buf.take w.1).length = w.1 :=
    List.length_take_of_le (Nat.le_trans (Nat.le_add_right ..) hw)
  rw [writeAt, List.getElem?_append_left (by rw [List.length_append]; omega),
    List.getElem?_append_right (by omega), hlen, Nat.add_sub_cancel_left]

theorem length_patch (h : ∀ w ∈ ws, InRange buf w) : (patch buf ws).length = buf.length := by
  induction ws generalizing buf with
  | nil => rfl
  | cons w ws ih =>
    rw [List.forall_mem_cons] at h
    have hlen : (writeAt buf w.1 w.2).length = buf.length := length_writeAt h.1
    rw [patch, List.foldl_cons, ← patch, ih fun v hv => ?_, hlen]
    rw [InRange, hlen]
    exact h.2 v hv

/-- What lies in no place is not changed. -/
theorem getElem?_patch (h : ∀ w ∈ ws, InRange buf w) (hk : ∀ w ∈ ws, Outside w k) :
    (patch buf ws)[k]? = buf[k]? := by
  induction ws generalizing buf with
  | nil => rfl
  | cons w ws ih =>
    rw [List.forall_mem_cons] at h hk
    rw [patch, List.foldl_cons, ← patch, ih (fun v hv => ?_) hk.2,
      getElem?_writeAt_outside h.1 hk.1]
    rw [InRange, length_writeAt h.1]
    exact h.2 v hv

/-- A byte of a place, if each other place is apart from it. -/
theorem getElem?_patch_of_mem (h : ∀ w ∈ ws, InRange buf w) (hw : w ∈ ws)
    (hapart : ∀ v ∈ ws, v = w ∨ Apart w v) {i : ℕ} (hi : i < w.2.length) :
    (patch buf ws)[w.1 + i]? = w.2[i]? := by
  induction ws generalizing buf with
  | nil => exact absurd hw List.not_mem_nil
  | cons v ws ih =>
    rw [List.forall_mem_cons] at h hapart
    have hrest : ∀ u ∈ ws, InRange (writeAt buf v.1 v.2) u := by
      intro u hu
      rw [InRange, length_writeAt h.1]
      exact h.2 u hu
    rw [patch, List.foldl_cons, ← patch]
    by_cases hmem : w ∈ ws
    · exact ih hrest hmem hapart.2
    · -- the last write of the place, which the later ones leave alone
      obtain rfl : v = w := ((List.mem_cons.1 hw).resolve_right hmem).symm
      rw [getElem?_patch hrest fun u hu => ?_, getElem?_writeAt h.1 hi]
      rcases hapart.2 u hu with rfl | hu | hu
      · exact absurd hu hmem
      · exact Or.inl (by omega)
      · exact Or.inr (by omega)

/-- Each place that is apart from the others has its data. -/
theorem readAt_patch (h : ∀ w ∈ ws, InRange buf w) (hw : w ∈ ws)
    (hapart : ∀ v ∈ ws, v = w ∨ Apart w v) :
    readAt (patch buf ws) w.1 w.2.length = w.2 := by
  refine List.ext_getElem? fun i => ?_
  rw [readAt]
  rcases Nat.lt_or_ge i w.2.length with hi | hi
  · rw [List.getElem?_take_of_lt hi, List.getElem?_drop, getElem?_patch_of_mem h hw hapart hi]
  · rw [List.getElem?_eq_none (by rw [List.length_take]; omega), List.getElem?_eq_none hi]

end Bytes
