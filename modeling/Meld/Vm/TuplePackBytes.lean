import Meld.Vm.TuplePack
import Mathlib.Data.List.Perm.Basic
import Mathlib.Tactic.Common

/-!
# The bytes of a packed tuple

What `tuple::pack` writes and what `tuple::load` reads of it, apart from what the loading does to
the memory.  `cons::pack` asserts that there is room after the length of a list, which fails for an
empty list at the end of the buffer.

* `getStorageSize_eq`: the size that is computed is the size that is packed.
* `packTuple_eq`: what packing writes, and that it fails at an empty last list.
* `packTuple_lt`: packing succeeds only for less than `2 ^ 31` bytes.
* `load_eq`: loading reads the fields back, and acts on the memory as `loadValues` does.
-/

namespace Meld

namespace Packing

open Bytes

/-! ## The bytes of a tuple -/

/-- The words of a list, as bytes. -/
def cellBytes (words : List (BitVec 64)) : List (BitVec 8) :=
  words.flatMap fun w => toBytes 8 w.toNat

/-- A packed field. -/
def fieldBytes : PackValue → List (BitVec 8)
  | .int i => toBytes 4 i.toNat
  | .float f => toBytes 8 f.toNat
  | .node n => toBytes 8 n.toNat
  | .list words => toBytes 4 words.length ++ cellBytes words

/-- The packed fields of a tuple. -/
def fieldsBytes (tpl : List PackValue) : List (BitVec 8) := tpl.flatMap fieldBytes

/-- A packed tuple. -/
def tupleBytes (id : BitVec 8) (tpl : List PackValue) : List (BitVec 8) :=
  toBytes 1 id.toNat ++ fieldsBytes tpl

/-- A packed full tuple. -/
def fullBytes (dir : Direction) (depth : BitVec 32) (id : BitVec 8) (tpl : List PackValue) :
    List (BitVec 8) :=
  toBytes 4 (directionCode dir) ++ toBytes 4 depth.toNat ++ tupleBytes id tpl

/-- The size of a packed field. -/
def byteSize : PackValue → ℕ
  | .int _ => 4
  | .float _ => 8
  | .node _ => 8
  | .list words => 4 + 8 * words.length

/-- The size of a packed tuple: that of the predicate and of the fields. -/
def packedSize (tpl : List PackValue) : ℕ := 1 + (tpl.map byteSize).sum

@[simp] theorem length_cellBytes (words : List (BitVec 64)) :
    (cellBytes words).length = 8 * words.length := by
  simp [cellBytes, List.length_flatMap, Nat.mul_comm]

@[simp] theorem length_fieldBytes (v : PackValue) : (fieldBytes v).length = byteSize v := by
  cases v <;> simp [fieldBytes, byteSize]

theorem length_fieldsBytes (tpl : List PackValue) :
    (fieldsBytes tpl).length = (tpl.map byteSize).sum := by
  simp [fieldsBytes, List.length_flatMap]

theorem length_tupleBytes (id : BitVec 8) (tpl : List PackValue) :
    (tupleBytes id tpl).length = packedSize tpl := by
  simp [tupleBytes, packedSize, length_fieldsBytes]

theorem length_fullBytes (dir : Direction) (depth : BitVec 32) (id : BitVec 8)
    (tpl : List PackValue) : (fullBytes dir depth id tpl).length = 8 + packedSize tpl := by
  simp only [fullBytes, List.length_append, length_toBytes, length_tupleBytes]

theorem fieldSize_eq (v : PackValue) : fieldSize v = byteSize v % 2 ^ 64 := by
  cases v <;> simp [fieldSize, byteSize, sizeList]

/-- **The size computed is the size packed**, as a `size_t`. -/
theorem getStorageSize_eq (tpl : List PackValue) : getStorageSize tpl = packedSize tpl % 2 ^ 64 := by
  have hfold : ∀ (tpl : List PackValue) (ret : ℕ), ret < 2 ^ 64 →
      tpl.foldl (fun ret v => (ret + fieldSize v) % 2 ^ 64) ret =
        (ret + (tpl.map byteSize).sum) % 2 ^ 64 := by
    intro tpl
    induction tpl with
    | nil => exact fun ret hret => (Nat.mod_eq_of_lt hret).symm
    | cons v tpl ih =>
      intro ret _
      rw [List.foldl_cons, ih _ (Nat.mod_lt _ (by decide)), fieldSize_eq, List.map_cons,
        List.sum_cons]
      omega
  exact hfold tpl 1 (by decide)

theorem storageSize_eq (tpl : List PackValue) :
    storageSize tpl = (8 + packedSize tpl) % 2 ^ 64 := by
  rw [storageSize, getStorageSize_eq]
  omega

/-! ## Positions -/

theorem intOfSize_of_lt {n : ℕ} (h : n < 2 ^ 31) : intOfSize n = n := by
  rw [intOfSize, Nat.mod_eq_of_lt (by omega), if_pos h]

theorem sizeOfInt_natCast {n : ℕ} (h : n < 2 ^ 31) : sizeOfInt n = n := by
  rw [sizeOfInt]
  omega

/-- A position that was reached by writing `n` bytes, of which the last write can have gone past the
range of an `int`. -/
def PackBuffer.At (b : PackBuffer) (n : ℕ) : Prop := b.pos = intOfSize n ∧ n < 2 ^ 31 + 8

variable {b b' : PackBuffer} {n : ℕ} {data : List (BitVec 8)}

theorem pack_at (h : b.At n) (hb' : b.pack data = some b') (hdata : data.length ≤ 8) :
    b'.At (n + data.length) ∧ b'.bytes.length = b.bytes.length := by
  obtain ⟨hpos, hn⟩ := h
  rw [PackBuffer.pack] at hb'
  split at hb'
  · rename_i hroom
    obtain ⟨hnonneg, hroom⟩ := hroom
    obtain rfl := Option.some.inj hb'
    have hlt : n < 2 ^ 31 := by
      rw [hpos, intOfSize] at hnonneg
      split at hnonneg <;> omega
    rw [hpos, intOfSize_of_lt hlt, sizeOfInt_natCast hlt] at hroom ⊢
    rw [Nat.mod_eq_of_lt (by omega)] at hroom ⊢
    exact ⟨⟨rfl, by omega⟩, length_writeAt hroom⟩
  · cases hb'

theorem assertLe_eq (hb' : b.assertLe = some b') : b.pos ≤ intOfSize b.bytes.length ∧ b' = b := by
  rw [PackBuffer.assertLe] at hb'
  split at hb'
  · exact ⟨‹_›, (Option.some.inj hb').symm⟩
  · cases hb'

theorem assertLt_eq (hb' : b.assertLt = some b') : b' = b := by
  rw [PackBuffer.assertLt] at hb'
  split at hb'
  · exact (Option.some.inj hb').symm
  · cases hb'

theorem packCells_at {words : List (BitVec 64)} (h : b.At n) (hb' : packCells words b = some b') :
    b'.At (n + 8 * words.length) ∧ b'.bytes.length = b.bytes.length := by
  induction words generalizing b n with
  | nil =>
    obtain rfl := Option.some.inj hb'
    exact ⟨h, rfl⟩
  | cons w words ih =>
    obtain ⟨b₁, hb₁, hrest⟩ := Option.bind_eq_some_iff.1 hb'
    obtain ⟨hat, hlen⟩ := pack_at h hb₁ (by simp)
    obtain ⟨hat', hlen'⟩ := ih hat hrest
    rw [length_toBytes, Nat.add_assoc] at hat'
    rw [List.length_cons, Nat.mul_succ, Nat.add_comm _ 8]
    exact ⟨hat', hlen'.trans hlen⟩

theorem packField_at {v : PackValue} (h : b.At n) (hb' : packField v b = some b') :
    b'.At (n + byteSize v) ∧ b'.bytes.length = b.bytes.length := by
  cases v with
  | int i => simpa [byteSize] using pack_at h hb' (by simp)
  | float f => simpa [byteSize] using pack_at h hb' (by simp)
  | node m => simpa [byteSize] using pack_at h hb' (by simp)
  | list words =>
    obtain ⟨b₁, hb₁, hrest⟩ := Option.bind_eq_some_iff.1 hb'
    obtain ⟨b₂, hb₂, hcells⟩ := Option.bind_eq_some_iff.1 hrest
    obtain rfl := assertLt_eq hb₂
    obtain ⟨hat, hlen⟩ := pack_at h hb₁ (by simp)
    obtain ⟨hat', hlen'⟩ := packCells_at hat hcells
    rw [length_toBytes, Nat.add_assoc] at hat'
    exact ⟨hat', hlen'.trans hlen⟩

theorem packFields_at {tpl : List PackValue} (h : b.At n) (hb' : packFields tpl b = some b') :
    b'.At (n + (tpl.map byteSize).sum) ∧ b'.bytes.length = b.bytes.length := by
  induction tpl generalizing b n with
  | nil =>
    obtain rfl := Option.some.inj hb'
    exact ⟨h, rfl⟩
  | cons v tpl ih =>
    obtain ⟨b₁, hb₁, hrest⟩ := Option.bind_eq_some_iff.1 hb'
    obtain ⟨b₂, hb₂, hfields⟩ := Option.bind_eq_some_iff.1 hrest
    obtain ⟨-, rfl⟩ := assertLe_eq hb₂
    obtain ⟨hat, hlen⟩ := packField_at h hb₁
    obtain ⟨hat', hlen'⟩ := ih hat hfields
    rw [List.map_cons, List.sum_cons, ← Nat.add_assoc]
    exact ⟨hat', hlen'.trans hlen⟩

/-- **What can be packed has less than `2 ^ 31` bytes.**  The first assertion converts the size of
the buffer to an `int`; a size at which that is not negative but differs needs a write at a position
that is. -/
theorem packTuple_lt {id : BitVec 8} {tpl : List PackValue} (h : b.At n) (hn : n < 2 ^ 31)
    (hlen : b.bytes.length = (n + packedSize tpl) % 2 ^ 64)
    (hb' : packTuple id tpl b = some b') : n + packedSize tpl < 2 ^ 31 := by
  obtain ⟨b₁, hb₁, hrest⟩ := Option.bind_eq_some_iff.1 hb'
  obtain ⟨hfirst, rfl⟩ := assertLe_eq hb₁
  obtain ⟨b₂, hb₂, hrest⟩ := Option.bind_eq_some_iff.1 hrest
  obtain ⟨b₃, hb₃, hfields⟩ := Option.bind_eq_some_iff.1 hrest
  obtain ⟨-, rfl⟩ := assertLe_eq hb₃
  obtain ⟨hat, -⟩ := pack_at h hb₂ (by simp)
  obtain ⟨⟨-, hlt⟩, -⟩ := packFields_at hat hfields
  rw [length_toBytes, Nat.add_assoc] at hlt
  change n + packedSize tpl < 2 ^ 31 + 8 at hlt
  rw [hlen, Nat.mod_eq_of_lt (by omega), h.1, intOfSize_of_lt hn, intOfSize] at hfirst
  split at hfirst <;> omega

/-! ## Writing -/

variable {done rest : List (BitVec 8)}

/-- A write after what was written. -/
theorem pack_append (done rest data : List (BitVec 8))
    (hsize : done.length + rest.length < 2 ^ 31)
    (hdata : data.length ≤ rest.length) :
    PackBuffer.pack data ⟨done ++ rest, done.length⟩ =
      some ⟨(done ++ data) ++ rest.drop data.length, (done ++ data).length⟩ := by
  have hdone : done.length < 2 ^ 31 := by omega
  have hsum : (done.length + data.length) % 2 ^ 64 = done.length + data.length :=
    Nat.mod_eq_of_lt (by omega)
  have hint : intOfSize (done.length + data.length) = (done ++ data).length := by
    rw [intOfSize_of_lt (by omega), List.length_append]
  rw [PackBuffer.pack, sizeOfInt_natCast hdone, hsum, if_pos, Int.toNat_natCast, writeAt_append,
    hint]
  exact ⟨Int.natCast_nonneg _, by rw [List.length_append]; omega⟩

theorem length_drop_append (done : List (BitVec 8)) (hdata : data.length ≤ rest.length) :
    (done ++ data).length + (rest.drop data.length).length = done.length + rest.length := by
  rw [List.length_append, List.length_drop]
  omega

theorem packCells_append (words : List (BitVec 64)) (hsize : done.length + rest.length < 2 ^ 31)
    (hroom : 8 * words.length ≤ rest.length) :
    packCells words ⟨done ++ rest, done.length⟩ =
      some ⟨(done ++ cellBytes words) ++ rest.drop (8 * words.length),
        (done ++ cellBytes words).length⟩ := by
  induction words generalizing done rest with
  | nil => simp [packCells, cellBytes]
  | cons w words ih =>
    have hlen : (toBytes 8 w.toNat).length = 8 := length_toBytes _ _
    rw [List.length_cons] at hroom
    have hdata : (toBytes 8 w.toNat).length ≤ rest.length := by omega
    have hcells : cellBytes (w :: words) = toBytes 8 w.toNat ++ cellBytes words := rfl
    rw [packCells, pack_append _ _ _ hsize hdata, Option.bind_eq_bind, Option.bind_some,
      ih (by rw [length_drop_append _ hdata]; exact hsize) (by rw [List.length_drop]; omega), hcells,
      List.append_assoc done, List.drop_drop, hlen, List.length_cons, Nat.mul_succ,
      Nat.add_comm 8 (8 * words.length)]

theorem assertLe_append (hsize : done.length + rest.length < 2 ^ 31) :
    PackBuffer.assertLe ⟨done ++ rest, done.length⟩ = some ⟨done ++ rest, done.length⟩ := by
  rw [PackBuffer.assertLe, if_pos]
  show (done.length : ℤ) ≤ intOfSize (done ++ rest).length
  rw [List.length_append, intOfSize_of_lt hsize]
  omega

theorem assertLt_append (hsize : done.length + rest.length < 2 ^ 31) :
    PackBuffer.assertLt ⟨done ++ rest, done.length⟩ =
      if rest = [] then none else some ⟨done ++ rest, done.length⟩ := by
  have hroom : (done.length : ℤ) < intOfSize (done ++ rest).length ↔ rest ≠ [] := by
    rw [List.length_append, intOfSize_of_lt hsize, ← List.length_pos_iff]
    omega
  unfold PackBuffer.assertLt
  by_cases hrest : rest = []
  · rw [if_pos hrest, if_neg fun hlt => hroom.1 hlt hrest]
  · rw [if_neg hrest, if_pos (hroom.2 hrest)]

/-- One field: only an empty list at the end of the buffer is not packed. -/
theorem packField_append (v : PackValue) (hsize : done.length + rest.length < 2 ^ 31)
    (hroom : byteSize v ≤ rest.length) :
    packField v ⟨done ++ rest, done.length⟩ =
      if v = .list [] ∧ rest.length = 4 then none
      else some ⟨(done ++ fieldBytes v) ++ rest.drop (byteSize v), (done ++ fieldBytes v).length⟩ := by
  have hscalar : packField v = PackBuffer.pack (fieldBytes v) → v ≠ .list [] →
      packField v ⟨done ++ rest, done.length⟩ = if v = .list [] ∧ rest.length = 4 then none
        else some ⟨(done ++ fieldBytes v) ++ rest.drop (byteSize v),
          (done ++ fieldBytes v).length⟩ := by
    intro hpack hne
    have hdata : (fieldBytes v).length ≤ rest.length := by
      rw [length_fieldBytes]
      exact hroom
    rw [if_neg fun hv => hne hv.1, hpack, pack_append _ _ _ hsize hdata, length_fieldBytes]
  cases v with
  | int i => exact hscalar rfl nofun
  | float f => exact hscalar rfl nofun
  | node n => exact hscalar rfl nofun
  | list words =>
    rw [byteSize] at hroom
    have hlen : (toBytes 4 words.length).length = 4 := length_toBytes _ _
    have hdata : (toBytes 4 words.length).length ≤ rest.length := by omega
    have hdrop := length_drop_append done hdata
    have hempty : rest.drop (toBytes 4 words.length).length = [] ↔
        PackValue.list words = .list [] ∧ rest.length = 4 := by
      rw [List.drop_eq_nil_iff, hlen, PackValue.list.injEq, ← List.length_eq_zero_iff]
      omega
    rw [packField, packCons, pack_append _ _ _ hsize hdata, Option.bind_eq_bind, Option.bind_some,
      assertLt_append (by rw [hdrop]; exact hsize)]
    by_cases hend : PackValue.list words = .list [] ∧ rest.length = 4
    · rw [if_pos (hempty.2 hend), if_pos hend]
      rfl
    · rw [if_neg fun hnil => hend (hempty.1 hnil), if_neg hend, Option.bind_some,
        packCells_append words (by rw [hdrop]; exact hsize)
          (by rw [List.length_drop]; omega), fieldBytes, List.append_assoc done, List.drop_drop,
        hlen, byteSize]

/-- The fields of a tuple, in a buffer that has just the room for them. -/
theorem packFields_append (tpl : List PackValue) (hsize : done.length + rest.length < 2 ^ 31)
    (hroom : rest.length = (tpl.map byteSize).sum) :
    packFields tpl ⟨done ++ rest, done.length⟩ =
      if tpl.getLast? = some (.list []) then none
      else some ⟨done ++ fieldsBytes tpl, (done ++ fieldsBytes tpl).length⟩ := by
  induction tpl generalizing done rest with
  | nil =>
    obtain rfl := List.length_eq_zero_iff.1 hroom
    rw [if_neg nofun, packFields, fieldsBytes, List.flatMap_nil, List.append_nil]
  | cons v tpl ih =>
    rw [List.map_cons, List.sum_cons] at hroom
    have hlast : v = .list [] ∧ rest.length = 4 ↔ tpl = [] ∧ v = .list [] := by
      rw [hroom]
      cases tpl with
      | nil =>
        refine ⟨fun hv => ⟨rfl, hv.1⟩, fun hv => ⟨hv.2, ?_⟩⟩
        rw [hv.2]
        rfl
      | cons u tpl =>
        refine iff_of_false (fun hv => ?_) (fun hv => List.cons_ne_nil _ _ hv.1)
        obtain ⟨rfl, hlen⟩ := hv
        have hpos : 0 < byteSize u := by
          cases u <;> rw [byteSize] <;> omega
        rw [List.map_cons, List.sum_cons] at hlen
        change 4 + (byteSize u + (tpl.map byteSize).sum) = 4 at hlen
        omega
    rw [packFields, packField_append v hsize (by omega)]
    by_cases hend : tpl = [] ∧ v = .list []
    · obtain ⟨rfl, rfl⟩ := hend
      rw [if_pos (hlast.2 ⟨rfl, rfl⟩)]
      rfl
    · have hdata : (fieldBytes v).length ≤ rest.length := by
        rw [length_fieldBytes]
        omega
      have hdrop := length_drop_append done hdata
      rw [length_fieldBytes] at hdrop
      have hgetLast : (v :: tpl).getLast? = some (.list []) ↔ tpl.getLast? = some (.list []) := by
        cases tpl with
        | nil => simpa using fun hv : v = .list [] => hend ⟨rfl, hv⟩
        | cons u tpl => rw [List.getLast?_cons_cons]
      rw [if_neg fun hv => hend (hlast.1 hv), Option.bind_eq_bind, Option.bind_some,
        assertLe_append (by rw [hdrop]; exact hsize), Option.bind_some,
        ih (by rw [hdrop]; exact hsize) (by rw [List.length_drop]; omega), if_congr hgetLast rfl rfl,
        List.append_assoc done]
      rfl

/-- **What packing writes**, in a buffer that has just the room after what is written already. -/
theorem packTuple_eq (id : BitVec 8) (tpl : List PackValue) (done rest : List (BitVec 8))
    (hsize : done.length + rest.length < 2 ^ 31) (hroom : rest.length = packedSize tpl) :
    packTuple id tpl ⟨done ++ rest, done.length⟩ =
      if tpl.getLast? = some (.list []) then none
      else some ⟨done ++ tupleBytes id tpl, (done ++ tupleBytes id tpl).length⟩ := by
  have hlen : (toBytes 1 id.toNat).length = 1 := length_toBytes _ _
  have hdata : (toBytes 1 id.toNat).length ≤ rest.length := by
    rw [hlen, hroom, packedSize]
    omega
  have hdrop := length_drop_append done hdata
  rw [packTuple, assertLe_append hsize, Option.bind_eq_bind, Option.bind_some,
    pack_append _ _ _ hsize hdata, Option.bind_some,
    assertLe_append (by rw [hdrop]; exact hsize), Option.bind_some,
    packFields_append tpl (by rw [hdrop]; exact hsize)
      (by rw [List.length_drop, hlen, hroom, packedSize]; omega), List.append_assoc done]
  rfl

/-! ## Reading -/

/-- A read of what was written. -/
theorem unpack_append (done data rest : List (BitVec 8))
    (hsize : (done ++ (data ++ rest)).length < 2 ^ 31) :
    unpack data.length (done ++ (data ++ rest)) done.length =
      some (data, ((done ++ data).length : ℤ)) := by
  rw [List.length_append, List.length_append] at hsize
  have hdone : done.length < 2 ^ 31 := by omega
  have hsum : (done.length + data.length) % 2 ^ 64 = done.length + data.length :=
    Nat.mod_eq_of_lt (by omega)
  have hint : intOfSize (done.length + data.length) = (done ++ data).length := by
    rw [intOfSize_of_lt (by omega), List.length_append]
  unfold unpack
  rw [sizeOfInt_natCast hdone, hsum, if_pos, Int.toNat_natCast, readAt_append, hint]
  exact ⟨Int.natCast_nonneg _, by rw [List.length_append, List.length_append]; omega⟩

/-- A read of a word. -/
theorem unpack_toBytes (done rest : List (BitVec 8)) (k n : ℕ)
    (hsize : (done ++ (toBytes k n ++ rest)).length < 2 ^ 31) :
    unpack k (done ++ (toBytes k n ++ rest)) done.length =
      some (toBytes k n, ((done ++ toBytes k n).length : ℤ)) := by
  have h := unpack_append done (toBytes k n) rest hsize
  rwa [length_toBytes] at h

/-- A word comes back. -/
theorem ofNat_ofBytes_toBytes {k : ℕ} (w : BitVec (8 * k)) :
    BitVec.ofNat (8 * k) (ofBytes (toBytes k w.toNat)) = w := by
  have hlt : w.toNat < 256 ^ k := by
    have hw := w.isLt
    rwa [Nat.pow_mul] at hw
  rw [ofBytes_toBytes hlt, BitVec.ofNat_toNat, BitVec.setWidth_eq]

/-- The loop of `cons::unpack`, as it acts on the memory. -/
def loadCells (initial : BitVec 64 → Bool) (t : FieldType) :
    List (BitVec 64) → BitVec 64 → BitVec 64 → Memory → Option (BitVec 64 × Memory)
  | [], _, init, m => some (init, m)
  | w :: words, prev, init, m => do
    let (n, m) ← m.createCons initial 0 w t
    if prev = 0 then loadCells initial t words n n m
    else
      let m ← m.setTail prev n
      loadCells initial t words n init m

/-- A field of `tuple::load`, as it acts on the memory: the word of the field. -/
def loadValue (initial : BitVec 64 → Bool) (m : Memory) (t : FieldType) :
    PackValue → Option (BitVec 64 × Memory)
  | .int i => some (i.setWidth 64, m)
  | .float f => some (f, m)
  | .node n => (m.setNode initial n).map fun m => (n, m)
  | .list words => do
    let (p, m) ← loadCells initial t words 0 0 m
    let m ← m.incCons p
    return (p, m)

/-- `tuple::load`, as it acts on the memory. -/
def loadValues (initial : BitVec 64 → Bool) :
    List FieldType → List PackValue → Memory → Option (List (BitVec 64) × Memory)
  | t :: fields, v :: tpl, m => do
    let (w, m) ← loadValue initial m t v
    let (ws, m) ← loadValues initial fields tpl m
    return (w :: ws, m)
  | _, _, m => some ([], m)

variable {initial : BitVec 64 → Bool} {m m' : Memory}

theorem unpackCells_eq (t : FieldType) (words : List (BitVec 64)) (prev init : BitVec 64)
    (m : Memory) (done rest : List (BitVec 8))
    (hsize : (done ++ (cellBytes words ++ rest)).length < 2 ^ 31) :
    unpackCells initial t (done ++ (cellBytes words ++ rest)) words.length prev init done.length m =
      (loadCells initial t words prev init m).map fun r =>
        (r.1, ((done ++ cellBytes words).length : ℤ), r.2) := by
  induction words generalizing done prev init m with
  | nil => simp [unpackCells, loadCells, cellBytes]
  | cons w words ih =>
    have hcells : cellBytes (w :: words) ++ rest =
        toBytes 8 w.toNat ++ (cellBytes words ++ rest) := by
      rw [← List.append_assoc]
      rfl
    have hcells' : done ++ cellBytes (w :: words) = (done ++ toBytes 8 w.toNat) ++ cellBytes words := by
      rw [List.append_assoc]
      rfl
    rw [hcells] at hsize ⊢
    rw [hcells', List.length_cons, unpackCells, unpack_toBytes done _ 8 w.toNat hsize, loadCells]
    rw [← List.append_assoc] at hsize ⊢
    simp only [Option.bind_eq_bind, Option.bind_some, ofNat_ofBytes_toBytes (k := 8) w]
    cases hcons : m.createCons initial 0 w t with
    | none => rfl
    | some r =>
      simp only [Option.bind_some]
      split
      · exact ih _ _ _ _ hsize
      · cases r.2.setTail prev r.1 with
        | none => rfl
        | some m₁ => exact ih _ _ _ _ hsize

theorem unpackCons_eq (t : FieldType) (words : List (BitVec 64)) (m : Memory)
    (done rest : List (BitVec 8))
    (hsize : (done ++ (fieldBytes (.list words) ++ rest)).length < 2 ^ 31) :
    unpackCons initial t (done ++ (fieldBytes (.list words) ++ rest)) done.length m =
      (loadCells initial t words 0 0 m).map fun r =>
        (r.1, ((done ++ fieldBytes (.list words)).length : ℤ), r.2) := by
  have hlen : words.length < 256 ^ 4 := by
    simp only [List.length_append, length_fieldBytes, byteSize] at hsize
    omega
  rw [fieldBytes, List.append_assoc (toBytes 4 _)] at hsize ⊢
  rw [unpackCons, unpack_toBytes done _ 4 _ hsize]
  rw [← List.append_assoc] at hsize ⊢
  simp only [Option.bind_eq_bind, Option.bind_some, ofBytes_toBytes hlen]
  rw [unpackCells_eq t words 0 0 m _ _ hsize, List.append_assoc]

/-- One field is read back. -/
theorem loadField_eq {v : PackValue} {t : FieldType} (hv : v.HasType t) (m : Memory)
    (done rest : List (BitVec 8)) (hsize : (done ++ (fieldBytes v ++ rest)).length < 2 ^ 31) :
    loadField initial (done ++ (fieldBytes v ++ rest)) done.length m t =
      (loadValue initial m t v).map fun r => (r.1, ((done ++ fieldBytes v).length : ℤ), r.2) := by
  cases hv with
  | int i =>
    have hi : ofBytes (toBytes 4 i.toNat) = i.toNat := ofBytes_toBytes i.isLt
    rw [fieldBytes] at hsize ⊢
    rw [loadField, unpack_toBytes done rest 4 _ hsize, loadValue]
    simp only [Option.bind_eq_bind, Option.bind_some, Option.map_some, hi, BitVec.ofNat_toNat]
    rfl
  | float f =>
    rw [fieldBytes] at hsize ⊢
    rw [loadField, unpack_toBytes done rest 8 _ hsize, loadValue]
    simp only [Option.bind_eq_bind, Option.bind_some, Option.map_some,
      ofNat_ofBytes_toBytes (k := 8) f]
    rfl
  | node n =>
    rw [fieldBytes] at hsize ⊢
    rw [loadField, unpack_toBytes done rest 8 _ hsize, loadValue]
    simp only [Option.bind_eq_bind, Option.bind_some, ofNat_ofBytes_toBytes (k := 8) n]
    cases m.setNode initial n <;> rfl
  | list words t =>
    rw [loadField, unpackCons_eq _ words m done rest hsize, loadValue]
    cases loadCells initial (.list t) words 0 0 m with
    | none => rfl
    | some r =>
      simp only [Option.map_some, Option.bind_eq_bind, Option.bind_some]
      cases r.2.incCons r.1 <;> rfl

/-- **The fields are read back.** -/
theorem load_eq {tpl : List PackValue} {fields : List FieldType}
    (htpl : List.Forall₂ PackValue.HasType tpl fields) (m : Memory) (done rest : List (BitVec 8))
    (hsize : (done ++ (fieldsBytes tpl ++ rest)).length < 2 ^ 31) :
    load initial (done ++ (fieldsBytes tpl ++ rest)) fields done.length m =
      (loadValues initial fields tpl m).map fun r =>
        (r.1, ((done ++ fieldsBytes tpl).length : ℤ), r.2) := by
  induction htpl generalizing m done with
  | nil => simp [load, loadValues, fieldsBytes]
  | @cons v t tpl fields hv htpl ih =>
    have hbytes : fieldsBytes (v :: tpl) = fieldBytes v ++ fieldsBytes tpl := rfl
    rw [hbytes, List.append_assoc] at hsize ⊢
    rw [load, loadField_eq hv m done _ hsize, loadValues]
    rw [← List.append_assoc] at hsize ⊢
    cases loadValue initial m t v with
    | none => rfl
    | some r =>
      simp only [Option.map_some, Option.bind_eq_bind, Option.bind_some]
      rw [ih r.2 _ hsize, List.append_assoc]
      cases loadValues initial fields tpl r.2 <;> rfl

end Packing

end Meld
