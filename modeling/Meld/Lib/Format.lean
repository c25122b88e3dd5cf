import Meld.Lib.Bytes
import Mathlib.Data.List.Flatten

/-!
# Readers of a binary format

A reader takes bytes from the front of a file and gives a value, or fails.  What it is written for
is a format: the data that a file can hold, the bytes that stand for the data, and what the reader
makes of it.  The two fit if the reader accepts exactly the bytes of the valid data, with any bytes
behind them, and gives the value of the data.

The rules below build formats along the readers: for two readers in a row, for a check, for a reader
that is run a number of times, and for a loop that carries a state.

* `Reads`: the reader fits the format.
* `Reads.run_bytes`, `Reads.bytes_of_run`: what is written is read, and what is read was written.
* `Reads.bind`, `Reads.check`, `Reads.map`: readers in a row.
* `Reads.via`: the same data in another form.
* `Reads.readMany`, `Reads.readLoop`: loops.
* `reads_readWord`, `reads_readBytes`, `Reads.skip`: words, raw bytes, and a part that is skipped.
* `Reads.tagged`: a word that says what comes behind it, or how much.
-/

namespace Format

open Bytes

/-- What is left of a file, and a reader of it that can fail. -/
abbrev Reader (ε α : Type) := StateT (List (BitVec 8)) (Except ε) α

variable {ε α β σ ι κ : Type}

/-- The reader accepts exactly the bytes of the valid data, with any bytes behind them, and gives
the value of the data. -/
def Reads (r : Reader ε α) (valid : ι → Prop) (bytes : ι → List (BitVec 8)) (value : ι → α) : Prop :=
  ∀ bs a rest, r.run bs = .ok (a, rest) ↔ ∃ x, valid x ∧ bytes x ++ rest = bs ∧ value x = a

variable {r : Reader ε α} {valid : ι → Prop} {bytes : ι → List (BitVec 8)} {value : ι → α}

/-- What was written is read. -/
theorem Reads.run_bytes (h : Reads r valid bytes value) {x : ι} (hx : valid x)
    (rest : List (BitVec 8)) : r.run (bytes x ++ rest) = .ok (value x, rest) :=
  (h _ _ _).2 ⟨x, hx, rfl, rfl⟩

/-- What is read was written. -/
theorem Reads.bytes_of_run (h : Reads r valid bytes value) {bs rest : List (BitVec 8)} {a : α}
    (ha : r.run bs = .ok (a, rest)) : ∃ x, valid x ∧ bytes x ++ rest = bs ∧ value x = a :=
  (h _ _ _).1 ha

theorem reads_pure (a : α) :
    Reads (pure a : Reader ε α) (fun _ : Unit => True) (fun _ => []) fun _ => a := by
  intro bs b rest
  constructor
  · intro h
    injection h with h
    cases h
    exact ⟨(), trivial, rfl, rfl⟩
  · rintro ⟨-, -, rfl, rfl⟩
    rfl

/-- A bind that succeeds. -/
theorem bind_run_eq_ok {k : α → Reader ε β} {bs rest : List (BitVec 8)} {b : β} :
    (r >>= k).run bs = .ok (b, rest) ↔
      ∃ a mid, r.run bs = .ok (a, mid) ∧ (k a).run mid = .ok (b, rest) := by
  rw [StateT.run_bind]
  cases h : r.run bs with
  | error e =>
    constructor
    · intro hb
      cases hb
    · rintro ⟨a, mid, ha, -⟩
      cases ha
  | ok p =>
    constructor
    · exact fun hb => ⟨p.1, p.2, rfl, hb⟩
    · rintro ⟨a, mid, ha, hb⟩
      cases ha
      exact hb

/-- Two readers in a row.  The second one, and what it accepts, may depend on what was read
before. -/
theorem Reads.bind (h : Reads r valid bytes value) {k : α → Reader ε β} {valid' : ι → κ → Prop}
    {bytes' : ι → κ → List (BitVec 8)} {value' : ι → κ → β}
    (hk : ∀ x, valid x → Reads (k (value x)) (valid' x) (bytes' x) (value' x)) :
    Reads (r >>= k) (fun p : ι × κ => valid p.1 ∧ valid' p.1 p.2)
      (fun p => bytes p.1 ++ bytes' p.1 p.2) fun p => value' p.1 p.2 := by
  intro bs b rest
  rw [bind_run_eq_ok]
  constructor
  · rintro ⟨a, mid, ha, hb⟩
    obtain ⟨x, hx, rfl, rfl⟩ := h.bytes_of_run ha
    obtain ⟨y, hy, rfl, rfl⟩ := (hk x hx).bytes_of_run hb
    exact ⟨(x, y), ⟨hx, hy⟩, List.append_assoc .., rfl⟩
  · rintro ⟨⟨x, y⟩, ⟨hx, hy⟩, rfl, rfl⟩
    refine ⟨value x, bytes' x y ++ rest, ?_, (hk x hx).run_bytes hy rest⟩
    rw [List.append_assoc]
    exact h.run_bytes hx _

/-- What is done with the value does not change what is accepted. -/
theorem Reads.map (h : Reads r valid bytes value) (f : α → β) :
    Reads (r >>= fun a => pure (f a)) valid bytes fun x => f (value x) := by
  intro bs b rest
  rw [bind_run_eq_ok]
  constructor
  · rintro ⟨a, mid, ha, hb⟩
    obtain ⟨x, hx, rfl, rfl⟩ := h.bytes_of_run ha
    cases hb
    exact ⟨x, hx, rfl, rfl⟩
  · rintro ⟨x, hx, rfl, rfl⟩
    exact ⟨value x, rest, h.run_bytes hx rest, rfl⟩

/-- The same data in another form: `c` makes it, from all valid data. -/
theorem Reads.via (h : Reads r valid bytes value) (c : ι → κ) {valid' : κ → Prop}
    {bytes' : κ → List (BitVec 8)} {value' : κ → α}
    (hvalid : ∀ y, valid' y ↔ ∃ x, valid x ∧ c x = y)
    (hbytes : ∀ x, valid x → bytes' (c x) = bytes x)
    (hvalue : ∀ x, valid x → value' (c x) = value x) : Reads r valid' bytes' value' := by
  intro bs a rest
  rw [h]
  constructor
  · rintro ⟨x, hx, rfl, rfl⟩
    exact ⟨c x, (hvalid _).2 ⟨x, hx, rfl⟩, by rw [hbytes x hx], hvalue x hx⟩
  · rintro ⟨y, hy, rfl, rfl⟩
    obtain ⟨x, hx, rfl⟩ := (hvalid y).1 hy
    exact ⟨x, hx, by rw [hbytes x hx], (hvalue x hx).symm⟩

/-- A format is what it says of the valid data. -/
theorem Reads.congr (h : Reads r valid bytes value) {valid' : ι → Prop}
    {bytes' : ι → List (BitVec 8)} {value' : ι → α} (hvalid : ∀ x, valid' x ↔ valid x)
    (hbytes : ∀ x, valid x → bytes' x = bytes x) (hvalue : ∀ x, valid x → value' x = value x) :
    Reads r valid' bytes' value' :=
  h.via id (fun y => by simp [hvalid]) hbytes hvalue

/-- A reader that fails accepts nothing. -/
theorem reads_throw (e : ε) :
    Reads (throw e : Reader ε α) (fun _ : ι => False) bytes value := by
  intro bs a rest
  constructor
  · intro h
    cases h
  · rintro ⟨x, hx, -⟩
    exact hx.elim

/-! ## Checks -/

/-- Fails with the given error if the condition does not hold. -/
def check (c : Prop) [Decidable c] (e : ε) : Reader ε Unit := if c then pure () else throw e

variable {c : Prop} [Decidable c]

theorem run_check_bind (e : ε) (r : Reader ε α) (bs : List (BitVec 8)) :
    (check c e >>= fun _ => r).run bs = if c then r.run bs else .error e := by
  by_cases hc : c
  · rw [check, if_pos hc, if_pos hc, pure_bind]
  · rw [check, if_neg hc, if_neg hc]
    rfl

/-- A check in front of a reader. -/
theorem Reads.check (h : c → Reads r valid bytes value) (e : ε) :
    Reads (check c e >>= fun _ => r) (fun x => c ∧ valid x) bytes value := by
  intro bs a rest
  rw [run_check_bind]
  by_cases hc : c
  · rw [if_pos hc, h hc]
    exact exists_congr fun x => and_congr_left fun _ => (and_iff_right hc).symm
  · rw [if_neg hc]
    constructor
    · intro h
      cases h
    · rintro ⟨x, ⟨hx, -⟩, -⟩
      exact absurd hx hc

/-- A check of what was read. -/
theorem Reads.filter (h : Reads r valid bytes value) (p : α → Prop) [DecidablePred p] (e : ε)
    (f : α → β) :
    Reads (r >>= fun a => Format.check (p a) e >>= fun _ => pure (f a))
      (fun x => valid x ∧ p (value x)) bytes fun x => f (value x) := by
  refine (h.bind fun x _ => Reads.check (fun _ => reads_pure (f (value x))) e).via Prod.fst (fun x => ?_) ?_ ?_
  · constructor
    · exact fun hx => ⟨(x, ()), ⟨hx.1, hx.2, trivial⟩, rfl⟩
    · rintro ⟨⟨x, u⟩, ⟨hx, hp, -⟩, rfl⟩
      exact ⟨hx, hp⟩
  · exact fun x _ => (List.append_nil _).symm
  · exact fun _ _ => rfl

/-! ## Loops -/

/-- Runs a reader a number of times. -/
def readMany (r : Reader ε α) : ℕ → Reader ε (List α)
  | 0 => pure []
  | n + 1 => do
    let a ← r
    let as ← readMany r n
    pure (a :: as)

theorem Reads.readMany (h : Reads r valid bytes value) (n : ℕ) :
    Reads (readMany r n) (fun xs : List ι => xs.length = n ∧ ∀ x ∈ xs, valid x)
      (fun xs => xs.flatMap bytes) fun xs => xs.map value := by
  induction n with
  | zero =>
    intro bs as rest
    rw [Format.readMany, reads_pure]
    constructor
    · rintro ⟨-, -, rfl, rfl⟩
      exact ⟨[], ⟨rfl, by simp⟩, rfl, rfl⟩
    · rintro ⟨xs, ⟨hlen, -⟩, rfl, rfl⟩
      obtain rfl := List.length_eq_zero_iff.1 hlen
      exact ⟨(), trivial, rfl, rfl⟩
  | succ n ih =>
    intro bs as rest
    rw [Format.readMany, (h.bind fun x _ => ih.bind fun xs _ => reads_pure (value x :: xs.map value))]
    constructor
    · rintro ⟨⟨x, xs, u⟩, ⟨hx, ⟨hlen, hxs⟩, -⟩, rfl, rfl⟩
      refine ⟨x :: xs, ⟨congrArg (· + 1) hlen, ?_⟩, ?_, rfl⟩
      · simpa using ⟨hx, hxs⟩
      · simp
    · rintro ⟨xs, ⟨hlen, hxs⟩, rfl, rfl⟩
      obtain ⟨x, xs, rfl⟩ := List.exists_cons_of_length_eq_add_one hlen
      simp only [List.mem_cons, forall_eq_or_imp] at hxs
      exact ⟨(x, xs, ()), ⟨hxs.1, ⟨Nat.succ.inj hlen, hxs.2⟩, trivial⟩, by simp, rfl⟩

/-- A loop that carries a state. -/
def readLoop (body : σ → Reader ε σ) : ℕ → σ → Reader ε σ
  | 0, s => pure s
  | n + 1, s => body s >>= readLoop body n

/-- Each of the data is valid in the state that the data in front of it lead to. -/
def ValidAlong (valid : σ → ι → Prop) (next : σ → ι → σ) : σ → List ι → Prop
  | _, [] => True
  | s, x :: xs => valid s x ∧ ValidAlong valid next (next s x) xs

theorem Reads.readLoop {body : σ → Reader ε σ} {valid : σ → ι → Prop} {next : σ → ι → σ}
    (h : ∀ s, Reads (body s) (valid s) bytes (next s)) (n : ℕ) (s : σ) :
    Reads (readLoop body n s) (fun xs : List ι => xs.length = n ∧ ValidAlong valid next s xs)
      (fun xs => xs.flatMap bytes) fun xs => xs.foldl next s := by
  induction n generalizing s with
  | zero =>
    intro bs t rest
    rw [Format.readLoop, reads_pure]
    constructor
    · rintro ⟨-, -, rfl, rfl⟩
      exact ⟨[], ⟨rfl, trivial⟩, rfl, rfl⟩
    · rintro ⟨xs, ⟨hlen, -⟩, rfl, rfl⟩
      obtain rfl := List.length_eq_zero_iff.1 hlen
      exact ⟨(), trivial, rfl, rfl⟩
  | succ n ih =>
    intro bs t rest
    rw [Format.readLoop, ((h s).bind fun x _ => ih (next s x))]
    constructor
    · rintro ⟨⟨x, xs⟩, ⟨hx, hlen, hxs⟩, rfl, rfl⟩
      exact ⟨x :: xs, ⟨congrArg (· + 1) hlen, hx, hxs⟩, by simp, rfl⟩
    · rintro ⟨xs, ⟨hlen, hxs⟩, rfl, rfl⟩
      obtain ⟨x, xs, rfl⟩ := List.exists_cons_of_length_eq_add_one hlen
      exact ⟨(x, xs), ⟨hxs.1, Nat.succ.inj hlen, hxs.2⟩, by simp, rfl⟩

/-- Data whose validity depends on something that the loop does not change. -/
theorem validAlong_const (par : σ → κ) (V : κ → ι → Prop) {next : σ → ι → σ}
    (hpar : ∀ s x, par (next s x) = par s) (s : σ) (xs : List ι) :
    ValidAlong (fun s => V (par s)) next s xs ↔ ∀ x ∈ xs, V (par s) x := by
  induction xs generalizing s with
  | nil => simp [ValidAlong]
  | cons x xs ih => rw [ValidAlong, ih, hpar, List.forall_mem_cons]

/-- Data whose validity depends on the number of data in front of them, too. -/
theorem validAlong_index (par : σ → κ) (index : σ → ℕ) (V : κ → ℕ → ι → Prop) {next : σ → ι → σ}
    (hpar : ∀ s x, par (next s x) = par s) (hindex : ∀ s x, index (next s x) = index s + 1) (s : σ)
    (xs : List ι) : ValidAlong (fun s => V (par s) (index s)) next s xs ↔
      ∀ i x, xs[i]? = some x → V (par s) (index s + i) x := by
  induction xs generalizing s with
  | nil => simp [ValidAlong]
  | cons x xs ih =>
    rw [ValidAlong, ih, hpar, hindex]
    constructor
    · rintro ⟨hx, hxs⟩ i y hy
      cases i with
      | zero =>
        cases hy
        exact hx
      | succ i =>
        rw [Nat.add_comm i, ← Nat.add_assoc]
        exact hxs i y hy
    · intro h
      refine ⟨h 0 x rfl, fun i y hy => ?_⟩
      rw [Nat.add_assoc, Nat.add_comm 1]
      exact h (i + 1) y hy

/-- What the steps of a loop do not change. -/
theorem foldl_keeps (f : σ → κ) {next : σ → ι → σ} (h : ∀ s x, f (next s x) = f s) (s : σ)
    (xs : List ι) : f (xs.foldl next s) = f s := by
  induction xs generalizing s with
  | nil => rfl
  | cons x xs ih => rw [List.foldl_cons, ih, h]

/-! ## Words and raw bytes -/

/-- `n` bytes as they are. -/
def readBytes (e : ε) (n : ℕ) : Reader ε (List (BitVec 8)) := do
  let bs ← get
  check (n ≤ bs.length) e
  set (bs.drop n)
  pure (bs.take n)

/-- A little-endian word of `k` bytes. -/
def readWord (e : ε) (k : ℕ) : Reader ε ℕ := do
  let bs ← readBytes e k
  pure (ofBytes bs)

/-- Goes on `n` bytes, and at most to the end. -/
def skip (n : ℕ) : Reader ε Unit := modify fun bs => bs.drop n

theorem run_readBytes (e : ε) (n : ℕ) (bs : List (BitVec 8)) :
    (readBytes e n).run bs =
      if n ≤ bs.length then .ok (bs.take n, bs.drop n) else .error e := by
  have hrun : (readBytes e n).run bs = (check (n ≤ bs.length) e >>= fun _ =>
      (set (bs.drop n) >>= fun _ => pure (bs.take n) : Reader ε _)).run bs := rfl
  rw [hrun, run_check_bind]
  rfl

theorem reads_readBytes (e : ε) (n : ℕ) :
    Reads (readBytes e n) (fun x => x.length = n) id id := by
  intro bs a rest
  rw [run_readBytes]
  by_cases h : n ≤ bs.length
  · rw [if_pos h]
    constructor
    · intro heq
      cases heq
      exact ⟨bs.take n, List.length_take_of_le h, List.take_append_drop .., rfl⟩
    · rintro ⟨x, rfl, rfl, rfl⟩
      rw [id, List.take_left, List.drop_left]
  · rw [if_neg h]
    constructor
    · intro heq
      cases heq
    · rintro ⟨x, rfl, rfl, rfl⟩
      exact absurd (by simp) h

theorem reads_readWord (e : ε) (k : ℕ) :
    Reads (readWord e k) (fun x => x < 256 ^ k) (toBytes k) id := by
  intro bs a rest
  rw [readWord, (reads_readBytes e k).map]
  constructor
  · rintro ⟨x, hlen, hbs, rfl⟩
    exact ⟨ofBytes x, ofBytes_lt hlen, by rw [toBytes_ofBytes hlen]; exact hbs, rfl⟩
  · rintro ⟨x, hx, hbs, rfl⟩
    exact ⟨toBytes k x, length_toBytes k x, hbs, ofBytes_toBytes hx⟩

/-- A word that says what comes behind it: a tag, or a length. -/
theorem Reads.tagged {k : ℕ → Reader ε α} {w : ℕ} (tag : ι → ℕ) (valid : ι → Prop)
    (h : ∀ t, t < 256 ^ w → Reads (k t) (fun x => tag x = t ∧ valid x) bytes value) (e : ε) :
    Reads (readWord e w >>= k) (fun x => tag x < 256 ^ w ∧ valid x)
      (fun x => toBytes w (tag x) ++ bytes x) value := by
  refine ((reads_readWord e w).bind fun t ht => h t ht).via Prod.snd (fun x => ?_) ?_ ?_
  · constructor
    · exact fun hx => ⟨(tag x, x), ⟨hx.1, rfl, hx.2⟩, rfl⟩
    · rintro ⟨⟨t, x⟩, ⟨ht, heq, hx⟩, rfl⟩
      exact ⟨Nat.lt_of_le_of_lt (Nat.le_of_eq heq) ht, hx⟩
  · rintro ⟨t, x⟩ ⟨-, heq, -⟩
    exact congrArg (toBytes w · ++ bytes x) heq
  · exact fun _ _ => rfl

/-- A part that is skipped in front of a reader that takes at least one byte: the part is there.
It holds the bytes of data that are not read here. -/
theorem Reads.skip (h : Reads r valid bytes value) (hne : ∀ x, valid x → bytes x ≠ []) {n : ℕ}
    {skipped : κ → Prop} {bytes' : κ → List (BitVec 8)}
    (hskipped : ∀ raw, raw.length = n ↔ ∃ y, skipped y ∧ bytes' y = raw) :
    Reads (skip n >>= fun _ => r) (fun p : κ × ι => skipped p.1 ∧ valid p.2)
      (fun p => bytes' p.1 ++ bytes p.2) fun p => value p.2 := by
  intro bs a rest
  have hrun : (Format.skip n >>= fun _ => r).run bs = r.run (bs.drop n) := rfl
  rw [hrun, h]
  constructor
  · rintro ⟨x, hx, hbs, ha⟩
    have hlt : n < bs.length := by
      by_contra hle
      rw [List.drop_eq_nil_of_le (Nat.le_of_not_lt hle)] at hbs
      exact hne x hx (List.append_eq_nil_iff.1 hbs).1
    obtain ⟨y, hy, htake⟩ := (hskipped _).1 (List.length_take_of_le (Nat.le_of_lt hlt))
    refine ⟨(y, x), ⟨hy, hx⟩, ?_, ha⟩
    rw [List.append_assoc, hbs, htake, List.take_append_drop]
  · rintro ⟨⟨y, x⟩, ⟨hy, hx⟩, rfl, ha⟩
    refine ⟨x, hx, ?_, ha⟩
    rw [List.append_assoc, ← (hskipped _).2 ⟨y, hy, rfl⟩, List.drop_left]

end Format
