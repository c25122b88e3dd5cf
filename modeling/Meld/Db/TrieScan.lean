import Meld.Lib.Drift
import Meld.Db.TrieSearchCorrect

/-!
# The slots that a search of the trie reads

At a free field `find_next` looks for the children of a hash table bucket by bucket.  The loop
`for (; *buckets == nullptr && buckets < end_buckets; ++buckets)` reads the slot before it compares
the pointer with the end.  A scan that finds a bucket stops in time, and one that finds none reads
the word behind the last bucket.

* `Slots.scan`, `Slots.alternative`, `Slots.firstNode`: the scans, with the slots they read.
* `Slots.alternative_inRange_iff`, `Slots.firstNode_inRange_iff`: when they stay in the table.
* `ReadsInRange`, `AnotherChild`: the scans of one step of `find_next` stay in the table, and the
  level has another child.
* `search_reads_iff`: the first is so in every step of a search exactly if the second is.
-/

namespace Meld

namespace Slots

variable {α : Type*}

/-- What a slot holds: the first node of a bucket, and behind the buckets whatever is there. -/
def slot (buckets : List (List α)) (behind : ℕ → Option α) (i : ℕ) : Option α :=
  match buckets[i]? with
  | some bucket => bucket.head?
  | none => behind i

/-- The loop from slot `i` on, when `left` slots are left up to the end: where it stops, and the
slots it reads.  The slot is read before the pointer is compared with the end. -/
def scan (slot : ℕ → Option α) : ℕ → ℕ → ℕ × List ℕ
  | 0, i => (i, [i])
  | left + 1, i =>
    match slot i with
    | none => ((scan slot left (i + 1)).1, i :: (scan slot left (i + 1)).2)
    | some _ => (i, [i])

/-- The alternative of a node in bucket `b`, with the slots that are read: `next` is what comes
behind it in the bucket. -/
def alternative (buckets : List (List α)) (behind : ℕ → Option α) (b : ℕ) (next : List α) :
    Option α × List ℕ :=
  match next with
  | e :: _ => (some e, [])
  | [] =>
    let r := scan (slot buckets behind) (buckets.length - (b + 1)) (b + 1)
    if r.1 = buckets.length then (none, r.2) else (slot buckets behind r.1, r.2 ++ [r.1])

/-- The first node of the table and its alternative, with the slots that are read.  There is no node
when an assertion fails. -/
def firstNode (buckets : List (List α)) (behind : ℕ → Option α) :
    Option (α × Option α) × List ℕ :=
  let r := scan (slot buckets behind) buckets.length 0
  if r.1 < buckets.length then
    match slot buckets behind r.1 with
    | some d =>
      let alt := alternative buckets behind r.1 (buckets.getD r.1 []).tail
      (some (d, alt.1), r.2 ++ r.1 :: alt.2)
    | none => (none, r.2 ++ [r.1])
  else (none, r.2)

/-! ## Where a scan stops -/

/-- The slots are all slots of the table. -/
def InRange (buckets : List (List α)) (reads : List ℕ) : Prop := ∀ i ∈ reads, i < buckets.length

instance (buckets : List (List α)) (reads : List ℕ) : Decidable (InRange buckets reads) :=
  inferInstanceAs (Decidable (∀ i ∈ reads, i < buckets.length))

variable {buckets : List (List α)} {behind : ℕ → Option α} {b i left : ℕ} {next : List α}

/-- The number of empty buckets from bucket `i` on. -/
def gap (buckets : List (List α)) (i : ℕ) : ℕ := (buckets.drop i).findIdx fun c => !c.isEmpty

/-- **A scan** reads the empty buckets and the first slot behind them. -/
theorem scan_eq (h : i + left = buckets.length) :
    scan (slot buckets behind) left i = (i + gap buckets i, List.range' i (gap buckets i + 1)) := by
  induction left generalizing i with
  | zero =>
    have hdrop : buckets.drop i = [] := List.drop_eq_nil_of_le (by omega)
    simp [scan, gap, hdrop]
  | succ left ih =>
    have hi : i < buckets.length := by omega
    have hdrop : buckets.drop i = buckets[i] :: buckets.drop (i + 1) :=
      List.drop_eq_getElem_cons hi
    have hslot : slot buckets behind i = buckets[i].head? := by
      rw [slot, List.getElem?_eq_getElem hi]
    cases hc : buckets[i] with
    | nil =>
      have hgap : gap buckets i = gap buckets (i + 1) + 1 := by
        simp [gap, hdrop, hc, List.findIdx_cons]
      rw [scan, hslot, hc, List.head?_nil]
      simp only [ih (by omega : i + 1 + left = buckets.length), hgap]
      rw [← List.range'_succ, Nat.add_assoc, Nat.add_comm 1]
    | cons d c =>
      have hgap : gap buckets i = 0 := by simp [gap, hdrop, hc, List.findIdx_cons]
      rw [scan, hslot, hc, hgap]
      simp

/-- The first bucket that is not empty starts with the first node of all buckets. -/
theorem exists_first {xs : List (List α)} (h : xs.flatten ≠ []) :
    ∃ d c, xs[xs.findIdx fun c => !c.isEmpty]? = some (d :: c) ∧
      xs.flatten = d :: (c ++ (xs.drop ((xs.findIdx fun c => !c.isEmpty) + 1)).flatten) := by
  induction xs with
  | nil => exact absurd rfl h
  | cons a xs ih =>
    cases a with
    | nil =>
      obtain ⟨d, c, hget, hflat⟩ := ih h
      refine ⟨d, c, ?_, ?_⟩ <;> simpa [List.findIdx_cons] using ‹_›
    | cons d c => exact ⟨d, c, by simp [List.findIdx_cons], by simp [List.findIdx_cons]⟩

/-- A scan that finds no bucket stops at the end. -/
theorem add_gap_of_nil (hi : i ≤ buckets.length) (h : (buckets.drop i).flatten = []) :
    i + gap buckets i = buckets.length := by
  have hgap : gap buckets i = (buckets.drop i).length := by
    rw [gap, List.findIdx_eq_length]
    intro c hc
    rw [List.flatten_eq_nil_iff.1 h c hc]
    rfl
  rw [hgap, List.length_drop, Nat.add_sub_cancel' hi]

/-- A scan that finds a bucket stops there. -/
theorem exists_gap (behind : ℕ → Option α) (h : (buckets.drop i).flatten ≠ []) :
    ∃ d c, i + gap buckets i < buckets.length ∧ buckets.getD (i + gap buckets i) [] = d :: c ∧
      slot buckets behind (i + gap buckets i) = some d ∧
      (buckets.drop i).flatten = d :: (c ++ (buckets.drop (i + gap buckets i + 1)).flatten) := by
  obtain ⟨d, c, hget, hflat⟩ := exists_first h
  rw [List.getElem?_drop] at hget
  rw [List.drop_drop] at hflat
  refine ⟨d, c, (List.getElem?_eq_some_iff.1 hget).1, ?_, ?_, hflat⟩
  · rw [List.getD_eq_getElem?_getD, gap, hget]
    rfl
  · rw [slot, gap, hget]
    rfl

/-- What a scan reads is in the table if it stops in it. -/
theorem inRange_range' (h : i + left < buckets.length) :
    InRange buckets (List.range' i (left + 1)) := by
  intro k hk
  rw [List.mem_range'_1] at hk
  omega

/-- A scan that stops at the end has read the word there. -/
theorem not_inRange_range' (reads : List ℕ) (h : i + left = buckets.length) :
    ¬ InRange buckets (List.range' i (left + 1) ++ reads) := by
  intro hall
  have hmem : buckets.length ∈ List.range' i (left + 1) := by
    rw [List.mem_range'_1]
    omega
  exact Nat.lt_irrefl _ (hall _ (List.mem_append_left reads hmem))

/-- **The alternative** is the node behind, in the bucket or in a later one. -/
theorem alternative_fst (hb : b < buckets.length) :
    (alternative buckets behind b next).1 = (next ++ (buckets.drop (b + 1)).flatten).head? := by
  cases next with
  | cons e next => rfl
  | nil =>
    rw [alternative, scan_eq (Nat.add_sub_cancel' hb)]
    by_cases h : (buckets.drop (b + 1)).flatten = []
    · simp only [if_pos (add_gap_of_nil hb h), h]
      rfl
    · obtain ⟨d, c, hlt, -, hslot, hflat⟩ := exists_gap behind h
      simp only [if_neg (Nat.ne_of_lt hlt), hslot, hflat]
      rfl

/-- **The scan for the alternative** stays in the table exactly if there is one. -/
theorem alternative_inRange_iff : InRange buckets (alternative buckets behind b next).2 ↔
    next ++ (buckets.drop (b + 1)).flatten ≠ [] := by
  cases next with
  | cons e next => exact iff_of_true (fun _ h => absurd h List.not_mem_nil) (by simp)
  | nil =>
    by_cases hb : b + 1 ≤ buckets.length
    swap
    · -- a table without a slot for the node
      have hleft : buckets.length - (b + 1) = 0 := by omega
      have hdrop : buckets.drop (b + 1) = [] := List.drop_eq_nil_of_le (by omega)
      rw [alternative, hleft, scan, if_neg (by omega), hdrop]
      exact iff_of_false (fun hall => hb (Nat.le_of_lt (hall (b + 1) (by simp)))) (by simp)
    rw [alternative, scan_eq (Nat.add_sub_cancel' hb), List.nil_append]
    by_cases h : (buckets.drop (b + 1)).flatten = []
    · have hend := add_gap_of_nil hb h
      simp only [if_pos hend]
      have hout := not_inRange_range' [] hend
      rw [List.append_nil] at hout
      exact iff_of_false hout (not_not.2 h)
    · obtain ⟨d, c, hlt, -⟩ := exists_gap behind h
      simp only [if_neg (Nat.ne_of_lt hlt)]
      refine iff_of_true (fun k hk => ?_) h
      rcases List.mem_append.1 hk with hk | hk
      · exact inRange_range' hlt k hk
      · rwa [List.mem_singleton.1 hk]

/-- On the way down into an empty table nothing is found. -/
theorem firstNode_of_nil (behind : ℕ → Option α) (h : buckets.flatten = []) :
    gap buckets 0 = buckets.length ∧
      firstNode buckets behind = (none, List.range' 0 (gap buckets 0 + 1)) := by
  have hend : 0 + gap buckets 0 = buckets.length := add_gap_of_nil (Nat.zero_le _) h
  rw [Nat.zero_add] at hend
  refine ⟨hend, ?_⟩
  rw [firstNode, scan_eq (Nat.zero_add _), Nat.zero_add]
  exact if_neg (by omega)

/-- On the way down into any other table, the first node of the first bucket that has one. -/
theorem firstNode_of_ne_nil (behind : ℕ → Option α) (h : buckets.flatten ≠ []) :
    ∃ d c, gap buckets 0 < buckets.length ∧
      buckets.flatten = d :: (c ++ (buckets.drop (gap buckets 0 + 1)).flatten) ∧
      firstNode buckets behind =
        (some (d, (alternative buckets behind (gap buckets 0) c).1),
          List.range' 0 (gap buckets 0 + 1) ++
            gap buckets 0 :: (alternative buckets behind (gap buckets 0) c).2) := by
  obtain ⟨d, c, hlt, hget, hslot, hflat⟩ := exists_gap behind (i := 0) h
  rw [Nat.zero_add] at hlt hget hslot hflat
  refine ⟨d, c, hlt, hflat, ?_⟩
  rw [firstNode, scan_eq (Nat.zero_add _), Nat.zero_add]
  simp only [if_pos hlt, hslot, hget, List.tail_cons]

/-- **The first node**, with the one behind it. -/
theorem firstNode_fst : (firstNode buckets behind).1 =
    buckets.flatten.head?.map fun d => (d, buckets.flatten.tail.head?) := by
  by_cases h : buckets.flatten = []
  · rw [(firstNode_of_nil behind h).2, h]
    rfl
  · obtain ⟨d, c, hlt, hflat, heq⟩ := firstNode_of_ne_nil behind h
    rw [heq, hflat, alternative_fst hlt]
    rfl

/-- **The scans on the way down** stay in the table exactly if it has two nodes. -/
theorem firstNode_inRange_iff :
    InRange buckets (firstNode buckets behind).2 ↔ 2 ≤ buckets.flatten.length := by
  by_cases h : buckets.flatten = []
  · obtain ⟨hgap, heq⟩ := firstNode_of_nil behind h
    have hout := not_inRange_range' [] ((Nat.zero_add _).trans hgap)
    rw [List.append_nil] at hout
    rw [heq, h]
    exact iff_of_false hout (by simp)
  · obtain ⟨d, c, hlt, hflat, heq⟩ := firstNode_of_ne_nil behind h
    have hfirst : InRange buckets (List.range' 0 (gap buckets 0 + 1)) :=
      inRange_range' (by rwa [Nat.zero_add])
    have hsplit : InRange buckets (firstNode buckets behind).2 ↔
        InRange buckets (alternative buckets behind (gap buckets 0) c).2 := by
      simp only [heq, InRange, List.forall_mem_append, List.forall_mem_cons]
      exact ⟨fun h => h.2.2, fun h => ⟨hfirst, hlt, h⟩⟩
    rw [hsplit, alternative_inRange_iff, hflat, List.length_cons, ← List.length_pos_iff]
    omega

end Slots

/-! ## The levels of a search -/

namespace Trie

variable (nodeId : BitVec 64 → ℕ)

/-- A free field at a hash table: the child that is taken and its alternative, with the slots that
are read.  The result is `none` if a node is read as a hash table, or a hash table as a node. -/
def scanLevel (buckets : List (List TrieData)) (behind : ℕ → Option TrieData) :
    NodePtr → Bool → Option (Option (TrieData × Option TrieData) × List ℕ)
  | .hash, true => some (Slots.firstNode buckets behind)
  | .at d, false =>
    let alt := Slots.alternative buckets behind (Buckets.index (hashItem nodeId) buckets.length d)
      (after d (Buckets.bucketOf (hashItem nodeId) buckets d))
    some (some (d, alt.1), alt.2)
  | _, _ => none

variable {nodeId}

/-- The children behind `d` in its bucket and in later ones. -/
def childrenBehind (nodeId : BitVec 64 → ℕ) (buckets : List (List TrieData)) (d : TrieData) :
    List TrieData :=
  after d (Buckets.bucketOf (hashItem nodeId) buckets d) ++
    (buckets.drop (Buckets.index (hashItem nodeId) buckets.length d + 1)).flatten

theorem nextAlt_hash (total : ℕ) (buckets : List (List TrieData)) (d : TrieData) :
    nextAlt nodeId (.hash total buckets) d = (childrenBehind nodeId buckets d).head? := by
  rw [nextAlt, childrenBehind, List.head?_append]
  cases (after d (Buckets.bucketOf (hashItem nodeId) buckets d)).head? <;> rfl

/-- No child is behind the last one of the table. -/
theorem childrenBehind_ne_nil_iff {total : ℕ} {buckets : List (List TrieData)}
    (hc : ChildOk nodeId (.hash total buckets)) {d : TrieData} (hd : d ∈ buckets.flatten) :
    childrenBehind nodeId buckets d ≠ [] ↔ buckets.flatten.getLast? ≠ some d := by
  obtain ⟨pre, post, hsplit⟩ := List.append_of_mem hd
  have hhead : (childrenBehind nodeId buckets d).head? = post.head? := by
    rw [← nextAlt_hash total, nextAlt_eq hc hsplit]
  have hnil : childrenBehind nodeId buckets d = [] ↔ post = [] := by
    rw [← List.head?_eq_none_iff, hhead, List.head?_eq_none_iff]
  have hnodup : (pre ++ d :: post).Nodup := hsplit ▸ hc.2.1
  rw [Ne, hnil, hsplit, List.getLast?_append_cons]
  refine not_congr ⟨fun h => by rw [h]; rfl, fun h => ?_⟩
  by_contra hne
  obtain ⟨e, post', rfl⟩ := List.exists_cons_of_ne_nil hne
  rw [List.getLast?_cons_cons] at h
  have hmem : d ∈ e :: post' := List.mem_of_getLast? h
  exact (List.nodup_cons.1 (List.nodup_append'.1 hnodup).2.1).1 hmem

/-- **The scans** give what the level gives. -/
theorem levelStep_eq_scanLevel {total : ℕ} {buckets : List (List TrieData)}
    (hc : ChildOk nodeId (.hash total buckets)) {f : MatchField} (hk : f.key = none)
    (behind : ℕ → Option TrieData) (node : NodePtr) (goingDown : Bool) :
    levelStep nodeId (.hash total buckets) node goingDown f =
      match (scanLevel nodeId buckets behind node goingDown).bind Prod.fst with
      | some (d, alt) => .next d alt
      | none => .fault := by
  have hindex := Buckets.index_lt (h := hashItem nodeId) hc.1.pos
  cases node with
  | null => cases goingDown <;> simp [levelStep, hk, scanLevel]
  | hash =>
    cases goingDown with
    | false => simp [levelStep, hk, scanLevel]
    | true =>
      rw [scanLevel, Option.bind_some, Slots.firstNode_fst]
      cases hflat : buckets.flatten with
      | nil => simp [levelStep, hk, hflat]
      | cons d rest =>
        have halt : nextAlt nodeId (.hash total buckets) d = rest.head? :=
          nextAlt_eq hc (hflat.trans (List.nil_append (d :: rest)).symm)
        simp only [levelStep, hk, hflat, List.head?_cons, halt]
        rfl
  | «at» d =>
    cases goingDown with
    | true => simp [levelStep, hk, scanLevel]
    | false =>
      rw [scanLevel, Option.bind_some, Slots.alternative_fst (hindex d)]
      simp only [levelStep, hk, nextAlt_hash]
      rfl

/-! ## The steps of a search -/

section Search

variable (nodeId) (T : Trie)

/-- The scans of one step of `find_next` read slots of the table only.  `behind` is what lies behind
the last bucket. -/
def ReadsInRange (behind : ℕ → Option TrieData) : SearchState → Prop
  | .begin parent node (f :: _) goingDown _ =>
    match T.child parent, f.key with
    | .hash _ buckets, none =>
      match scanLevel nodeId buckets behind node goingDown with
      | some r => Slots.InRange buckets r.2
      | none => False
    | _, _ => True
  | _ => True

/-- At a free field a hash table is entered with two nodes in it, or a frame is restored whose node
is not the last of the table, and it is not taken for a table. -/
def AnotherChild : SearchState → Prop
  | .begin parent node (f :: _) goingDown _ =>
    match T.child parent, f.key with
    | .hash _ buckets, none =>
      match node, goingDown with
      | .hash, true => 2 ≤ buckets.flatten.length
      | .at d, false => childrenBehind nodeId buckets d ≠ []
      | _, _ => False
    | _, _ => True
  | _ => True

variable {nodeId} {T}

/-- **One step** stays in the table exactly if the level has another child. -/
theorem readsInRange_iff (behind : ℕ → Option TrieData) (s : SearchState) :
    ReadsInRange nodeId T behind s ↔ AnotherChild nodeId T s := by
  cases s with
  | begin parent node mstk goingDown cont =>
    cases mstk with
    | nil => exact Iff.rfl
    | cons f stk =>
      rw [ReadsInRange, AnotherChild]
      cases T.child parent with
      | leaf => exact Iff.rfl
      | siblings nodes => exact Iff.rfl
      | hash total buckets =>
        cases f.key with
        | some k => exact Iff.rfl
        | none =>
          cases node with
          | null => exact Iff.rfl
          | hash =>
            cases goingDown with
            | false => exact Iff.rfl
            | true => exact Slots.firstNode_inRange_iff
          | «at» d =>
            cases goingDown with
            | false => exact Slots.alternative_inRange_iff
            | true => exact Iff.rfl
  | tryAgain cont => exact Iff.rfl
  | done next cont => exact Iff.rfl
  | fault => exact Iff.rfl

/-- What happens in a search: a step of `find_next`, with any words behind the buckets, or another
call of it by `increment`. -/
inductive SearchMove
  | step (behind : ℕ → Option TrieData)
  | increment

variable (nodeId) (T)

/-- A search.  The second part of a state is `force_down` of the call of `find_next`. -/
def searchMachine : Machine SearchMove Unit (SearchState × Bool) where
  step s
    | .step _ => some ((), step nodeId T s.2 s.1, s.2)
    | .increment =>
      match s.1 with
      | .done (some _) (frm :: cont) =>
        some ((), .begin frm.parent frm.node frm.mstack false cont, false)
      | _ => none

/-- The call of `find_next` by `match_predicate`. -/
def searchStart (m : MatchObject) : SearchState × Bool :=
  (.begin (firstFrame T m).parent (firstFrame T m).node (firstFrame T m).mstack true [], true)

/-- The scans of a move stay in the table. -/
def MoveInRange (s : SearchState × Bool) : SearchMove → Prop
  | .step behind => ReadsInRange nodeId T behind s.1
  | .increment => True

/-- The level of a move has another child. -/
def MoveHasAnother (s : SearchState × Bool) : SearchMove → Prop
  | .step _ => AnotherChild nodeId T s.1
  | .increment => True

variable {nodeId} {T}

/-- **The scans of a search** stay in the tables exactly if at every step of it the level has
another child. -/
theorem search_reads_iff (nodeId : BitVec 64 → ℕ) (T : Trie) (m : MatchObject)
    (moves : List SearchMove) :
    (searchMachine nodeId T).Along (MoveInRange nodeId T) (searchStart T m) moves ↔
      (searchMachine nodeId T).Along (MoveHasAnother nodeId T) (searchStart T m) moves := by
  refine Machine.along_congr fun s move => ?_
  cases move with
  | step behind => exact readsInRange_iff behind s.1
  | increment => exact Iff.rfl

/-- A search whose first field is free, over a root table with one node. -/
theorem not_moveInRange_of_single {total : ℕ} {buckets : List (List TrieData)}
    (hroot : T.child [] = .hash total buckets) (hlen : buckets.flatten.length = 1)
    {m : MatchObject} {f : MatchField} {stk : List MatchField} (hm : m.fields = f :: stk)
    (hf : f.key = none) (behind : ℕ → Option TrieData) :
    ¬ MoveInRange nodeId T (searchStart T m) (.step behind) := by
  intro hread
  rw [MoveInRange, readsInRange_iff] at hread
  simp only [searchStart, firstFrame, AnotherChild, hm, hroot, hf, childPtr, hlen] at hread
  exact absurd hread (by decide)

/-- Nine tuples make the root a hash table, and eight of them are deleted. -/
def oneLeft : List (Op [.int, .int]) :=
  nineInserts ++ [.delete (pair 0 0), .delete (pair 1 0), .delete (pair 2 0), .delete (pair 3 0),
    .delete (pair 4 0), .delete (pair 5 0), .delete (pair 6 0), .delete (pair 7 0)]

/-- **The word behind the buckets is read**: the child that is left is found in slot 8, and the scan
for another one goes on to slot 64. -/
theorem not_forall_moveInRange :
    ¬ ∀ (ops : List (Op [.int, .int])) (m : MatchObject) (moves : List SearchMove),
      (searchMachine (fun _ => 0) (run (fun _ => 0) ops)).Along
        (MoveInRange (fun _ => 0) (run (fun _ => 0) ops))
        (searchStart (run (fun _ => 0) ops) m) moves := by
  intro hall
  -- the trie is kept closed, so that only its root is looked at
  obtain ⟨T, hT, buckets, hroot, hlen⟩ : ∃ T, T = run (fun _ => 0) oneLeft ∧
      ∃ buckets : List (List TrieData), T.child [] = .hash 1 buckets ∧ buckets.flatten.length = 1 :=
    ⟨_, rfl, List.replicate 8 [] ++ [.int 8] :: List.replicate 55 [], by decide +kernel,
      by decide +kernel⟩
  have hrun := hall oneLeft secondIsFive [.step fun _ => none]
  rw [← hT, Machine.Along] at hrun
  exact not_moveInRange_of_single hroot hlen rfl rfl _ hrun.1

end Search

end Trie

end Meld
