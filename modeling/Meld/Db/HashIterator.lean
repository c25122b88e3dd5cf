import Meld.Db.HashTableRun

/-!
# The iterator of a hash table

`hash_table::iterator` goes through the bucket lists of a table.  It keeps the current list and a
stack of frames, one for every table it has entered, each with the next slot to look at.

* `walk`: the bucket lists in the order of the slots, level by level.
* `IterOk`: the iterator is at the head of a given rest of the walk.
* `iterOk_begin`, `IterOk.next`: the first position, and one step forward.
* `mem_walk`, `walk_nodup`, `walk_stored`: the walk meets every bucket list, and so every stored
  tuple, exactly once.
* `begin_visits`: so does the loop of the iterator.
-/

namespace Meld
namespace Hash

/-- `hash_table::iterator::frame`. -/
structure Frame where
  sub : Ptr
  pos : ℕ
  deriving DecidableEq

/-- `hash_table::iterator`.  The frames up to `cur_frame` are a list with the current one at its
head, so `cur_frame == -1` is the empty list. -/
structure Iterator where
  current : Ptr
  frames : List Frame
  deriving DecidableEq

variable {α : Type}

namespace Heap

/-- The loop of `find_good_bucket`: the next slot that holds a list, entering sub-tables and leaving
tables that are done.  The array of frames has room for `maxLevels` of them. -/
def findLoop (h : Heap α) : ℕ → List Frame → Option Iterator
  | 0, _ => none
  | _ + 1, [] => some ⟨0, []⟩
  | fuel + 1, f :: fs =>
    if f.pos < prime then do
      let s ← h.tables f.sub
      if s.isSubhash f.pos then
        if fs.length + 2 ≤ maxLevels then
          findLoop h fuel (⟨s.get f.pos, 0⟩ :: ⟨f.sub, f.pos + 1⟩ :: fs)
        else none
      else if s.get f.pos ≠ 0 then some ⟨s.get f.pos, f :: fs⟩
      else findLoop h fuel (⟨f.sub, f.pos + 1⟩ :: fs)
    else findLoop h fuel fs

/-- Steps enough for any table of `maxLevels` levels. -/
def loopFuel : ℕ := 64 ^ (maxLevels + 1)

/-- `find_good_bucket`. -/
def findGoodBucket (h : Heap α) (it : Iterator) (forceNext : Bool) : Option Iterator :=
  if it.current ≠ 0 then do
    let l ← h.lists it.current
    if l.next ≠ 0 then some { it with current := l.next }
    else
      match it.frames with
      | [] => none
      | f :: fs => h.findLoop loopFuel (⟨f.sub, f.pos + 1⟩ :: fs)
  else
    match it.frames with
    | [] => if forceNext then none else h.findLoop loopFuel []
    | f :: fs => h.findLoop loopFuel (⟨f.sub, if forceNext then f.pos + 1 else f.pos⟩ :: fs)

end Heap

namespace Iterator

/-- The constructor of the iterator. -/
def begin (h : Heap α) (sub : Ptr) : Option Iterator := h.findGoodBucket ⟨0, [⟨sub, 0⟩]⟩ false

/-- `operator++`. -/
def next (h : Heap α) (it : Iterator) : Option Iterator := h.findGoodBucket it true

/-- `end`. -/
def atEnd (it : Iterator) : Bool := it.frames.isEmpty

/-- The loop over a table, `for (; !it.end(); ++it)`, which reads the list `*it` in every round: the
positions at which it reads one. -/
def visit (h : Heap α) : ℕ → Iterator → Option (List Iterator)
  | 0, _ => none
  | fuel + 1, it =>
    if it.atEnd then some []
    else do
      let _ ← h.lists it.current
      let it' ← it.next h
      let its ← visit h fuel it'
      some (it :: its)

end Iterator

/-! ## The order of the walk -/

/-- The bucket lists below the table at `p`, down to `d` levels, in the order of the slots. -/
def walk (h : Heap α) (S : Shape) : ℕ → Ptr → List Ptr
  | 0, _ => []
  | d + 1, p =>
    match h.tables p with
    | none => []
    | some t => (List.range prime).flatMap fun i =>
      if t.isSubhash i then walk h S d (t.get i) else S.chain p i

/-- The part of the walk in one slot. -/
def slotWalk (h : Heap α) (S : Shape) (d : ℕ) (p : Ptr) (t : SubhashTable) (i : ℕ) : List Ptr :=
  if t.isSubhash i then walk h S d (t.get i) else S.chain p i

/-- The part of the walk in the slots from `pos` on. -/
def slotsWalk (h : Heap α) (S : Shape) (d : ℕ) (p : Ptr) (pos : ℕ) : List Ptr :=
  match h.tables p with
  | none => []
  | some t => ((List.range prime).drop pos).flatMap (slotWalk h S d p t)

/-- The part of the walk that a stack of frames has before it. -/
def framesWalk (h : Heap α) (S : Shape) : List Frame → List Ptr
  | [] => []
  | f :: fs => slotsWalk h S (maxLevels - 1 - fs.length) f.sub f.pos ++ framesWalk h S fs

/-- The frames stand for allocated tables, one level below each other. -/
def FramesOk (h : Heap α) (S : Shape) : List Frame → Prop
  | [] => True
  | f :: fs => (∃ t, h.tables f.sub = some t ∧ (S.path f.sub).length = fs.length) ∧
    FramesOk h S fs

/-- A bound on the steps of the loop. -/
def framesWork : List Frame → ℕ
  | [] => 0
  | f :: fs => (prime - f.pos) * (1 + 64 ^ (maxLevels - 1 - fs.length)) + 1 + framesWork fs

section Walk

variable {h : Heap α} {S : Shape}

theorem walk_succ (d : ℕ) (p : Ptr) : walk h S (d + 1) p = slotsWalk h S d p 0 := by
  rw [walk, slotsWalk]
  rfl

theorem slotsWalk_cons {d : ℕ} {p : Ptr} {t : SubhashTable} (ht : h.tables p = some t) {pos : ℕ}
    (hpos : pos < prime) :
    slotsWalk h S d p pos = slotWalk h S d p t pos ++ slotsWalk h S d p (pos + 1) := by
  have hdrop : (List.range prime).drop pos = pos :: (List.range prime).drop (pos + 1) := by
    rw [List.drop_eq_getElem_cons (by simpa using hpos)]
    simp
  simp only [slotsWalk, ht]
  rw [hdrop, List.flatMap_cons]

theorem slotsWalk_of_le {d : ℕ} {p : Ptr} {pos : ℕ} (hpos : prime ≤ pos) :
    slotsWalk h S d p pos = [] := by
  have hdrop : (List.range prime).drop pos = [] := List.drop_eq_nil_of_le (by simpa using hpos)
  cases ht : h.tables p with
  | none => simp only [slotsWalk, ht]
  | some t => simp only [slotsWalk, ht, hdrop, List.flatMap_nil]

/-- Entering a sub-table costs no more than the slot that holds it. -/
theorem work_push {d : ℕ} (hd : 1 ≤ d) : prime * (1 + 64 ^ (d - 1)) + 1 ≤ 64 ^ d := by
  obtain ⟨k, rfl⟩ : ∃ k, d = k + 1 := ⟨d - 1, by omega⟩
  have hpos : 1 ≤ 64 ^ k := Nat.one_le_pow _ _ (by decide)
  have hprime : prime = 29 := rfl
  rw [Nat.add_sub_cancel, pow_succ, hprime]
  omega

theorem framesWork_le (fs : List Frame) :
    framesWork fs ≤ fs.length * (prime * (1 + 64 ^ (maxLevels - 1)) + 1) := by
  induction fs with
  | nil => exact Nat.le_refl 0
  | cons f fs ih =>
    have hpow : 64 ^ (maxLevels - 1 - fs.length) ≤ 64 ^ (maxLevels - 1) :=
      Nat.pow_le_pow_right (by decide) (Nat.sub_le _ _)
    have hframe : (prime - f.pos) * (1 + 64 ^ (maxLevels - 1 - fs.length)) ≤
        prime * (1 + 64 ^ (maxLevels - 1)) :=
      Nat.mul_le_mul (Nat.sub_le _ _) (Nat.add_le_add_left hpow 1)
    rw [framesWork, List.length_cons, Nat.succ_mul]
    omega

variable {key : α → Value} {root e : Ptr}

/-- A stack of frames is no deeper than the tree. -/
theorem FramesOk.length_le (R : Rep key h root S e) {fs : List Frame} (ok : FramesOk h S fs) :
    fs.length ≤ maxLevels := by
  cases fs with
  | nil => exact Nat.zero_le _
  | cons f fs =>
    obtain ⟨⟨t, ht, hlen⟩, -⟩ := ok
    have hdepth := (R.tables _ t ht).depth
    rw [List.length_cons]
    omega

theorem FramesOk.work_lt (R : Rep key h root S e) {fs : List Frame} (ok : FramesOk h S fs) :
    framesWork fs < Heap.loopFuel := by
  have hbound := framesWork_le fs
  have hlen := ok.length_le R
  have hval : prime * (1 + 64 ^ (maxLevels - 1)) + 1 = 7602206 := rfl
  have hfuel : Heap.loopFuel = 1073741824 := rfl
  have hlevels : maxLevels = 4 := rfl
  rw [hval] at hbound
  rw [hfuel]
  omega

/-- The iterator is at the first of the lists `L`, which it has still to visit. -/
def IterOk (h : Heap α) (S : Shape) (it : Iterator) (L : List Ptr) : Prop :=
  (L = [] ∧ it.frames = []) ∨
  ∃ f fs t xs ys, it.frames = f :: fs ∧ FramesOk h S (f :: fs) ∧ h.tables f.sub = some t ∧
    f.pos < prime ∧ t.isSubhash f.pos = false ∧ S.chain f.sub f.pos = xs ++ it.current :: ys ∧
    L = it.current :: (ys ++ framesWalk h S (⟨f.sub, f.pos + 1⟩ :: fs))

/-- **The search for the next list** finds the first list that the frames have before them. -/
theorem findLoop_spec (R : Rep key h root S e) {frames : List Frame} (ok : FramesOk h S frames)
    {fuel : ℕ} (hfuel : framesWork frames < fuel) :
    ∃ it, h.findLoop fuel frames = some it ∧ IterOk h S it (framesWalk h S frames) := by
  induction fuel generalizing frames with
  | zero => exact absurd hfuel (Nat.not_lt_zero _)
  | succ fuel ih =>
    cases frames with
    | nil => exact ⟨⟨0, []⟩, rfl, Or.inl ⟨rfl, rfl⟩⟩
    | cons f fs =>
      obtain ⟨⟨t, ht, hlen⟩, okfs⟩ := ok
      obtain ⟨d, hd⟩ : ∃ d, d = maxLevels - 1 - fs.length := ⟨_, rfl⟩
      have hwork : framesWork (f :: fs) =
          (prime - f.pos) * (1 + 64 ^ d) + 1 + framesWork fs := by rw [hd]; rfl
      have hwalk : framesWalk h S (f :: fs) =
          slotsWalk h S d f.sub f.pos ++ framesWalk h S fs := by rw [hd]; rfl
      by_cases hpos : f.pos < prime
      · have okt := R.tables f.sub t ht
        have hslot := okt.slot f.pos hpos
        obtain ⟨left, hleft⟩ : ∃ left, prime - f.pos = left + 1 := ⟨prime - f.pos - 1, by omega⟩
        have hleft' : prime - (f.pos + 1) = left := by omega
        have hwork' : framesWork (⟨f.sub, f.pos + 1⟩ :: fs) =
            left * (1 + 64 ^ d) + 1 + framesWork fs := by
          rw [← hleft', hd]
          rfl
        have hwalk' : framesWalk h S (⟨f.sub, f.pos + 1⟩ :: fs) =
            slotsWalk h S d f.sub (f.pos + 1) ++ framesWalk h S fs := by rw [hd]; rfl
        have okf : FramesOk h S (⟨f.sub, f.pos + 1⟩ :: fs) := ⟨⟨t, ht, hlen⟩, okfs⟩
        rw [hleft, Nat.succ_mul] at hwork
        by_cases hb : t.isSubhash f.pos = true
        · -- a sub-table: it is entered, and the slot behind it is next in this one
          obtain ⟨-, s, hs, -, -, hpath⟩ := hslot.sub hb
          have hslen : (S.path (t.get f.pos)).length = fs.length + 1 := by
            rw [hpath, List.length_append, List.length_singleton, hlen]
          have hsdepth := (R.tables _ s hs).depth
          have hroom : fs.length + 2 ≤ maxLevels := by omega
          have hd1 : 1 ≤ d := by omega
          have hdsub : maxLevels - 1 - (fs.length + 1) = d - 1 := by omega
          have hpushwork := work_push hd1
          have okpush : FramesOk h S (⟨t.get f.pos, 0⟩ :: ⟨f.sub, f.pos + 1⟩ :: fs) :=
            ⟨⟨s, hs, hslen⟩, okf⟩
          have hworkpush : framesWork (⟨t.get f.pos, 0⟩ :: ⟨f.sub, f.pos + 1⟩ :: fs) =
              prime * (1 + 64 ^ (d - 1)) + 1 + framesWork (⟨f.sub, f.pos + 1⟩ :: fs) := by
            rw [← hdsub]
            rfl
          obtain ⟨it, hit, hok⟩ := ih okpush (by omega)
          refine ⟨it, ?_, ?_⟩
          · rw [Heap.findLoop, if_pos hpos, ht]
            simp only [Option.bind_eq_bind, Option.bind_some, hb, if_true, if_pos hroom]
            exact hit
          · have hpushwalk : framesWalk h S (⟨t.get f.pos, 0⟩ :: ⟨f.sub, f.pos + 1⟩ :: fs) =
                slotsWalk h S (d - 1) (t.get f.pos) 0 ++
                  framesWalk h S (⟨f.sub, f.pos + 1⟩ :: fs) := by
              rw [← hdsub]
              rfl
            have hslotwalk : slotWalk h S d f.sub t f.pos =
                slotsWalk h S (d - 1) (t.get f.pos) 0 := by
              rw [slotWalk, if_pos hb, ← walk_succ, Nat.sub_add_cancel hd1]
            rw [hpushwalk, hwalk'] at hok
            rw [hwalk, slotsWalk_cons ht hpos, hslotwalk, List.append_assoc]
            exact hok
        · have hb' : t.isSubhash f.pos = false := by simpa using hb
          obtain ⟨hget, -⟩ := hslot.chain hb'
          have hslotwalk : slotWalk h S d f.sub t f.pos = S.chain f.sub f.pos := by
            rw [slotWalk, if_neg hb]
          cases hc : S.chain f.sub f.pos with
          | nil =>
            -- an empty slot
            have hzero : t.get f.pos = 0 := by rw [hget, hc]; rfl
            have hone : 1 ≤ 64 ^ d := Nat.one_le_pow _ _ (by decide)
            obtain ⟨it, hit, hok⟩ := ih okf (by omega)
            refine ⟨it, ?_, ?_⟩
            · rw [Heap.findLoop, if_pos hpos, ht]
              simp only [Option.bind_eq_bind, Option.bind_some, hb', hzero]
              exact hit
            · rw [hwalk'] at hok
              rw [hwalk, slotsWalk_cons ht hpos, hslotwalk, hc, List.nil_append]
              exact hok
          | cons a ys =>
            have hfirst : t.get f.pos = a := by rw [hget, hc]; rfl
            have ha0 : a ≠ 0 := by
              rintro rfl
              exact R.zero_notMem_chain ht hpos (by rw [hc]; exact List.mem_cons_self)
            refine ⟨⟨a, f :: fs⟩, ?_, Or.inr ⟨f, fs, t, [], ys, rfl, ⟨⟨t, ht, hlen⟩, okfs⟩, ht,
              hpos, hb', hc, ?_⟩⟩
            · rw [Heap.findLoop, if_pos hpos, ht]
              simp only [Option.bind_eq_bind, Option.bind_some, hb', hfirst, ne_eq, ha0]
              rfl
            · rw [hwalk, slotsWalk_cons ht hpos, hslotwalk, hc, hwalk']
              simp
      · -- the table is done
        obtain ⟨it, hit, hok⟩ := ih okfs (by omega)
        refine ⟨it, ?_, ?_⟩
        · rw [Heap.findLoop, if_neg hpos]
          exact hit
        · rw [hwalk, slotsWalk_of_le (Nat.not_lt.mp hpos), List.nil_append]
          exact hok

/-- **The iterator starts** at the first list of the walk. -/
theorem iterOk_begin (R : Rep key h root S e) :
    ∃ it, Iterator.begin h root = some it ∧ IterOk h S it (walk h S maxLevels root) := by
  obtain ⟨t, ht, -⟩ := R.root_table
  have ok : FramesOk h S [⟨root, 0⟩] := ⟨⟨t, ht, by rw [R.path_root]; rfl⟩, trivial⟩
  obtain ⟨it, hit, hok⟩ := findLoop_spec R ok (ok.work_lt R)
  refine ⟨it, ?_, ?_⟩
  · simp only [Iterator.begin, Heap.findGoodBucket, ne_eq, not_true_eq_false, if_false,
      Bool.false_eq_true]
    exact hit
  have hwalk : framesWalk h S [⟨root, 0⟩] = walk h S maxLevels root := by
    show slotsWalk h S 3 root 0 ++ [] = walk h S 4 root
    rw [walk_succ, List.append_nil]
  rw [← hwalk]
  exact hok

/-- **One step forward** goes to the next list of the walk. -/
theorem IterOk.next (R : Rep key h root S e) {it : Iterator} {a : Ptr} {L : List Ptr}
    (ok : IterOk h S it (a :: L)) :
    it.current = a ∧ ∃ it', it.next h = some it' ∧ IterOk h S it' L := by
  obtain ⟨hnil, -⟩ | ⟨f, fs, t, xs, ys, hfr, hfok, ht, hpos, hb, hchain, hL⟩ := ok
  · cases hnil
  · obtain ⟨ha, rfl⟩ := List.cons.inj hL
    refine ⟨ha.symm, ?_⟩
    have hslot := (R.tables _ t ht).slot _ hpos
    obtain ⟨-, hseg⟩ := hslot.chain hb
    rw [hchain, Linked.seg_append] at hseg
    have hlink := hseg.2.1
    obtain ⟨l, hl, -⟩ := hslot.own it.current (by rw [hchain]; simp)
    have hnext : l.next = ys.headD 0 := by
      simp only [Heap.links, hl, Option.map_some, Option.some.injEq, Prod.mk.injEq] at hlink
      exact hlink.2
    have hcur := R.ne_zero_of_list hl
    cases ys with
    | cons b ys =>
      have hb0 : b ≠ 0 := by
        rintro rfl
        exact R.zero_notMem_chain ht hpos (by rw [hchain]; simp)
      refine ⟨{ it with current := b }, ?_, Or.inr ⟨f, fs, t, xs ++ [it.current], ys, hfr, hfok,
        ht, hpos, hb, ?_, rfl⟩⟩
      · simp [Iterator.next, Heap.findGoodBucket, hcur, hl, hnext, hb0]
      · rw [hchain]
        simp
    | nil =>
      have okf : FramesOk h S (⟨f.sub, f.pos + 1⟩ :: fs) := hfok
      obtain ⟨it', hit', hok⟩ := findLoop_spec R okf (okf.work_lt R)
      refine ⟨it', ?_, hok⟩
      have hzero : l.next = 0 := hnext
      simp only [Iterator.next, Heap.findGoodBucket, hcur, hl, hzero, hfr, ne_eq,
        not_false_eq_true, not_true_eq_false, if_true, if_false, Option.bind_eq_bind,
        Option.bind_some]
      exact hit'

theorem IterOk.atEnd {it : Iterator} {L : List Ptr} (ok : IterOk h S it L) :
    it.atEnd = L.isEmpty := by
  obtain ⟨rfl, hfr⟩ | ⟨f, fs, t, xs, ys, hfr, -, -, -, -, -, rfl⟩ := ok
  · rw [Iterator.atEnd, hfr]
    rfl
  · rw [Iterator.atEnd, hfr]
    rfl

/-! ## The walk meets every list once -/

/-- The lists of a slot lie behind that slot. -/
theorem slotWalk_behind (R : Rep key h root S e) {d : ℕ} {p : Ptr} {t : SubhashTable}
    (ht : h.tables p = some t) {i : ℕ} (hi : i < prime) {a : Ptr}
    (ha : a ∈ slotWalk h S d p t i) :
    ∃ l, h.lists a = some l ∧ S.path p ++ [i] <+: S.path l.parent ++ [l.idx] := by
  induction d generalizing p t i with
  | zero =>
    rw [slotWalk] at ha
    split at ha
    · cases ha
    · obtain ⟨l, hl, rfl, rfl⟩ := ((R.tables p t ht).slot i hi).own a ha
      exact ⟨l, hl, List.prefix_refl _⟩
  | succ d ih =>
    rw [slotWalk] at ha
    split at ha
    · rename_i hb
      obtain ⟨-, s, hs, -, -, hpath⟩ := ((R.tables p t ht).slot i hi).sub hb
      rw [walk, hs] at ha
      obtain ⟨j, hj, haj⟩ := List.mem_flatMap.mp ha
      obtain ⟨l, hl, hpre⟩ := ih hs (List.mem_range.mp hj) haj
      refine ⟨l, hl, ?_⟩
      rw [← hpath]
      exact (List.prefix_append _ [j]).trans hpre
    · obtain ⟨l, hl, rfl, rfl⟩ := ((R.tables p t ht).slot i hi).own a ha
      exact ⟨l, hl, List.prefix_refl _⟩

theorem walk_nodup (R : Rep key h root S e) (d : ℕ) {p : Ptr} {t : SubhashTable}
    (ht : h.tables p = some t) : (walk h S d p).Nodup := by
  induction d generalizing p t with
  | zero => exact List.nodup_nil
  | succ d ih =>
    have hslots : walk h S (d + 1) p = (List.range prime).flatMap (slotWalk h S d p t) := by
      rw [walk, ht]
      rfl
    rw [hslots, List.nodup_flatMap]
    constructor
    · intro i hi
      have hslot := (R.tables p t ht).slot i (List.mem_range.mp hi)
      rw [slotWalk]
      split
      · rename_i hb
        obtain ⟨-, s, hs, -⟩ := hslot.sub hb
        exact ih hs
      · exact hslot.nodup
    · refine List.Pairwise.imp_of_mem ?_ List.pairwise_lt_range
      intro i j hi hj hij a hai haj
      obtain ⟨l, hl, hpre⟩ := slotWalk_behind R ht (List.mem_range.mp hi) hai
      obtain ⟨m, hm, hpre'⟩ := slotWalk_behind R ht (List.mem_range.mp hj) haj
      rw [hl, Option.some.injEq] at hm
      subst hm
      have heq := List.prefix_of_prefix_length_le hpre hpre' (by simp)
      have hsame := heq.eq_of_length (by simp)
      have hlast : i = j := by simpa using hsame
      omega

/-- What is below a table is below the root. -/
theorem mem_walk_root (R : Rep key h root S e) {n : ℕ} {p : Ptr} {t : SubhashTable}
    (ht : h.tables p = some t) (hn : (S.path p).length = n) {a : Ptr}
    (ha : a ∈ walk h S (maxLevels - n) p) : a ∈ walk h S maxLevels root := by
  induction n generalizing p t with
  | zero =>
    have hroot : p = root := by
      by_contra hne
      have hlen := congrArg List.length (R.path_parent ht hne)
      rw [hn, List.length_append, List.length_singleton] at hlen
      omega
    rw [← hroot]
    exact ha
  | succ n ih =>
    have hne : p ≠ root := by
      rintro rfl
      rw [R.path_root] at hn
      cases hn
    obtain ⟨hlt, q, hq, hbit, hget⟩ := R.parent p t ht hne
    have hlen := congrArg List.length (R.path_parent ht hne)
    rw [hn, List.length_append, List.length_singleton] at hlen
    have hdepth := (R.tables p t ht).depth
    have hd : maxLevels - n = maxLevels - (n + 1) + 1 := by omega
    refine ih hq (by omega) ?_
    rw [hd, walk, hq]
    refine List.mem_flatMap.mpr ⟨t.get lastSlot, List.mem_range.mpr hlt, ?_⟩
    rw [if_pos hbit, hget]
    exact ha

/-- **The walk meets every list**. -/
theorem mem_walk (R : Rep key h root S e) {a : Ptr} :
    a ∈ walk h S maxLevels root ↔ ∃ l, h.lists a = some l := by
  constructor
  · intro ha
    obtain ⟨t, ht, -⟩ := R.root_table
    rw [show maxLevels = 3 + 1 from rfl, walk, ht] at ha
    obtain ⟨i, hi, hai⟩ := List.mem_flatMap.mp ha
    obtain ⟨l, hl, -⟩ := slotWalk_behind R ht (List.mem_range.mp hi) hai
    exact ⟨l, hl⟩
  · rintro ⟨l, hl⟩
    have ok := R.lists a l hl
    obtain ⟨t, ht, hb⟩ := ok.table
    have hdepth := (R.tables _ t ht).depth
    refine mem_walk_root R ht rfl ?_
    obtain ⟨d, hd⟩ : ∃ d, maxLevels - (S.path l.parent).length = d + 1 :=
      ⟨maxLevels - (S.path l.parent).length - 1, by omega⟩
    rw [hd, walk, ht]
    refine List.mem_flatMap.mpr ⟨l.idx, List.mem_range.mpr ok.idx_lt, ?_⟩
    rw [hb]
    exact ok.mem

/-- **The walk meets every stored tuple once**. -/
theorem walk_stored (R : Rep key h root S e) :
    ((walk h S maxLevels root).flatMap h.tuples : Multiset α) = h.stored := by
  obtain ⟨t, ht, -⟩ := R.root_table
  have hnodup := walk_nodup R maxLevels ht
  have hsum : ((walk h S maxLevels root).flatMap h.tuples : Multiset α) =
      ((walk h S maxLevels root).map fun a => (h.tuples a : Multiset α)).sum := by
    induction walk h S maxLevels root with
    | nil => rfl
    | cons a L ih =>
      rw [List.flatMap_cons, ← Multiset.coe_add, ih, List.map_cons, List.sum_cons]
  have hsub : (walk h S maxLevels root).toFinset ⊆ Finset.range h.fresh := by
    intro a ha
    obtain ⟨l, hl⟩ := (mem_walk R).mp (List.mem_toFinset.mp ha)
    exact Finset.mem_range.mpr (R.fresh_lists a l hl)
  rw [hsum, ← List.sum_toFinset _ hnodup, Heap.stored]
  refine Finset.sum_subset hsub ?_
  intro a _ ha
  have hnone : h.lists a = none := by
    cases hl : h.lists a with
    | none => rfl
    | some l => exact absurd (List.mem_toFinset.mpr ((mem_walk R).mpr ⟨l, hl⟩)) ha
  rw [Heap.tuples_of_none hnone]
  rfl

/-! ## The loop over a table -/

/-- An iterator has no more frames than the array has room for, and stands at a list. -/
theorem IterOk.cons (R : Rep key h root S e) {it : Iterator} {a : Ptr} {L : List Ptr}
    (ok : IterOk h S it (a :: L)) :
    it.atEnd = false ∧ it.frames.length ≤ maxLevels ∧ ∃ l, h.lists it.current = some l := by
  have hend := ok.atEnd
  obtain ⟨hnil, -⟩ | ⟨f, fs, t, xs, ys, hfr, hfok, ht, hpos, hb, hchain, hL⟩ := ok
  · cases hnil
  · refine ⟨hend, ?_, ?_⟩
    · rw [hfr]
      exact hfok.length_le R
    · have hslot := (R.tables _ t ht).slot _ hpos
      obtain ⟨l, hl, -⟩ := hslot.own it.current (by rw [hchain]; simp)
      exact ⟨l, hl⟩

/-- **The loop from a position** reads the lists that are before it, one after the other. -/
theorem IterOk.visit (R : Rep key h root S e) {it : Iterator} {L : List Ptr}
    (ok : IterOk h S it L) {fuel : ℕ} (hfuel : L.length < fuel) :
    ∃ its, it.visit h fuel = some its ∧ its.map Iterator.current = L ∧
      ∀ i ∈ its, i.frames.length ≤ maxLevels := by
  induction L generalizing it fuel with
  | nil =>
    obtain ⟨fuel, rfl⟩ : ∃ n, fuel = n + 1 := ⟨fuel - 1, by simp at hfuel; omega⟩
    refine ⟨[], ?_, rfl, by simp⟩
    have hend : it.atEnd = true := ok.atEnd
    rw [Iterator.visit, hend, if_pos rfl]
  | cons a L ih =>
    obtain ⟨fuel, rfl⟩ : ∃ n, fuel = n + 1 := ⟨fuel - 1, by simp at hfuel; omega⟩
    obtain ⟨hend, hframes, l, hl⟩ := ok.cons R
    obtain ⟨hcur, it', hnext, ok'⟩ := ok.next R
    have hlen : L.length < fuel := by
      rw [List.length_cons] at hfuel
      omega
    obtain ⟨its, hvisit, hmap, hroom⟩ := ih ok' hlen
    refine ⟨it :: its, ?_, ?_, ?_⟩
    · rw [Iterator.visit, hend]
      simp only [Bool.false_eq_true, if_false, Option.bind_eq_bind, hl, hnext, hvisit,
        Option.bind_some]
    · rw [List.map_cons, hcur, hmap]
    · intro i hi
      rcases List.mem_cons.mp hi with rfl | hi
      · exact hframes
      · exact hroom i hi

/-- **The loop over a table visits every bucket list exactly once**, reads nothing that is not a
list, has never more frames than the array has room for, and comes to its end. -/
theorem begin_visits (R : Rep key h root S e) :
    ∃ it L, Iterator.begin h root = some it ∧
      (∀ fuel, L.length < fuel → ∃ its, it.visit h fuel = some its ∧
        its.map Iterator.current = L ∧ ∀ i ∈ its, i.frames.length ≤ maxLevels) ∧
      L.Nodup ∧ ∀ a, a ∈ L ↔ ∃ l, h.lists a = some l := by
  obtain ⟨t, ht, -⟩ := R.root_table
  obtain ⟨it, hbegin, ok⟩ := iterOk_begin R
  exact ⟨it, walk h S maxLevels root, hbegin, fun fuel hfuel => ok.visit R hfuel,
    walk_nodup R maxLevels ht, fun a => mem_walk R⟩

/-- A table with two bucket lists beside a second table. -/
theorem begin_visits_crowded : ∃ T it L,
    HashTable.filled (getField 0) ([.int 9] :: HashTable.crowded) = some T ∧
      ((List.range T.heap.fresh).countP fun p => (T.heap.tables p).isSome) = 2 ∧
      Iterator.begin T.heap T.sh = some it ∧
      (∀ fuel, L.length < fuel → ∃ its, it.visit T.heap fuel = some its ∧
        its.map Iterator.current = L ∧ ∀ i ∈ its, i.frames.length ≤ maxLevels) ∧
      L.Nodup ∧ ∀ a, a ∈ L ↔ ∃ l, T.heap.lists a = some l := by
  have hrun : (HashTable.filled (getField 0) ([.int 9] :: HashTable.crowded)).map (fun T =>
      (List.range T.heap.fresh).countP fun p => (T.heap.tables p).isSome) = some 2 := by
    decide +kernel
  obtain ⟨T, hT, htables⟩ := Option.map_eq_some_iff.mp hrun
  obtain ⟨S, I, -⟩ := (HashTable.reach_filled hT).bounded
  obtain ⟨it, L, hvisits⟩ := begin_visits I.rep
  exact ⟨T, it, L, hT, htables, hvisits⟩

end Walk

end Hash
end Meld
