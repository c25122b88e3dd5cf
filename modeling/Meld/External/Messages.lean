import Meld.External.ListsCorrect

/-!
# Merging messages

`demergemessages` combines two lists of `int`s of one length, position by position with a bitwise
or.  It pushes the results in the order of the positions and then takes the conversion that begins
with the first one pushed and puts every further cell in front of it: the result is reversed.  So
messages are combined at the right positions only if they read the same from both ends.

* `orInts`: the combination that is meant.
* `demergemessages_eq`: the function.
* `MergeTree`: a grouping in which messages are merged.
* `merge_messages_iff`: when merging is what it is meant to be.
-/

namespace Meld
namespace External

/-- The pointwise bitwise or. -/
def orInts (l1 l2 : List (BitVec 32)) : List (BitVec 32) := List.zipWith (· ||| ·) l1 l2

/-- The values of a message. -/
abbrev ints (v : List Field) : List (BitVec 32) := v.map Field.int

/-- The result is a list with the given values. -/
def Gives (r : Result (List Field)) (l : List (BitVec 32)) : Prop := ∃ v, r = .ok v ∧ ints v = l

section OrInts

variable {l l1 l2 l3 : List (BitVec 32)}

theorem length_orInts (h : l1.length = l2.length) : (orInts l1 l2).length = l1.length := by
  rw [orInts, List.length_zipWith, h, Nat.min_self]

theorem orInts_self (l : List (BitVec 32)) : orInts l l = l := by
  rw [orInts, List.zipWith_self]
  simp

theorem orInts_comm (l1 l2 : List (BitVec 32)) : orInts l1 l2 = orInts l2 l1 :=
  List.zipWith_comm_of_comm BitVec.or_comm

theorem reverse_orInts (h : l1.length = l2.length) :
    (orInts l1 l2).reverse = orInts l1.reverse l2.reverse := by
  induction l1 generalizing l2 with
  | nil =>
    obtain rfl := List.length_eq_zero_iff.1 h.symm
    rfl
  | cons a l1 ih =>
    cases l2 with
    | nil => exact absurd h nofun
    | cons b l2 =>
      have hlen : l1.length = l2.length := Nat.succ.inj h
      have hcons : orInts (a :: l1) (b :: l2) = (a ||| b) :: orInts l1 l2 := rfl
      rw [hcons, List.reverse_cons, ih hlen, List.reverse_cons, List.reverse_cons, orInts, orInts,
        List.zipWith_append (by simpa using hlen)]
      rfl

end OrInts

variable {unused : ℕ → BitVec 32} {v v1 v2 v3 : List Field}

/-! ## The function -/

theorem mergeLoop_eq (h : v1.length = v2.length) (s : List (BitVec 32)) :
    mergeLoop v1 v2 s = .ok ((orInts (ints v1) (ints v2)).reverse ++ s) := by
  induction v1 generalizing v2 s with
  | nil => rfl
  | cons p1 v1 ih =>
    cases v2 with
    | nil => exact absurd h nofun
    | cons p2 v2 =>
      rw [mergeLoop, ih (Nat.succ.inj h)]
      show _ = Except.ok (((p1.int ||| p2.int) :: orInts (ints v1) (ints v2)).reverse ++ s)
      rw [List.reverse_cons, List.append_assoc]
      rfl

/-- **`demergemessages`** is the reverse of the pointwise or. -/
theorem demergemessages_eq (unused : ℕ → BitVec 32) (h : v1.length = v2.length) :
    Gives (demergemessages unused v1 v2) (orInts (ints v1) (ints v2)).reverse := by
  refine ⟨fromIntStackToReverseList unused _, ?_, map_fromIntStackToReverseList unused _⟩
  rw [demergemessages, mergeLoop_eq h, List.append_nil]
  rfl

theorem gives_demergemessages_iff (h : v1.length = v2.length) {l : List (BitVec 32)} :
    Gives (demergemessages unused v1 v2) l ↔ (orInts (ints v1) (ints v2)).reverse = l := by
  obtain ⟨r, hr, hints⟩ := demergemessages_eq unused h
  constructor
  · rintro ⟨r', hr', rfl⟩
    rw [← hints, Except.ok.inj (hr.symm.trans hr')]
  · rintro rfl
    exact ⟨r, hr, hints⟩

/-! ## Groupings -/

/-- Messages and the order in which they are merged, with the unused bytes of the lists that the
merges make. -/
inductive MergeTree where
  | message (v : List Field)
  | merge (unused : ℕ → BitVec 32) (left right : MergeTree)

namespace MergeTree

/-- The message that comes out. -/
def eval : MergeTree → Result (List Field)
  | message v => .ok v
  | merge unused left right => do
    let v1 ← left.eval
    let v2 ← right.eval
    demergemessages unused v1 v2

/-- The pointwise or of all messages. -/
def pointwise : MergeTree → List (BitVec 32)
  | message v => ints v
  | merge _ left right => orInts left.pointwise right.pointwise

/-- The messages are from a set. -/
def Over (M : Set (List Field)) : MergeTree → Prop
  | message v => v ∈ M
  | merge _ left right => left.Over M ∧ right.Over M

variable {M : Set (List Field)} {n : ℕ}

/-- **Merging messages that read the same from both ends**, in any grouping. -/
theorem eval_of_palindromes (hlen : ∀ v ∈ M, v.length = n)
    (hpal : ∀ v ∈ M, (ints v).reverse = ints v) (T : MergeTree) (hT : T.Over M) :
    Gives T.eval T.pointwise ∧ T.pointwise.length = n ∧ T.pointwise.reverse = T.pointwise := by
  induction T with
  | message v => exact ⟨⟨v, rfl, rfl⟩, (List.length_map _).trans (hlen v hT), hpal v hT⟩
  | merge unused left right ihl ihr =>
    obtain ⟨⟨v1, hv1, hl⟩, hllen, hlrev⟩ := ihl hT.1
    obtain ⟨⟨v2, hv2, hr⟩, hrlen, hrrev⟩ := ihr hT.2
    have hsame : left.pointwise.length = right.pointwise.length := hllen.trans hrlen.symm
    have hrev : (orInts left.pointwise right.pointwise).reverse =
        orInts left.pointwise right.pointwise := by
      rw [reverse_orInts hsame, hlrev, hrrev]
    refine ⟨?_, (length_orInts hsame).trans hllen, hrev⟩
    have heval : (merge unused left right).eval = demergemessages unused v1 v2 := by
      rw [eval, hv1, hv2]
      rfl
    rw [← hl, ← hr, List.length_map, List.length_map] at hsame
    rw [heval, gives_demergemessages_iff hsame, hl, hr]
    exact hrev

/-- A message that is merged with itself is reversed. -/
theorem palindrome_of_eval (hv : Gives (merge unused (message v) (message v)).eval
    (merge unused (message v) (message v)).pointwise) : (ints v).reverse = ints v := by
  have heval : Gives (demergemessages unused v v) (orInts (ints v) (ints v)) := hv
  rwa [gives_demergemessages_iff rfl, orInts_self] at heval

end MergeTree

/-- **When merging is the pointwise or.**  For two messages of one length, exactly if their
pointwise or reads the same from both ends; for all groupings of messages from a set, exactly if
all the messages do.  A merge is idempotent exactly for such a message, it is commutative for all,
and it is associative exactly if it makes no difference which of the outer two is reversed. -/
theorem merge_messages_iff (unused unused' : ℕ → BitVec 32) (v1 v2 : List Field)
    (h : v1.length = v2.length) :
    (Gives (demergemessages unused v1 v2) (orInts (ints v1) (ints v2)) ↔
      (orInts (ints v1) (ints v2)).reverse = orInts (ints v1) (ints v2)) ∧
    (∀ (n : ℕ) (M : Set (List Field)), (∀ v ∈ M, v.length = n) →
      ((∀ T : MergeTree, T.Over M → Gives T.eval T.pointwise) ↔
        ∀ v ∈ M, (ints v).reverse = ints v)) ∧
    (Gives (demergemessages unused v1 v1) (ints v1) ↔ (ints v1).reverse = ints v1) ∧
    (∃ l, Gives (demergemessages unused v1 v2) l ∧ Gives (demergemessages unused' v2 v1) l) ∧
    ∀ v3 v12 v23 : List Field, v2.length = v3.length →
      demergemessages unused v1 v2 = .ok v12 → demergemessages unused v2 v3 = .ok v23 →
        ((∃ l, Gives (demergemessages unused' v12 v3) l ∧
            Gives (demergemessages unused' v1 v23) l) ↔
          orInts (orInts (ints v1) (ints v2)) (ints v3).reverse =
            orInts (ints v1).reverse (orInts (ints v2) (ints v3))) := by
  refine ⟨gives_demergemessages_iff h, fun n M hlen => ⟨?_, ?_⟩, ?_, ?_, ?_⟩
  · exact fun h v hv => MergeTree.palindrome_of_eval (h (.merge (fun _ => 0) _ _) ⟨hv, hv⟩)
  · exact fun h T hT => (T.eval_of_palindromes hlen h hT).1
  · rw [gives_demergemessages_iff rfl, orInts_self]
  · refine ⟨_, demergemessages_eq unused h, ?_⟩
    rw [orInts_comm]
    exact demergemessages_eq unused' h.symm
  · intro v3 v12 v23 h23 hm12 hm23
    have hints12 := (gives_demergemessages_iff h).1 ⟨v12, hm12, rfl⟩
    have hints23 := (gives_demergemessages_iff h23).1 ⟨v23, hm23, rfl⟩
    have hlen12 : (orInts (ints v1) (ints v2)).length = v1.length :=
      (length_orInts (by simpa using h)).trans (List.length_map _)
    have hlen23 : (orInts (ints v2) (ints v3)).length = v2.length :=
      (length_orInts (by simpa using h23)).trans (List.length_map _)
    have h12' : v12.length = v3.length := by
      have hlen : (ints v12).length = v12.length := List.length_map _
      rw [← hlen, ← hints12, List.length_reverse, hlen12, h, h23]
    have h23' : v1.length = v23.length := by
      have hlen : (ints v23).length = v23.length := List.length_map _
      rw [← hlen, ← hints23, List.length_reverse, hlen23, h]
    have hleft : (orInts (ints v12) (ints v3)).reverse =
        orInts (orInts (ints v1) (ints v2)) (ints v3).reverse := by
      rw [reverse_orInts (by simpa using h12'), ← hints12, List.reverse_reverse]
    have hright : (orInts (ints v1) (ints v23)).reverse =
        orInts (ints v1).reverse (orInts (ints v2) (ints v3)) := by
      rw [reverse_orInts (by simpa using h23'), ← hints23, List.reverse_reverse]
    rw [← hleft, ← hright]
    constructor
    · rintro ⟨l, hl, hl'⟩
      have heq := (gives_demergemessages_iff h12').1 hl
      exact heq.trans ((gives_demergemessages_iff h23').1 hl').symm
    · intro heq
      exact ⟨_, demergemessages_eq unused' h12', heq ▸ demergemessages_eq unused' h23'⟩

/-- Messages whose pointwise or is a palindrome can be merged. -/
theorem merge_messages_palindrome :
    Gives (demergemessages (fun _ => 0) [1, 2, 4] [4, 2, 1]) [5, 2, 5] :=
  (merge_messages_iff (fun _ => 0) (fun _ => 0) [1, 2, 4] [4, 2, 1] rfl).1.2 rfl

/-- **A message merged with itself** comes out in reverse. -/
theorem merge_self_reversed :
    Gives (demergemessages (fun _ => 0) [1, 2] [1, 2]) [2, 1] ∧
      ¬ Gives (demergemessages (fun _ => 0) [1, 2] [1, 2]) (orInts (ints [1, 2]) (ints [1, 2])) := by
  rw [gives_demergemessages_iff rfl, gives_demergemessages_iff rfl]
  exact ⟨by decide, by decide⟩

end External
end Meld
