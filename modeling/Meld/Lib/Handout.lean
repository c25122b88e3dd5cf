import Mathlib.Data.Set.Basic
import Mathlib.Logic.Function.Basic
import Mathlib.Order.Interval.Set.Basic

/-!
# Numbers handed out in blocks

A shared counter gives every party a block of numbers, and a party takes the numbers it hands out
from its own block.  `Handout limit block held fixed` says that such a system is sound: all numbers
in use lie below `limit`, no number is reserved for two parties, and a number that is held is
neither reserved nor held a second time nor one of the numbers that were fixed beforehand.

* `Handout.reserve`: a party gives up its block and takes a new one above the limit.
* `Handout.give`: a number moves from the block of a party to a key.
* `Handout.mono`: numbers may be given up.
-/

namespace Meld

variable {τ κ : Type*}

/-- **No number is promised twice.**  `block t` is reserved for the party `t`, `held a` is the
number of the key `a`, and the numbers in `fixed` belong to neither. -/
structure Handout (limit : ℕ) (block : τ → Set ℕ) (held : κ → Option ℕ) (fixed : Set ℕ) :
    Prop where
  block_lt : ∀ t, ∀ k ∈ block t, k < limit
  held_lt : ∀ a k, held a = some k → k < limit
  fixed_lt : ∀ k ∈ fixed, k < limit
  block_block : ∀ t u k, k ∈ block t → k ∈ block u → t = u
  held_held : ∀ a b k, held a = some k → held b = some k → a = b
  block_held : ∀ t a k, k ∈ block t → held a ≠ some k
  block_fixed : ∀ t k, k ∈ block t → k ∉ fixed
  held_fixed : ∀ a k, held a = some k → k ∉ fixed

namespace Handout

variable {limit limit' : ℕ} {block block' : τ → Set ℕ} {held held' : κ → Option ℕ}
  {fixed : Set ℕ}

/-- Nothing is reserved or held at the start. -/
theorem start (hfixed : ∀ k ∈ fixed, k < limit) (hblock : ∀ t, block t = ∅)
    (hheld : ∀ a, held a = none) : Handout limit block held fixed where
  block_lt t k hk := by simp [hblock] at hk
  held_lt a k hk := by simp [hheld] at hk
  fixed_lt := hfixed
  block_block t u k hk := by simp [hblock] at hk
  held_held a b k hk := by simp [hheld] at hk
  block_held t a k hk := by simp [hblock] at hk
  block_fixed t k hk := by simp [hblock] at hk
  held_fixed a k hk := by simp [hheld] at hk

/-- Blocks may shrink and keys may lose their numbers. -/
theorem mono (h : Handout limit block held fixed) (hblock : ∀ t, block' t ⊆ block t)
    (hheld : ∀ a k, held' a = some k → held a = some k) : Handout limit block' held' fixed where
  block_lt t k hk := h.block_lt t k (hblock t hk)
  held_lt a k hk := h.held_lt a k (hheld a k hk)
  fixed_lt := h.fixed_lt
  block_block t u k ht hu := h.block_block t u k (hblock t ht) (hblock u hu)
  held_held a b k ha hb := h.held_held a b k (hheld a k ha) (hheld b k hb)
  block_held t a k ht ha := h.block_held t a k (hblock t ht) (hheld a k ha)
  block_fixed t k hk := h.block_fixed t k (hblock t hk)
  held_fixed a k hk := h.held_fixed a k (hheld a k hk)

/-- **A new block** lies above everything that was in use. -/
theorem reserve (h : Handout limit block held fixed) (t : τ) (hlimit : limit ≤ limit')
    (hnew : ∀ k ∈ block' t, limit ≤ k ∧ k < limit') (hold : ∀ u, u ≠ t → block' u = block u) :
    Handout limit' block' held fixed := by
  -- a number reserved afterwards is new, or was reserved for a party other than `t`
  have hcases : ∀ u k, k ∈ block' u → (u = t ∧ limit ≤ k ∧ k < limit') ∨ (u ≠ t ∧ k ∈ block u) := by
    intro u k hk
    by_cases hu : u = t
    · subst hu
      exact Or.inl ⟨rfl, hnew k hk⟩
    · rw [hold u hu] at hk
      exact Or.inr ⟨hu, hk⟩
  refine ⟨?_, fun a k hk => (h.held_lt a k hk).trans_le hlimit,
    fun k hk => (h.fixed_lt k hk).trans_le hlimit, ?_, h.held_held, ?_, ?_, h.held_fixed⟩
  · intro u k hk
    rcases hcases u k hk with ⟨-, -, hlt⟩ | ⟨-, hmem⟩
    · exact hlt
    · exact (h.block_lt u k hmem).trans_le hlimit
  · intro u v k hu hv
    rcases hcases u k hu with ⟨rfl, hle, -⟩ | ⟨-, hmem⟩
    · rcases hcases v k hv with ⟨rfl, -, -⟩ | ⟨-, hmem'⟩
      · rfl
      · exact absurd (h.block_lt v k hmem') (by omega)
    · rcases hcases v k hv with ⟨-, hle, -⟩ | ⟨-, hmem'⟩
      · exact absurd (h.block_lt u k hmem) (by omega)
      · exact h.block_block u v k hmem hmem'
  · intro u a k hu ha
    rcases hcases u k hu with ⟨-, hle, -⟩ | ⟨-, hmem⟩
    · exact absurd (h.held_lt a k ha) (by omega)
    · exact h.block_held u a k hmem ha
  · intro u k hu hk
    rcases hcases u k hu with ⟨-, hle, -⟩ | ⟨-, hmem⟩
    · exact absurd (h.fixed_lt k hk) (by omega)
    · exact h.block_fixed u k hmem hk

variable [DecidableEq κ]

/-- **A number is handed out**: it leaves the block it was reserved in. -/
theorem give (h : Handout limit block held fixed) {t : τ} {k : ℕ} (hk : k ∈ block t) (a : κ)
    (ht : ∀ j ∈ block' t, j ∈ block t ∧ j ≠ k) (hold : ∀ u, u ≠ t → block' u = block u) :
    Handout limit block' (Function.update held a (some k)) fixed := by
  have hcases : ∀ b j, Function.update held a (some k) b = some j →
      (b = a ∧ j = k) ∨ held b = some j := by
    intro b j hb
    by_cases hba : b = a
    · subst hba
      rw [Function.update_self] at hb
      exact Or.inl ⟨rfl, (Option.some.inj hb).symm⟩
    · rw [Function.update_of_ne hba] at hb
      exact Or.inr hb
  have hsub : ∀ u, block' u ⊆ block u := by
    intro u j hj
    by_cases hu : u = t
    · subst hu
      exact (ht j hj).1
    · rwa [hold u hu] at hj
  have hnot : ∀ u, k ∉ block' u := by
    intro u hu
    obtain rfl := h.block_block u t k (hsub u hu) hk
    exact (ht k hu).2 rfl
  refine ⟨fun u j hj => h.block_lt u j (hsub u hj), ?_, h.fixed_lt,
    fun u v j hu hv => h.block_block u v j (hsub u hu) (hsub v hv), ?_, ?_,
    fun u j hj => h.block_fixed u j (hsub u hj), ?_⟩
  · intro b j hb
    rcases hcases b j hb with ⟨-, rfl⟩ | hb
    · exact h.block_lt t j hk
    · exact h.held_lt b j hb
  · intro b c j hb hc
    rcases hcases b j hb with ⟨rfl, rfl⟩ | hb'
    · rcases hcases c j hc with ⟨rfl, -⟩ | hc'
      · rfl
      · exact absurd hc' (h.block_held t c j hk)
    · rcases hcases c j hc with ⟨-, rfl⟩ | hc'
      · exact absurd hb' (h.block_held t b j hk)
      · exact h.held_held b c j hb' hc'
  · intro u b j hu hb
    rcases hcases b j hb with ⟨-, rfl⟩ | hb
    · exact hnot u hu
    · exact h.block_held u b j (hsub u hu) hb
  · intro b j hb
    rcases hcases b j hb with ⟨-, rfl⟩ | hb
    · exact h.block_fixed t j hk
    · exact h.held_fixed b j hb

end Handout

end Meld
