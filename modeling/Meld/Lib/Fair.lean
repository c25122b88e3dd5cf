import Mathlib.Order.Basic

/-!
# Fair runs

A system of parties that take turns, and an infinite run of it in which at every moment one party
makes a step.  What such a run must lead to is proved from what single steps do: a party whose next
step helps gets its turn, and until then the others leave the situation as it is.

* `Schedule`: an infinite run; `Schedule.Fair`: every party gets its turn again and again.
* `LeadsTo`: whenever the run is in a state of one kind, it gets to a state of another kind.
* `leadsTo_of_step`: a helpful party.
* `LeadsTo.trans`, `LeadsTo.exists`, `leadsTo_of_rank`: how such facts compose.
* `at_leadsTo`: parties that wait in line.
* `Threads`, `leadsTo_of_firstAt`, `leadsTo_of_pc`: threads that are at places of their code.
-/

namespace Meld

variable {ι σ : Type*}

/-- An infinite run of a system in which the parties `ι` make the steps. -/
structure Schedule (step : ι → σ → σ → Prop) where
  state : ℕ → σ
  party : ℕ → ι
  steps : ∀ n, step (party n) (state n) (state (n + 1))

/-- Every party gets its turn again and again. -/
def Schedule.Fair {step : ι → σ → σ → Prop} (ρ : Schedule step) : Prop :=
  ∀ i n, ∃ m, n ≤ m ∧ ρ.party m = i

/-- Whenever `P` holds, `Q` holds at that moment or later. -/
def LeadsTo (state : ℕ → σ) (P Q : σ → Prop) : Prop :=
  ∀ n, P (state n) → ∃ m, n ≤ m ∧ Q (state m)

variable {state : ℕ → σ} {P P' Q Q' R : σ → Prop}

theorem LeadsTo.of_imp (h : ∀ s, P s → Q s) : LeadsTo state P Q :=
  fun n hP => ⟨n, Nat.le_refl n, h _ hP⟩

theorem LeadsTo.trans (hPQ : LeadsTo state P Q) (hQR : LeadsTo state Q R) : LeadsTo state P R := by
  intro n hP
  obtain ⟨m, hnm, hQ⟩ := hPQ n hP
  obtain ⟨k, hmk, hR⟩ := hQR m hQ
  exact ⟨k, Nat.le_trans hnm hmk, hR⟩

theorem LeadsTo.mono (h : LeadsTo state P Q) (hP : ∀ s, P' s → P s) (hQ : ∀ s, Q s → Q' s) :
    LeadsTo state P' Q' :=
  ((LeadsTo.of_imp hP).trans h).trans (LeadsTo.of_imp hQ)

theorem LeadsTo.exists {κ : Type*} {P : κ → σ → Prop} (h : ∀ k, LeadsTo state (P k) Q) :
    LeadsTo state (fun s => ∃ k, P k s) Q := by
  rintro n ⟨k, hP⟩
  exact h k n hP

theorem LeadsTo.or (hP : LeadsTo state P Q) (hP' : LeadsTo state P' Q) :
    LeadsTo state (fun s => P s ∨ P' s) Q := by
  rintro n (h | h)
  · exact hP n h
  · exact hP' n h

/-- **A rank that gets smaller**, by induction on it. -/
theorem leadsTo_of_rank {P : ℕ → σ → Prop} (hzero : LeadsTo state (P 0) Q)
    (hsucc : ∀ k, LeadsTo state (P (k + 1)) (P k)) (k : ℕ) : LeadsTo state (P k) Q := by
  induction k with
  | zero => exact hzero
  | succ k ih => exact (hsucc k).trans ih

section Steps

variable {step : ι → σ → σ → Prop} (ρ : Schedule step)

/-- What every step keeps holds at all moments. -/
theorem Schedule.always {P : σ → Prop} (hstep : ∀ i s s', P s → step i s s' → P s')
    (h : P (ρ.state 0)) (n : ℕ) : P (ρ.state n) := by
  induction n with
  | zero => exact h
  | succ n ih => exact hstep _ _ _ ih (ρ.steps n)

/-- `P` stays true as long as `Q` does not hold. -/
theorem Schedule.until (hkeep : ∀ i s s', P s → step i s s' → P s' ∨ Q s') {n : ℕ}
    (hP : P (ρ.state n)) (d : ℕ) :
    P (ρ.state (n + d)) ∨ ∃ m, n ≤ m ∧ Q (ρ.state m) := by
  induction d with
  | zero => exact Or.inl hP
  | succ d ih =>
    rcases ih with h | h
    · exact (hkeep _ _ _ h (ρ.steps (n + d))).imp_right
        fun hQ => ⟨n + d + 1, by rw [Nat.add_assoc]; exact Nat.le_add_right _ _, hQ⟩
    · exact Or.inr h

/-- **A helpful party**: if every step keeps `P` or leads to `Q`, and a step of party `i` from `P`
leads to `Q`, then a fair run that is in `P` gets to `Q`. -/
theorem leadsTo_of_step (hfair : ρ.Fair) (i : ι)
    (hkeep : ∀ j s s', P s → step j s s' → P s' ∨ Q s')
    (hhelp : ∀ s s', P s → step i s s' → Q s') : LeadsTo ρ.state P Q := by
  intro n hP
  obtain ⟨m, hnm, hparty⟩ := hfair i n
  obtain ⟨d, rfl⟩ := Nat.exists_eq_add_of_le hnm
  rcases ρ.until hkeep hP d with h | h
  · have hstep := ρ.steps (n + d)
    rw [hparty] at hstep
    exact ⟨n + d + 1, by rw [Nat.add_assoc]; exact Nat.le_add_right _ _, hhelp _ _ h hstep⟩
  · exact h

/-! ## A queue -/

/-- What the step of a party does to a queue of parties: nothing, or it puts itself at the end, or it
leaves from the front. -/
def Moves (q q' : List ι) (i : ι) : Prop := q' = q ∨ q' = q ++ [i] ∨ q = i :: q'

variable {queue : σ → List ι → Prop} {e h : ι} {k : ℕ}

/-- The party with `k` others in front of it. -/
def At (queue : σ → List ι → Prop) (e : ι) (k : ℕ) (s : σ) : Prop :=
  ∃ q, queue s q ∧ q[k]? = some e

/-- The same, behind a certain first party. -/
def Behind (queue : σ → List ι → Prop) (h e : ι) (k : ℕ) (s : σ) : Prop :=
  ∃ t, queue s (h :: t) ∧ t[k]? = some e

/-- **Waiting in line**, by induction on the number of those in front: if everyone who is the first,
with `e` in line, gets out, then `e` gets to be the first. -/
theorem at_leadsTo
    (hmoves : ∀ {i s s' q}, queue s q → step i s s' → ∃ q', queue s' q' ∧ Moves q q' i)
    (hleave : ∀ h k, LeadsTo ρ.state (Behind queue h e k) fun s => ∀ t, ¬ queue s (h :: t)) (k : ℕ) :
    LeadsTo ρ.state (At queue e k) fun s => ∃ t, queue s (e :: t) := by
  have hkeep : ∀ h k i s s', Behind queue h e k s → step i s s' →
      Behind queue h e k s' ∨ At queue e k s' := by
    rintro h k i s s' ⟨t, hq, he⟩ hstep
    obtain ⟨q', hq', rfl | rfl | heq⟩ := hmoves hq hstep
    · exact Or.inl ⟨t, hq', he⟩
    · refine Or.inl ⟨t ++ [i], hq', ?_⟩
      rw [List.getElem?_append_left (List.getElem?_eq_some_iff.1 he).1, he]
    · obtain ⟨rfl, rfl⟩ := List.cons.inj heq
      exact Or.inr ⟨t, hq', he⟩
  refine leadsTo_of_rank (LeadsTo.of_imp ?_) (fun k => ?_) k
  · rintro s ⟨q, hq, he⟩
    obtain ⟨t, rfl⟩ : ∃ t, q = e :: t := List.head?_eq_some_iff.1 (List.head?_eq_getElem? ▸ he)
    exact ⟨t, hq⟩
  · rintro n ⟨q, hq, he⟩
    cases q with
    | nil => exact absurd he.symm (Option.some_ne_none e)
    | cons h t =>
      have hbehind : Behind queue h e k (ρ.state n) := ⟨t, hq, he⟩
      obtain ⟨m, hnm, hout⟩ := hleave h k n hbehind
      obtain ⟨d, rfl⟩ := Nat.exists_eq_add_of_le hnm
      refine (ρ.until (hkeep h k) hbehind d).resolve_left ?_
      rintro ⟨t', hq', -⟩
      exact hout t' hq'

/-! ## Threads with a place in the code -/

/-- A step changes the place of its own thread only, and the queue as a thread may. -/
structure Threads {Pc : Type*} (step : ι → σ → σ → Prop) (pc : σ → ι → Pc)
    (queue : σ → List ι → Prop) : Prop where
  pc_of_ne : ∀ {i j s s'}, step i s s' → j ≠ i → pc s' j = pc s j
  moves : ∀ {i s s' q}, queue s q → step i s s' → ∃ q', queue s' q' ∧ Moves q q' i

/-- The first thread of the queue, at one place of the code. -/
def FirstAt {Pc : Type*} (pc : σ → ι → Pc) (queue : σ → List ι → Prop) (h : ι) (p : Pc) (s : σ) :
    Prop :=
  (∃ t, queue s (h :: t)) ∧ pc s h = p

variable {Pc : Type*} {pc : σ → ι → Pc} {p : Pc} {i : ι} {s s' : σ}

/-- Another thread leaves it where it is. -/
theorem FirstAt.keep (threads : Threads step pc queue) (hfirst : FirstAt pc queue h p s)
    (hstep : step i s s') (hih : i ≠ h) : FirstAt pc queue h p s' := by
  obtain ⟨⟨t, hq⟩, hpc⟩ := hfirst
  refine ⟨?_, (threads.pc_of_ne hstep hih.symm).trans hpc⟩
  obtain ⟨q', hq', rfl | rfl | heq⟩ := threads.moves hq hstep
  · exact ⟨t, hq'⟩
  · exact ⟨t ++ [i], hq'⟩
  · exact absurd (List.cons.inj heq).1.symm hih

/-- A place of the code that the first thread leaves with its next step. -/
theorem leadsTo_of_firstAt (threads : Threads step pc queue) (hfair : ρ.Fair)
    (hhelp : ∀ s s', FirstAt pc queue h p s → step h s s' → Q s') :
    LeadsTo ρ.state (FirstAt pc queue h p) Q := by
  refine leadsTo_of_step ρ hfair h (fun i s s' hfirst hstep => ?_) hhelp
  by_cases hih : i = h
  · exact Or.inr (hhelp s s' hfirst (hih ▸ hstep))
  · exact Or.inl (hfirst.keep threads hstep hih)

/-- A place of the code that any thread leaves with its next step. -/
theorem leadsTo_of_pc (threads : Threads step pc queue) (hfair : ρ.Fair)
    (hhelp : ∀ s s', pc s e = p → step e s s' → Q s') :
    LeadsTo ρ.state (fun s => pc s e = p) Q := by
  refine leadsTo_of_step ρ hfair e (fun i s s' hpc hstep => ?_) hhelp
  by_cases hie : i = e
  · exact Or.inr (hhelp s s' hpc (hie ▸ hstep))
  · exact Or.inl ((threads.pc_of_ne hstep fun hei => hie hei.symm).trans hpc)

/-- What the first thread does at last in a place, when nobody stays there for ever. -/
theorem leadsTo_of_leave (threads : Threads step pc queue)
    (hleave : LeadsTo ρ.state (fun s => pc s h = p) fun s => pc s h ≠ p)
    (hown : ∀ s s', FirstAt pc queue h p s → step h s s' → FirstAt pc queue h p s' ∨ Q s') :
    LeadsTo ρ.state (FirstAt pc queue h p) Q := by
  intro n hfirst
  obtain ⟨m, hnm, hm⟩ := hleave n hfirst.2
  obtain ⟨d, rfl⟩ := Nat.exists_eq_add_of_le hnm
  refine (ρ.until (P := FirstAt pc queue h p) (fun i s s' hfirst hstep => ?_) hfirst d).resolve_left
    fun hin => hm hin.2
  by_cases hih : i = h
  · exact hown s s' hfirst (hih ▸ hstep)
  · exact Or.inl (hfirst.keep threads hstep hih)

end Steps

end Meld
