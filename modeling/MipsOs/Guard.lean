import Mathlib.Logic.Function.Basic

/-! A semaphore of one unit that guards shared data. Who has the unit is read off the place each
participant is at, and what is known of the data depends on that place. -/

set_option autoImplicit false
namespace MipsOs.Guard
open Function

section Tokens

variable {ι : Type} {n : Nat} {P Q : ι → Prop} {i j : ι}

/-- The unit is in the semaphore, or just one participant has it. -/
def Token (n : Nat) (P : ι → Prop) : Prop :=
  n = 1 ∧ (∀ i, ¬ P i) ∨ n = 0 ∧ ∃ i, P i ∧ ∀ j, P j → j = i

section

variable (h : Token n P)

include h

theorem Token.le_one : n ≤ 1 := by
  rcases h with ⟨rfl,-⟩ | ⟨rfl,-⟩ <;> omega

theorem Token.unique (hi : P i) (hj : P j) : i = j := by
  rcases h with ⟨-,hno⟩ | ⟨-,k,-,honly⟩
  · exact absurd hi (hno i)
  · exact (honly i hi).trans (honly j hj).symm

theorem Token.zero (hi : P i) : n = 0 := by
  rcases h with ⟨-,hno⟩ | ⟨rfl,-⟩
  · exact absurd hi (hno i)
  · rfl

theorem Token.nobody (hn : 0 < n) (i : ι) : ¬ P i := by
  intro hi
  have hz := h.zero hi
  omega

theorem Token.take (hn : 0 < n) (hQ : ∀ j, Q j ↔ j = i) : Token (n-1) Q := by
  have hle := h.le_one
  exact .inr ⟨by omega,i,(hQ i).mpr rfl,fun j hj => (hQ j).mp hj⟩

theorem Token.give (hi : P i) (hQ : ∀ j, ¬ Q j) : Token (n+1) Q :=
  .inl ⟨by rw [h.zero hi],hQ⟩

theorem Token.pass (hi : P i) (hQ : ∀ k, Q k ↔ k = j) : Token n Q :=
  .inr ⟨h.zero hi,j,(hQ j).mpr rfl,fun k hk => (hQ k).mp hk⟩

theorem Token.congr (hQ : ∀ j, Q j ↔ P j) : Token n Q := by
  rcases h with ⟨hn,hno⟩ | ⟨hn,i,hi,honly⟩
  · exact .inl ⟨hn,fun j hj => hno j ((hQ j).mp hj)⟩
  · exact .inr ⟨hn,i,(hQ i).mpr hi,fun j hj => honly j ((hQ j).mp hj)⟩

end

end Tokens

section Data

variable {ι π κ : Type} {owns : π → Prop} {Fits : κ → π → Prop} {Quiet : κ → Prop} {n : Nat}
  {c c' : κ} {pc : ι → π} {i : ι} {p : π}

/-- The data fit the place of whoever has the unit, and are quiet when nobody has it. -/
structure Guarded (owns : π → Prop) (Fits : κ → π → Prop) (Quiet : κ → Prop) (n : Nat) (c : κ)
    (pc : ι → π) : Prop where
  token : Token n fun i => owns (pc i)
  busy : ∀ i, owns (pc i) → Fits c (pc i)
  free : (∀ i, ¬ owns (pc i)) → Quiet c

theorem Guarded.data (h : Guarded owns Fits Quiet n c pc)
    (hf : ∀ p, owns p → Fits c p → Fits c' p) (hq : Quiet c → Quiet c') :
    Guarded owns Fits Quiet n c' pc :=
  ⟨h.token,fun i hi => hf _ hi (h.busy i hi),fun hno => hq (h.free hno)⟩

theorem Guarded.others (h : Guarded owns Fits Quiet n c pc) (hi : owns (pc i)) (j : ι)
    (hj : j ≠ i) : ¬ owns (pc j) := fun ho => hj (h.token.unique ho hi)

variable [DecidableEq ι]

theorem owns_update (hp : owns p) (hno : ∀ j, j ≠ i → ¬ owns (pc j)) (j : ι) :
    owns (update pc i p j) ↔ j = i := by
  by_cases hj : j = i
  · subst hj
    simpa using hp
  · simpa [update_of_ne hj,hj] using hno j hj

theorem not_owns_update (hp : ¬ owns p) (hno : ∀ j, j ≠ i → ¬ owns (pc j)) (j : ι) :
    ¬ owns (update pc i p j) := by
  by_cases hj : j = i
  · subst hj
    simpa using hp
  · simpa [update_of_ne hj] using hno j hj

theorem fits_update (hno : ∀ j, j ≠ i → ¬ owns (pc j)) (hf : Fits c p) (j : ι)
    (hj : owns (update pc i p j)) : Fits c (update pc i p j) := by
  by_cases hji : j = i
  · subst hji
    simpa using hf
  · rw [update_of_ne hji] at hj
    exact absurd hj (hno j hji)

section

variable (h : Guarded owns Fits Quiet n c pc)

include h

theorem Guarded.take (hn : 0 < n) (hp : owns p) (hf : Quiet c → Fits c' p) :
    Guarded owns Fits Quiet (n-1) c' (update pc i p) := by
  have hno : ∀ j, ¬ owns (pc j) := h.token.nobody hn
  have hno' : ∀ j, j ≠ i → ¬ owns (pc j) := fun j _ => hno j
  refine ⟨h.token.take hn (owns_update hp hno'),fits_update hno' (hf (h.free hno)),fun hall => ?_⟩
  exact absurd ((owns_update hp hno' i).mpr rfl) (hall i)

theorem Guarded.move (hi : owns (pc i)) (hp : owns p) (hf : Fits c' p) :
    Guarded owns Fits Quiet n c' (update pc i p) := by
  have hno := h.others hi
  refine ⟨h.token.pass hi (owns_update hp hno),fits_update hno hf,fun hall => ?_⟩
  exact absurd ((owns_update hp hno i).mpr rfl) (hall i)

theorem Guarded.give (hi : owns (pc i)) (hp : ¬ owns p) (hq : Quiet c') :
    Guarded owns Fits Quiet (n+1) c' (update pc i p) := by
  have hno := not_owns_update hp (h.others hi)
  exact ⟨h.token.give hi hno,fun j hj => absurd hj (hno j),fun _ => hq⟩

theorem Guarded.outside (hi : ¬ owns (pc i)) (hp : ¬ owns p) :
    Guarded owns Fits Quiet n c (update pc i p) := by
  have hsame : ∀ j, owns (update pc i p j) ↔ owns (pc j) := by
    intro j
    by_cases hj : j = i
    · subst hj
      simp [hi,hp]
    · rw [update_of_ne hj]
  refine ⟨h.token.congr hsame,fun j hj => ?_,
    fun hall => h.free fun j hj => hall j ((hsame j).mpr hj)⟩
  have hne : j ≠ i := fun he => hi (he ▸ (hsame j).mp hj)
  rw [update_of_ne hne] at hj ⊢
  exact h.busy j hj

end

end Data

end MipsOs.Guard
