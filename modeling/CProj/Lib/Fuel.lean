/-
  Loops on fuel.

  `E n s` is what a loop gives that makes at most `n` rounds from the state `s`.  `Goes E s t` says
  that one round leads from `s` to `t`, and `Gives E P s` that with enough fuel the result
  satisfies `P`.  `gives_of_measure` is the rule for loops that end, `runs_on` the one for loops that
  run on.
-/
import Mathlib.Data.Nat.Notation
import Mathlib.Tactic.TypeStar

namespace CProj

variable {σ ρ : Type*} (E : ℕ → σ → ρ) (P : ρ → Prop)

/-- One round leads from `s` to `t`. -/
def Goes (s t : σ) : Prop := ∀ n, E (n + 1) s = E n t

/-- With enough fuel, the result from `s` satisfies `P`. -/
def Gives (s : σ) : Prop := ∃ n, P (E n s)

variable {E P} {s t : σ}

theorem Goes.gives (h : Goes E s t) (ht : Gives E P t) : Gives E P s := by
  obtain ⟨n, hn⟩ := ht
  exact ⟨n + 1, by rwa [h n]⟩

theorem Goes.gives_iff (h : Goes E s t) (h₀ : ¬ P (E 0 s)) : Gives E P s ↔ Gives E P t := by
  refine ⟨fun ⟨n, hn⟩ => ?_, h.gives⟩
  cases n with
  | zero => exact absurd hn h₀
  | succ n => exact ⟨n, by rwa [← h n]⟩

/-- **Loops that end**: every round from a state that satisfies `I` ends the loop or makes the
    measure smaller. -/
theorem gives_of_measure (I : σ → Prop) (μ : σ → ℕ)
    (hround : ∀ s, I s → Gives E P s ∨ ∃ t, Goes E s t ∧ I t ∧ μ t < μ s) (hs : I s) :
    Gives E P s := by
  induction hn : μ s using Nat.strongRecOn generalizing s with
  | ind n ih =>
    rcases hround s hs with hgives | ⟨t, hgoes, ht, hlt⟩
    · exact hgives
    · exact hgoes.gives (ih (μ t) (hn ▸ hlt) ht rfl)

/-- **Loops that run on**: every round from a state that satisfies `I` leads to another one, so
    that any number of rounds gives what no round gives. -/
theorem runs_on {out : ρ} (I : σ → Prop) (h₀ : ∀ s, I s → E 0 s = out)
    (hround : ∀ s, I s → ∃ t, Goes E s t ∧ I t) (hs : I s) (n : ℕ) : E n s = out := by
  induction n generalizing s with
  | zero => exact h₀ s hs
  | succ n ih =>
    obtain ⟨t, hgoes, ht⟩ := hround s hs
    rw [hgoes n, ih ht]

end CProj
