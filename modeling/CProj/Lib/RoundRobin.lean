/-
  Round robin.

  A scheduler goes around a circle of `n` slots: after the slot `c` it takes the first of `c + 1`,
  `c + 2`, … modulo `n` that wants a turn.  `ahead n c i` is the number of slots between `c` and
  `i`; a turn that is not given to `i` brings it closer (`find?_circle`).
-/
import Mathlib.Data.List.Find
import Mathlib.Data.Nat.Basic

namespace CProj

/-! ## The circle -/

/-- The slots of a circle, from the one after `c` on. -/
def circle (n c : ℕ) : List ℕ := (List.range n).map fun k => (c + 1 + k) % n

/-- The number of slots between `c` and `i`. -/
def ahead (n c i : ℕ) : ℕ := if c < i then i - 1 - c else i + n - 1 - c

variable {n c i j : ℕ}

theorem ahead_lt (hi : i < n) : ahead n c i < n := by
  rw [ahead]
  split_ifs <;> omega

/-- The slot at a distance of `k` from `c`. -/
theorem circle_slot {k : ℕ} (hc : c < n) (hk : k < n) :
    (c + 1 + k) % n = if c + 1 + k < n then c + 1 + k else c + 1 + k - n := by
  split_ifs with h
  · exact Nat.mod_eq_of_lt h
  · rw [Nat.mod_eq_sub_mod (not_lt.1 h), Nat.mod_eq_of_lt (by omega)]

theorem circle_ahead (hc : c < n) (hi : i < n) : (c + 1 + ahead n c i) % n = i := by
  rw [circle_slot hc (ahead_lt hi), ahead]
  split_ifs <;> omega

/-- **A turn** goes to `i`, or to a slot from which `i` is closer. -/
theorem find?_circle {P : ℕ → Bool} (hc : c < n) (hi : i < n) (hP : P i = true) :
    ∃ j, (circle n c).find? P = some j ∧ j < n ∧ P j = true ∧
      (j = i ∨ ahead n j i < ahead n c i) := by
  have hat : (P ∘ fun k => (c + 1 + k) % n) (ahead n c i) = true := by
    rw [Function.comp_apply, circle_ahead hc hi]
    exact hP
  obtain ⟨k, hk⟩ : ∃ k, (List.range n).find? (P ∘ fun k => (c + 1 + k) % n) = some k :=
    Option.isSome_iff_exists.1 (List.find?_isSome.2 ⟨_, List.mem_range.2 (ahead_lt hi), hat⟩)
  obtain ⟨hPk, hkn, hmin⟩ := List.find?_range_eq_some.1 hk
  have hkn := List.mem_range.1 hkn
  have hle : k ≤ ahead n c i := by
    by_contra hlt
    have hnot := hmin _ (not_le.1 hlt)
    rw [hat] at hnot
    cases hnot
  refine ⟨(c + 1 + k) % n, ?_, Nat.mod_lt _ (by omega), hPk, ?_⟩
  · rw [circle, List.find?_map, hk]
    rfl
  rcases Nat.eq_or_lt_of_le hle with rfl | hlt
  · exact .inl (circle_ahead hc hi)
  · right
    rw [circle_slot hc hkn, ahead]
    rw [ahead] at hlt ⊢
    split_ifs at hlt ⊢ <;> omega

/-- There is a turn if and only if someone wants one. -/
theorem find?_circle_eq_none {P : ℕ → Bool} (hc : c < n) :
    (circle n c).find? P = none ↔ ∀ i < n, P i = false := by
  constructor
  · intro hnone i hi
    rw [← Bool.not_eq_true]
    intro hP
    obtain ⟨j, hj, -⟩ := find?_circle hc hi hP
    rw [hnone] at hj
    cases hj
  · intro h
    refine List.find?_eq_none.2 fun j hj => ?_
    obtain ⟨k, -, rfl⟩ := List.mem_map.1 hj
    rw [h _ (Nat.mod_lt _ (by omega))]
    decide

end CProj
