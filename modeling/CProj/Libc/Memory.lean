/-
  `memmove` and `memset` (lib.cc).

  The memory is a byte for every address, and addresses do not wrap around.  `memmove_apply` and
  `memset_apply` say what the two loops leave at an address.
-/
import Mathlib.Data.Nat.Init
import Mathlib.Logic.Function.Basic

namespace CProj.Libc

abbrev Memory := ℕ → UInt8

/-- The loop `while (n-- > 0) *d++ = *s++`. -/
def moveUp (m : Memory) (d s : ℕ) : ℕ → Memory
  | 0 => m
  | n + 1 => moveUp (Function.update m d (m s)) (d + 1) (s + 1) n

/-- The loop `while (n-- > 0) *--d = *--s`. -/
def moveDown (m : Memory) (d s : ℕ) : ℕ → Memory
  | 0 => m
  | n + 1 => moveDown (Function.update m (d - 1) (m (s - 1))) (d - 1) (s - 1) n

def memmove (m : Memory) (dst src n : ℕ) : Memory :=
  if src < dst ∧ src + n > dst then moveDown m (dst + n) (src + n) n else moveUp m dst src n

def memset (m : Memory) (p : ℕ) (c : UInt8) : ℕ → Memory
  | 0 => m
  | n + 1 => memset (Function.update m p c) (p + 1) c n

variable {d s n a : ℕ}

/-- Copying upwards never reads a byte it has written. -/
theorem moveUp_apply (m : Memory) (h : d ≤ s ∨ s + n ≤ d) :
    moveUp m d s n a = if d ≤ a ∧ a < d + n then m (s + (a - d)) else m a := by
  induction n generalizing m d s with
  | zero => rw [moveUp, if_neg (by omega)]
  | succ n ih =>
    rw [moveUp, ih _ (by omega)]
    by_cases ha : a = d
    · subst ha
      rw [if_neg (by omega), if_pos (by omega), Function.update_self, Nat.sub_self, Nat.add_zero]
    · by_cases hin : d ≤ a ∧ a < d + (n + 1)
      · have hread : s + 1 + (a - (d + 1)) = s + (a - d) := by omega
        have hne : s + (a - d) ≠ d := by omega
        rw [if_pos (by omega), if_pos hin, hread, Function.update_of_ne hne]
      · rw [if_neg (by omega), if_neg hin, Function.update_of_ne ha]

/-- Neither does copying downwards. -/
theorem moveDown_apply (m : Memory) (h : s < d) :
    moveDown m (d + n) (s + n) n a = if d ≤ a ∧ a < d + n then m (s + (a - d)) else m a := by
  induction n generalizing m with
  | zero => rw [moveDown, if_neg (by omega)]
  | succ n ih =>
    have hd : d + (n + 1) - 1 = d + n := rfl
    have hs : s + (n + 1) - 1 = s + n := rfl
    rw [moveDown, hd, hs, ih]
    by_cases ha : a = d + n
    · have hread : s + (a - d) = s + n := by omega
      rw [if_neg (by omega), if_pos (by omega), ha, Function.update_self, ← ha, hread]
    · by_cases hin : d ≤ a ∧ a < d + (n + 1)
      · have hne : s + (a - d) ≠ d + n := by omega
        rw [if_pos (by omega), if_pos hin, Function.update_of_ne hne]
      · rw [if_neg (by omega), if_neg hin, Function.update_of_ne ha]

theorem memmove_apply (m : Memory) (d s n a : ℕ) :
    memmove m d s n a = if d ≤ a ∧ a < d + n then m (s + (a - d)) else m a := by
  by_cases h : s < d ∧ s + n > d
  · rw [memmove, if_pos h, moveDown_apply m h.1]
  · rw [memmove, if_neg h, moveUp_apply m (by omega)]

/-- **`memmove`** moves the bytes, however the two ranges overlap, and keeps all others. -/
theorem memmove_moves (m : Memory) (dst src n : ℕ) :
    (∀ i < n, memmove m dst src n (dst + i) = m (src + i)) ∧
      ∀ a, ¬ (dst ≤ a ∧ a < dst + n) → memmove m dst src n a = m a := by
  constructor
  · intro i hi
    have hin : dst ≤ dst + i ∧ dst + i < dst + n := ⟨Nat.le_add_right dst i, by omega⟩
    rw [memmove_apply, if_pos hin, Nat.add_sub_cancel_left]
  · intro a ha
    rw [memmove_apply, if_neg ha]

theorem memset_apply (m : Memory) (p : ℕ) (c : UInt8) :
    memset m p c n a = if p ≤ a ∧ a < p + n then c else m a := by
  induction n generalizing m p with
  | zero => rw [memset, if_neg (by omega)]
  | succ n ih =>
    rw [memset, ih]
    by_cases ha : a = p
    · rw [if_neg (by omega), if_pos (by omega), ha, Function.update_self]
    · by_cases hin : p ≤ a ∧ a < p + (n + 1)
      · rw [if_pos (by omega), if_pos hin]
      · rw [if_neg (by omega), if_neg hin, Function.update_of_ne ha]

end CProj.Libc
