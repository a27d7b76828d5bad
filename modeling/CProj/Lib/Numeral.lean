/-
  Numerals, most significant digit first.

  `numeral b ds` is the number that the digits `ds` write in base `b`; a digit may be larger than
  the base.  `push M b` takes one more digit into an accumulator that may hold at most `M`, and
  remembers that it ever had to leave a digit out; `foldl_push` says that it remembers so exactly
  when the whole numeral exceeds `M`.
-/
import Mathlib.Data.Nat.Digits.Defs
import Mathlib.Tactic.Ring

namespace CProj

variable {α : Type*} {M b : ℕ}

/-- The number that the digits `ds` write in base `b`. -/
def numeral (b : ℕ) (ds : List ℕ) : ℕ := Nat.ofDigits b ds.reverse

@[simp] theorem numeral_nil : numeral b [] = 0 := rfl

theorem numeral_cons (d : ℕ) (ds : List ℕ) :
    numeral b (d :: ds) = d * b ^ ds.length + numeral b ds := by
  rw [numeral, Nat.ofDigits_reverse_cons, Nat.mul_comm, Nat.add_comm]
  rfl

theorem numeral_append (ds es : List ℕ) :
    numeral b (ds ++ es) = numeral b ds * b ^ es.length + numeral b es := by
  induction ds with
  | nil => simp
  | cons d ds ih =>
    rw [List.cons_append, numeral_cons, numeral_cons, ih, List.length_append, pow_add]
    ring

theorem numeral_zeros (n : ℕ) (ds : List ℕ) :
    numeral b (List.replicate n 0 ++ ds) = numeral b ds := by
  rw [numeral_append, numeral, List.reverse_replicate, Nat.ofDigits_replicate_zero]
  omega

theorem numeral_digits (n : ℕ) : numeral b (Nat.digits b n).reverse = n := by
  rw [numeral, List.reverse_reverse, Nat.ofDigits_digits]

/-! ## Digits read too large -/

theorem numeral_map_le {f g : α → ℕ} {l : List α} (h : ∀ a ∈ l, f a ≤ g a) :
    numeral b (l.map f) ≤ numeral b (l.map g) := by
  induction l with
  | nil => exact le_rfl
  | cons a l ih =>
    rw [List.map_cons, List.map_cons, numeral_cons, numeral_cons, List.length_map, List.length_map]
    have ha : f a ≤ g a := h a List.mem_cons_self
    have hl := ih fun x hx => h x (List.mem_cons_of_mem _ hx)
    exact Nat.add_le_add (Nat.mul_le_mul_right _ ha) hl

theorem numeral_map_lt {f g : α → ℕ} {l : List α} (hb : 0 < b) (h : ∀ a ∈ l, f a ≤ g a)
    (hlt : ∃ a ∈ l, f a < g a) : numeral b (l.map f) < numeral b (l.map g) := by
  induction l with
  | nil =>
    obtain ⟨a, ha, -⟩ := hlt
    exact absurd ha List.not_mem_nil
  | cons a l ih =>
    rw [List.map_cons, List.map_cons, numeral_cons, numeral_cons, List.length_map, List.length_map]
    have htail : ∀ x ∈ l, f x ≤ g x := fun x hx => h x (List.mem_cons_of_mem _ hx)
    have hpow : 0 < b ^ l.length := Nat.pow_pos hb
    obtain ⟨x, hx, hfg⟩ := hlt
    rcases List.mem_cons.1 hx with rfl | hx
    · have hhead : f x * b ^ l.length < g x * b ^ l.length := Nat.mul_lt_mul_of_pos_right hfg hpow
      exact Nat.add_lt_add_of_lt_of_le hhead (numeral_map_le htail)
    · have hhead := Nat.mul_le_mul_right (b ^ l.length) (h a List.mem_cons_self)
      exact Nat.add_lt_add_of_le_of_lt hhead (ih htail ⟨x, hx, hfg⟩)

/-! ## A bounded accumulator -/

/-- The digit `d` taken into the accumulator, unless the result would exceed `M`. -/
def push (M b : ℕ) (acc : ℕ × Bool) (d : ℕ) : ℕ × Bool :=
  if acc.1 > (M - d) / b then (acc.1, true) else (acc.1 * b + d, acc.2)

theorem push_overflow_iff (hb : 0 < b) {x d : ℕ} (hd : d ≤ M) :
    x > (M - d) / b ↔ M < x * b + d := by
  rw [gt_iff_lt, Nat.div_lt_iff_lt_mul hb]
  omega

theorem push_true (x d : ℕ) : (push M b (x, true) d).2 = true := by
  unfold push
  split <;> rfl

theorem foldl_push_true (ds : List ℕ) (x : ℕ) : (ds.foldl (push M b) (x, true)).2 = true := by
  induction ds generalizing x with
  | nil => rfl
  | cons d ds ih =>
    have h : push M b (x, true) d = ((push M b (x, true) d).1, true) :=
      Prod.ext rfl (push_true x d)
    rw [List.foldl_cons, h]
    exact ih _

/-- The accumulator overflows exactly when the numeral exceeds `M`, and holds it otherwise. -/
theorem foldl_push (hb : 0 < b) {ds : List ℕ} (hd : ∀ d ∈ ds, d ≤ M) {x : ℕ} (hx : x ≤ M) :
    (M < x * b ^ ds.length + numeral b ds ∧ (ds.foldl (push M b) (x, false)).2 = true) ∨
      (x * b ^ ds.length + numeral b ds ≤ M ∧
        ds.foldl (push M b) (x, false) = (x * b ^ ds.length + numeral b ds, false)) := by
  induction ds generalizing x with
  | nil => exact .inr ⟨by simpa using hx, by simp⟩
  | cons d ds ih =>
    have heq : x * b ^ (d :: ds).length + numeral b (d :: ds) =
        (x * b + d) * b ^ ds.length + numeral b ds := by
      rw [numeral_cons, List.length_cons, pow_succ]
      ring
    rw [heq, List.foldl_cons]
    have hpush : x > (M - d) / b ↔ M < x * b + d :=
      push_overflow_iff hb (hd d List.mem_cons_self)
    by_cases hover : x > (M - d) / b
    · -- the digits that follow cannot make the numeral smaller
      left
      have hpow : 1 ≤ b ^ ds.length := Nat.pow_pos hb
      have hgrow : x * b + d ≤ (x * b + d) * b ^ ds.length := Nat.le_mul_of_pos_right _ hpow
      rw [push, if_pos hover]
      exact ⟨by have := hpush.1 hover; omega, foldl_push_true ds x⟩
    · rw [push, if_neg hover]
      have hfit : x * b + d ≤ M := by have := mt hpush.2 hover; omega
      exact ih (fun e he => hd e (List.mem_cons_of_mem _ he)) hfit

/-- What an accumulator that stands at its bound after an overflow holds. -/
theorem foldl_push_min (hb : 0 < b) {ds : List ℕ} (hd : ∀ d ∈ ds, d ≤ M) :
    (if (ds.foldl (push M b) (0, false)).2 then M else (ds.foldl (push M b) (0, false)).1) =
      min (numeral b ds) M := by
  rcases foldl_push hb hd (Nat.zero_le M) with ⟨hlt, h⟩ | ⟨hle, h⟩
  · rw [if_pos h, Nat.zero_mul, Nat.zero_add] at *
    exact (Nat.min_eq_right hlt.le).symm
  · rw [h, Nat.zero_mul, Nat.zero_add] at *
    exact (Nat.min_eq_left hle).symm

end CProj
