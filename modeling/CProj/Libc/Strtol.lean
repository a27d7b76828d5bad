/-
  What `strtol` (lib.cc) computes in base 10.

  `strtol` skips white space and a minus sign, and hands the rest to `strtoul`, which skips white
  space and a sign once more (`strtol_eq`).  The second round does nothing where digits follow the
  sign at once; where they do not, the number behind it is read all the same
  (`strtol_clamps_iff`).
-/
import CProj.Libc.Strtoul
import Mathlib.Data.List.DropRight

namespace CProj.Libc

def LONG_MAX : ℤ := 2 ^ 63 - 1
def LONG_MIN : ℤ := -2 ^ 63

/-- The number of a string, with its sign. -/
def signedValue (s : List UInt8) : ℤ := if minus s then -valueOf s 10 else valueOf s 10

/-- `strtol` returns the nearest `long` to the number of the string, and 0 if there is none. -/
def Clamps (s : List UInt8) : Prop :=
  ∃ e, strtol s 10 =
    .ok (if digitsOf s 10 = [] then 0 else max LONG_MIN (min (signedValue s) LONG_MAX), e)

/-- Digits follow a minus sign at once, or what `strtoul` finds behind it is 0. -/
def SignedOnce (s : List UInt8) : Prop :=
  minus s = true → digitsOf s 10 ≠ [] ∨ valueOf (afterSign s) 10 = 0

instance (s : List UInt8) : Decidable (SignedOnce s) :=
  inferInstanceAs (Decidable (_ → _))

variable {s t : List UInt8} {base : ℤ}

/-! ## One round and another -/

/-- What `strtol` leaves to `strtoul`. -/
def afterMinus (s : List UInt8) : List UInt8 := if minus s then afterSign s else afterSpace s

theorem strtol_eq (hs : 0 ∈ s) : strtol s base = strtoul (afterMinus s) base >>= fun r =>
    .ok (toLong (if minus s then neg (min r.1 (2 ^ 63)) else min r.1 (2 ^ 63 - 1)), r.2) := by
  obtain ⟨c, r, hcons⟩ := List.exists_cons_of_ne_nil (List.ne_nil_of_mem (mem_afterSpace hs))
  have hminus : (char c == ch '-') = minus s := by
    rw [char_beq c 45 (by decide), minus, hcons]
    simp
  have hrest : (if minus s then (c :: r).drop 1 else c :: r) = afterMinus s := by
    unfold afterMinus afterSign
    cases hm : minus s with
    | true => simp [hcons]
    | false => simp [hcons]
  rw [strtol, skipSpace_eq hs, ok_bind, hcons, deref_cons, ok_bind]
  simp only [hminus, hrest]
  refine congrArg _ (funext fun p => ?_)
  obtain ⟨u, e⟩ := p
  cases minus s with
  | true =>
    have hmin : (if u > 2 ^ 63 - (!true).toNat then 2 ^ 63 - (!true).toNat else u) =
        min u (2 ^ 63) := by
      simp only [Bool.not_true, Bool.toNat_false, Nat.sub_zero]
      split_ifs <;> omega
    simp only [hmin]
    rfl
  | false =>
    have hmin : (if u > 2 ^ 63 - (!false).toNat then 2 ^ 63 - (!false).toNat else u) =
        min u (2 ^ 63 - 1) := by
      simp only [Bool.not_false, Bool.toNat_true]
      split_ifs <;> omega
    simp only [hmin]
    rfl

theorem afterSpace_afterSpace (s : List UInt8) : afterSpace (afterSpace s) = afterSpace s :=
  List.dropWhile_idempotent _ _

theorem minus_afterSpace (s : List UInt8) : minus (afterSpace s) = minus s := by
  rw [minus, minus, afterSpace_afterSpace]

theorem afterSign_afterSpace (s : List UInt8) : afterSign (afterSpace s) = afterSign s := by
  rw [afterSign, afterSign, minus_afterSpace, afterSpace_afterSpace]

/-- Nothing is skipped in front of a digit. -/
theorem skip_digit {c : UInt8} {r : List UInt8} (hc : digitBelow 10 c = true) :
    minus (c :: r) = false ∧ afterSign (c :: r) = c :: r := by
  have hlow : 48 ≤ c.toNat := by
    simp only [digitBelow, digitValue] at hc
    -- letters stand above the digits
    split_ifs at hc with hdigit hlower hupper
    · omega
    · omega
    · omega
    · simp at hc
  have hspace : afterSpace (c :: r) = c :: r := by
    refine List.dropWhile_cons_of_neg ?_
    simp only [isSpaceByte, Bool.or_eq_true, Bool.and_eq_true, decide_eq_true_eq, beq_iff_eq]
    omega
  have hne : ∀ d : UInt8, d.toNat < 48 → ((c :: r).head? == some d) = false := by
    intro d hd
    rw [List.head?_cons, beq_eq_false_iff_ne]
    rintro h
    obtain rfl : c = d := Option.some_inj.1 h
    omega
  have hminus : minus (c :: r) = false := by rw [minus, hspace, hne 45 (by decide)]
  refine ⟨hminus, ?_⟩
  rw [afterSign, hminus, hspace, hne 43 (by decide), Bool.or_self, if_neg Bool.false_ne_true]

/-! ## The value in base 10 -/

theorem digitsOf_ten (s : List UInt8) :
    digitsOf s 10 = (afterSign s).takeWhile (digitBelow 10) := by
  have hprefix : afterPrefix s 10 = afterSign s := if_neg fun h => absurd h.1 (by decide)
  rw [digitsOf, hprefix]
  rfl

/-- The value depends on what follows the sign alone. -/
theorem valueOf_ten (h : afterSign t = afterSign s) : valueOf t 10 = valueOf s 10 := by
  have hbase : baseOf t 10 = baseOf s 10 := rfl
  rw [valueOf, valueOf, hbase, digitsOf_ten, digitsOf_ten, h]

theorem readValue_ten (s : List UInt8) : readValue s 10 = min (valueOf s 10) ULONG_MAX := by
  have hread : ∀ c, ¬ Misread (baseOf s 10) c := by
    rintro c ⟨hlow, hhigh⟩
    change c.toNat < 48 + 10 at hhigh
    omega
  exact (readValue_eq_iff (.inr (by decide)) fun c _ => hread c).2 (.inr fun c _ => hread c)

/-- What `strtol` returns without a minus sign. -/
theorem strtol_plus (hs : 0 ∈ s) (hminus : minus s = false) :
    ∃ e, strtol s 10 = .ok (min (valueOf s 10 : ℤ) LONG_MAX, e) := by
  have hrest : afterMinus s = afterSpace s := by rw [afterMinus, hminus, if_neg Bool.false_ne_true]
  rw [strtol_eq hs, hrest, strtoul_spec (mem_afterSpace hs) (.inr (by decide)), minus_afterSpace,
    hminus, readValue_ten, valueOf_ten (afterSign_afterSpace s), ok_bind]
  simp only [Bool.false_eq_true, if_false]
  rw [toLong_of_lt (by omega)]
  have hmin : ((min (min (valueOf s 10) ULONG_MAX) (2 ^ 63 - 1) : ℕ) : ℤ) =
      min (valueOf s 10 : ℤ) LONG_MAX := by
    rw [LONG_MAX, ULONG_MAX]
    omega
  exact ⟨_, by rw [hmin]⟩

/-- What `strtol` returns after a minus sign, for the number that `strtoul` finds behind it. -/
theorem strtol_minus (hs : 0 ∈ s) (hminus : minus s = true) :
    ∃ e, strtol s 10 = .ok (-(min (if minus (afterSign s) then neg (readValue (afterSign s) 10)
      else readValue (afterSign s) 10) (2 ^ 63) : ℕ), e) := by
  rw [strtol_eq hs, afterMinus, hminus, if_pos rfl,
    strtoul_spec (mem_afterSign hs) (.inr (by decide)),
    ok_bind, if_pos rfl, toLong_neg (Nat.min_le_right _ _)]
  exact ⟨_, rfl⟩

theorem neg_readValue (s : List UInt8) : neg (readValue s 10) = 0 ↔ valueOf s 10 = 0 := by
  rw [readValue_ten, neg, ULONG_MAX]
  omega

theorem returns_iff {x y : ℤ} {e : List UInt8} (h : strtol s base = .ok (x, e)) :
    (∃ e', strtol s base = .ok (y, e')) ↔ x = y := by
  rw [h]
  constructor
  · rintro ⟨e', he⟩
    cases he
    rfl
  · rintro rfl
    exact ⟨e, rfl⟩

/-- A string whose digits follow its sign at once has no second sign. -/
theorem skip_digits (h : digitsOf s 10 ≠ []) :
    minus (afterSign s) = false ∧ valueOf (afterSign s) 10 = valueOf s 10 := by
  rw [digitsOf_ten] at h
  rcases hcons : afterSign s with - | ⟨c, r⟩
  · rw [hcons] at h
    exact absurd rfl h
  have hc : digitBelow 10 c = true := by
    by_contra hc
    rw [hcons, List.takeWhile_cons_of_neg hc] at h
    exact h rfl
  obtain ⟨hminus, hsign⟩ := skip_digit (r := r) hc
  exact ⟨hminus, valueOf_ten (hsign.trans hcons.symm)⟩

/-- **`strtol` clamps the number of a string** exactly if digits follow a minus sign at once, or the
    number that stands behind it is 0. -/
theorem strtol_clamps_iff (s : List UInt8) (hs : 0 ∈ s) : Clamps s ↔ SignedOnce s := by
  cases hminus : minus s with
  | false =>
    refine iff_of_true ?_ fun h => absurd (hminus.symm.trans h) (by decide)
    obtain ⟨e, he⟩ := strtol_plus hs hminus
    refine (returns_iff he).2 ?_
    rw [signedValue, hminus, if_neg Bool.false_ne_true, LONG_MAX, LONG_MIN]
    split_ifs with hnil
    · have hzero : valueOf s 10 = 0 := by
        rw [valueOf, hnil]
        rfl
      rw [hzero]
      rfl
    · omega
  | true =>
    obtain ⟨e, he⟩ := strtol_minus hs hminus
    rw [SignedOnce, hminus]
    by_cases hnil : digitsOf s 10 = []
    · have hzero := neg_readValue (afterSign s)
      have hread := readValue_ten (afterSign s)
      rw [ULONG_MAX] at hread
      refine (returns_iff he).trans ?_
      simp only [hnil, ne_eq, not_true_eq_false, false_or, true_imp_iff, if_true]
      split_ifs <;> omega
    · refine iff_of_true ((returns_iff he).2 ?_) fun _ => .inl hnil
      obtain ⟨hsecond, hvalue⟩ := skip_digits hnil
      rw [hsecond, if_neg Bool.false_ne_true, readValue_ten, hvalue, if_neg hnil, signedValue,
        hminus, if_pos rfl, LONG_MAX, LONG_MIN, ULONG_MAX]
      omega

/-- `strtol("-5", NULL, 10)` -/
theorem strtol_clamps_iff_minus_five : Clamps [45, 53, 0] ↔ SignedOnce [45, 53, 0] :=
  strtol_clamps_iff [45, 53, 0] (by decide)

/-- `strtol("- 5", NULL, 10)` is -5. -/
theorem strtol_reads_minus_blank : ¬ ∀ s : List UInt8, 0 ∈ s → Clamps s := by
  intro h
  obtain ⟨e, he⟩ := h [45, 32, 53, 0] (by decide)
  have hcode : strtol [45, 32, 53, 0] 10 = .ok (-5, [0]) := by decide +kernel
  have hnil : digitsOf [45, 32, 53, 0] 10 = [] := by decide
  rw [hcode, if_pos hnil, Except.ok.injEq, Prod.mk.injEq] at he
  exact absurd he.1 (by decide)

end CProj.Libc
