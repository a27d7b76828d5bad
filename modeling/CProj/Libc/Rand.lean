/-
  `rand`, `srand` and `rand(min, max)` (lib.cc).

  `rand(min, max)` scales a value of 31 bits to the range.  The number of values in the range is an
  `int`: it has no overflow, and the scaling is exact (`randRange_eq`), unless the range has as many
  values as `rand` (`randRange_fits_iff`).
-/
import CProj.Libc.Printf

namespace CProj.Libc

def RAND_MAX : ℕ := 0x7FFFFFFF

def INT_MIN : ℤ := -2 ^ 31
def INT_MAX : ℤ := 2 ^ 31 - 1

/-- The conversion of an `int` to `unsigned long`. -/
def toUlong (x : ℤ) : ℕ := (x % 2 ^ 64).toNat

/-- The globals of the generator. -/
structure Generator where
  rand_seed_set : Bool
  rand_seed : UInt64
  deriving DecidableEq, Repr

def srand (seed : UInt32) : Generator :=
  ⟨true, seed.toUInt64 <<< 32 ||| seed.toUInt64⟩

def rand (g : Generator) : ℕ × Generator :=
  let g := if g.rand_seed_set then g else srand 819234718
  let rand_seed := g.rand_seed * 6364136223846793005 + 1
  (rand_seed.toNat >>> 32 &&& RAND_MAX, { g with rand_seed := rand_seed })

/-- `rand(min, max)` -/
def randRange (min max : ℤ) (g : Generator) : Except Fault (ℤ × Generator) := do
  if ¬ min ≤ max then throw .assertion
  if ¬ toInt (max - min) ≤ RAND_MAX then throw .assertion
  let (r, g) := rand g
  let values := toUlong (toInt (toInt (max - min) + 1))
  return (toInt ((toUlong min + r * values % 2 ^ 64 / (RAND_MAX + 1)) % 2 ^ 64 : ℕ), g)

variable {min max : ℤ} {g : Generator}

theorem rand_le (g : Generator) : (rand g).1 ≤ RAND_MAX := Nat.and_le_right

/-- The generator produces every value of 31 bits. -/
theorem rand_surjective {r : ℕ} (hr : r ≤ RAND_MAX) : ∃ g, (rand g).1 = r := by
  -- the inverse of the multiplier
  have hinv : (0xC097EF87329E28A5 : UInt64) * 6364136223846793005 = 1 := by decide
  obtain ⟨x, hx⟩ : ∃ x, x = UInt64.ofNat (r * 2 ^ 32) := ⟨_, rfl⟩
  have hseed : (x - 1) * 0xC097EF87329E28A5 * 6364136223846793005 + 1 = x := by grind
  refine ⟨⟨true, (x - 1) * 0xC097EF87329E28A5⟩, ?_⟩
  rw [RAND_MAX] at hr
  have hsmall : r * 2 ^ 32 < 2 ^ 64 := by omega
  have hand : r &&& 0x7FFFFFFF = r := (Nat.and_two_pow_sub_one_eq_mod r 31).trans
    (Nat.mod_eq_of_lt (by omega))
  simp only [rand, if_true, hseed, RAND_MAX]
  rw [hx, UInt64.toNat_ofNat_of_lt' hsmall, Nat.shiftRight_eq_div_pow,
    Nat.mul_div_cancel _ (by decide), hand]

theorem toInt_of_int {x : ℤ} (h : INT_MIN ≤ x) (h' : x ≤ INT_MAX) : toInt x = x := by
  rw [INT_MIN] at h
  rw [INT_MAX] at h'
  rw [toInt, Int.bmod_eq_of_le] <;> omega

/-- The sum of an `int` and an `unsigned long`, as an `int`. -/
theorem toInt_add (x : ℤ) (q : ℕ) : toInt ((toUlong x + q) % 2 ^ 64 : ℕ) = toInt (x + q) := by
  rw [toInt, toInt, toUlong, Int.bmod_def, Int.bmod_def]
  norm_num
  split_ifs <;> omega

/-- The scaling, where the number of values is an `int`. -/
theorem randRange_eq (hmin : INT_MIN ≤ min) (hmax : max ≤ INT_MAX) {n : ℕ} (hn : max = min + n)
    (hlt : n < RAND_MAX) : (rand g).1 * (n + 1) / (RAND_MAX + 1) ≤ n ∧ randRange min max g =
      .ok (min + ((rand g).1 * (n + 1) / (RAND_MAX + 1) : ℕ), (rand g).2) := by
  have hr := rand_le g
  have hR : RAND_MAX = 2147483647 := rfl
  have hI : INT_MIN = -2147483648 := rfl
  have hX : INT_MAX = 2147483647 := rfl
  have hprod : (rand g).1 * (n + 1) ≤ RAND_MAX * (n + 1) := Nat.mul_le_mul_right _ hr
  have hdiff : toInt (max - min) = n := by
    rw [toInt_of_int (by omega) (by omega)]
    omega
  have hvalues : toUlong (toInt (toInt (max - min) + 1)) = n + 1 := by
    rw [hdiff, toInt_of_int (by omega) (by omega), toUlong]
    omega
  rw [hR] at hprod
  have hq : (rand g).1 * (n + 1) / (RAND_MAX + 1) ≤ n := by
    rw [hR]
    omega
  have hmod : (rand g).1 * (n + 1) % 2 ^ 64 = (rand g).1 * (n + 1) := Nat.mod_eq_of_lt (by omega)
  rw [randRange, if_neg (by omega), if_neg (by omega)]
  simp only [hvalues, hmod, toInt_add]
  refine ⟨hq, ?_⟩
  generalize (rand g).1 * (n + 1) / (RAND_MAX + 1) = q at hq
  rw [toInt_of_int (by omega) (by omega)]
  rfl

/-- Every value of the range is hit. -/
theorem scaled_surjective {n k : ℕ} (hn : n < RAND_MAX) (hk : k ≤ n) :
    ∃ r ≤ RAND_MAX, r * (n + 1) / (RAND_MAX + 1) = k := by
  -- the first value with a multiple of at least `k * 2 ^ 31`
  obtain ⟨a, ha⟩ : ∃ a, a = k * (RAND_MAX + 1) + n := ⟨_, rfl⟩
  have hdiv := Nat.div_add_mod' a (n + 1)
  have hmod : a % (n + 1) < n + 1 := Nat.mod_lt a (Nat.succ_pos n)
  have hend : (n + 1) * (RAND_MAX + 1) = n * (RAND_MAX + 1) + (RAND_MAX + 1) := Nat.succ_mul _ _
  have hle : k * (RAND_MAX + 1) ≤ n * (RAND_MAX + 1) := Nat.mul_le_mul_right _ hk
  refine ⟨a / (n + 1), ?_, ?_⟩
  · have hlt : a < (RAND_MAX + 1) * (n + 1) := by
      rw [Nat.mul_comm]
      omega
    exact Nat.le_of_lt_succ ((Nat.div_lt_iff_lt_mul (Nat.succ_pos n)).2 hlt)
  · refine Nat.div_eq_of_lt_le ?_ ?_
    · omega
    · rw [Nat.succ_mul]
      omega

/-- A range with as many values as `rand`: their number is negative, and 1 is scaled to `-1`. -/
theorem randRange_full (hfull : max - min = RAND_MAX) (hg : (rand g).1 = 1) :
    randRange min max g = .ok (toInt (min - 1), (rand g).2) := by
  have hR : RAND_MAX = 2147483647 := rfl
  have hI : INT_MIN = -2147483648 := rfl
  have hX : INT_MAX = 2147483647 := rfl
  have hdiff : toInt (max - min) = RAND_MAX := by
    rw [toInt_of_int (by omega) (by omega)]
    omega
  have hvalues : toUlong (toInt (toInt (max - min) + 1)) = 2 ^ 64 - 2 ^ 31 := by
    rw [hdiff]
    decide
  rw [randRange, if_neg (by omega), if_neg (by omega)]
  simp only [hvalues, hg, toInt_add]
  refine congrArg (fun x => Except.ok (x, (rand g).2)) ?_
  rw [hR, toInt, toInt, Int.bmod_def, Int.bmod_def]
  norm_num
  split_ifs <;> omega

/-- **`rand(min, max)`** stays in its range and returns all of it, exactly if the range has fewer
    values than `rand`. -/
theorem randRange_fits_iff (min max : ℤ) (hmin : INT_MIN ≤ min) (hmax : max ≤ INT_MAX)
    (hle : min ≤ max) (hrange : max - min ≤ RAND_MAX) :
    ((∀ g, ∃ x g', randRange min max g = .ok (x, g') ∧ min ≤ x ∧ x ≤ max) ∧
      ∀ x, min ≤ x → x ≤ max → ∃ g g', randRange min max g = .ok (x, g')) ↔
    max - min < RAND_MAX := by
  constructor
  · rintro ⟨hfits, -⟩
    by_contra hfull
    obtain ⟨g, hg⟩ := rand_surjective (r := 1) (by decide)
    obtain ⟨x, g', hx, hlow, hhigh⟩ := hfits g
    rw [randRange_full (by omega) hg, Except.ok.injEq, Prod.mk.injEq] at hx
    have hR : RAND_MAX = 2147483647 := rfl
    obtain rfl := hx.1
    rw [toInt, Int.bmod_def] at hlow hhigh
    norm_num at hlow hhigh
    rw [INT_MIN] at hmin
    rw [INT_MAX] at hmax
    split_ifs at hlow hhigh <;> omega
  · intro hlt
    obtain ⟨n, hn⟩ := Int.eq_ofNat_of_zero_le (show 0 ≤ max - min by omega)
    have hmax' : max = min + n := by omega
    have hn' : n < RAND_MAX := by omega
    constructor
    · intro g
      obtain ⟨hq, heq⟩ := randRange_eq (g := g) hmin hmax hmax' hn'
      generalize (rand g).1 * (n + 1) / (RAND_MAX + 1) = q at hq heq
      exact ⟨_, _, heq, by omega, by omega⟩
    · intro x hlow hhigh
      obtain ⟨k, hk⟩ := Int.eq_ofNat_of_zero_le (show 0 ≤ x - min by omega)
      obtain ⟨r, hr, hscaled⟩ := scaled_surjective hn' (k := k) (by omega)
      obtain ⟨g, rfl⟩ := rand_surjective hr
      obtain ⟨-, heq⟩ := randRange_eq (g := g) hmin hmax hmax' hn'
      rw [hscaled] at heq
      obtain rfl : x = min + k := by omega
      exact ⟨g, _, heq⟩

/-- `rand(1, 6)` -/
theorem randRange_fits_iff_die :
    ((∀ g, ∃ x g', randRange 1 6 g = .ok (x, g') ∧ 1 ≤ x ∧ x ≤ 6) ∧
      ∀ x, 1 ≤ x → x ≤ 6 → ∃ g g', randRange 1 6 g = .ok (x, g')) ↔ (6 : ℤ) - 1 < RAND_MAX :=
  randRange_fits_iff 1 6 (by decide) (by decide) (by decide) (by decide)

/-- `rand(0, RAND_MAX)` is -1 for the value 1 of `rand()`. -/
theorem randRange_leaves_range : ∃ g g', (rand g).1 = 1 ∧
    randRange 0 RAND_MAX g = .ok (-1, g') := by
  obtain ⟨g, hg⟩ := rand_surjective (r := 1) (by decide)
  refine ⟨g, (rand g).2, hg, ?_⟩
  rw [randRange_full (by decide) hg]
  rfl

end CProj.Libc
