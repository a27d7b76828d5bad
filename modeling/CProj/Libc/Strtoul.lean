/-
  `strtoul` and `strtol` (lib.cc), and which characters `strtoul` takes for digits.

  A string is the memory from its first character on: a pointer into it is a rest of the list, it
  is NUL-terminated if `0 ∈ s`, and a read where the list has ended is a fault.

  `strtoul_spec` says what `strtoul` computes of its own digits (`digit`).  They are not the digits
  of the base (`digitValue`): the range test `*s < '0' + base` also takes, in the bases above 10,
  the characters from `:` on below `'0' + base` (`Misread`), capital letters with a value 7 too
  large among them.
-/
import CProj.Lib.Numeral
import CProj.Lib.Run
import Mathlib.Data.List.TakeWhile
import Mathlib.Tactic.SplitIfs

namespace CProj.Libc

inductive Fault where
  /-- a read or a write outside the memory of a string -/
  | outOfBounds
  /-- a read past the last argument -/
  | noArgument
  | assertion
  /-- a loop has not ended yet -/
  | running
  deriving DecidableEq, Repr

/-- The value of a `char`, which is signed. -/
def char (c : UInt8) : ℤ := c.toInt8.toInt

/-- The value of a character constant. -/
def ch (c : Char) : ℤ := c.toNat

/-- `*s` -/
def deref : List UInt8 → Except Fault ℤ
  | [] => .error .outOfBounds
  | c :: _ => .ok (char c)

/-- The largest `unsigned long`, `-1UL`. -/
def ULONG_MAX : ℕ := 2 ^ 64 - 1

/-- `-x` of an `unsigned long`. -/
def neg (x : ℕ) : ℕ := (2 ^ 64 - x) % 2 ^ 64

/-- The conversion of an `unsigned long` to `long`. -/
def toLong (x : ℕ) : ℤ := Int.bmod x (2 ^ 64)

def isspace (c : ℤ) : Bool := (decide (c ≥ ch '\t') && decide (c ≤ ch '\r')) || c == ch ' '

/-- The loop `while (isspace(*s)) ++s`. -/
def skipSpace : List UInt8 → Except Fault (List UInt8)
  | [] => .error .outOfBounds
  | c :: s => if isspace (char c) then skipSpace s else .ok (c :: s)

/-- `s[0] == '0' && (s[1] == 'x' || s[1] == 'X')` -/
def hexPrefix (s : List UInt8) : Except Fault Bool := do
  if (← deref s) = ch '0' then
    let c ← deref (s.drop 1)
    return c == ch 'x' || c == ch 'X'
  else return false

/-- The base that `strtoul` goes on with, and where the digits start. -/
def selectBase (s : List UInt8) (base : ℤ) : Except Fault (ℤ × List UInt8) := do
  if base = 0 then
    if ← hexPrefix s then return (16, s.drop 2)
    else if (← deref s) = ch '0' then return (8, s)
    else return (10, s)
  else if base = 16 then
    if ← hexPrefix s then return (16, s.drop 2) else return (16, s)
  else return (base, s)

/-- The digit that the loop of `strtoul` reads in a character, if it goes on. -/
def digit (base c : ℤ) : Option ℕ :=
  if c ≥ ch '0' ∧ c < ch '0' + base then some (c - ch '0').toNat
  else if base > 10 ∧ c ≥ ch 'a' ∧ c < ch 'a' + base - 10 then some (c - ch 'a' + 10).toNat
  else if base > 10 ∧ c ≥ ch 'A' ∧ c < ch 'A' + base - 10 then some (c - ch 'A' + 10).toNat
  else none

/-- The loop over the digits: `x`, `overflow` and `s` at its end. -/
def digitLoop (base : ℤ) : List UInt8 → ℕ → Bool → Except Fault ((ℕ × Bool) × List UInt8)
  | [], _, _ => .error .outOfBounds
  | c :: s, x, overflow =>
    match digit base (char c) with
    | none => .ok ((x, overflow), c :: s)
    | some d =>
      if x > (ULONG_MAX - d) / base.toNat then digitLoop base s x true
      else digitLoop base s ((x * base.toNat + d) % 2 ^ 64) overflow

/-- The result of `strtoul`, and `*endptr`. -/
def strtoul (s : List UInt8) (base : ℤ) : Except Fault (ℕ × List UInt8) := do
  let s ← skipSpace s
  let c ← deref s
  let negative := c == ch '-'
  let s := if negative || c == ch '+' then s.drop 1 else s
  let (base, s) ← selectBase s base
  let ((x, overflow), s) ← digitLoop base s 0 false
  let x := if overflow then ULONG_MAX else x
  return (if negative then neg x else x, s)

/-- The result of `strtol`, and `*endptr`. -/
def strtol (s : List UInt8) (base : ℤ) : Except Fault (ℤ × List UInt8) := do
  let s ← skipSpace s
  let negative := (← deref s) == ch '-'
  let s := if negative then s.drop 1 else s
  let (u, endptr) ← strtoul s base
  let bound := 2 ^ 63 - (!negative).toNat
  let u := if u > bound then bound else u
  return (toLong (if negative then neg u else u), endptr)

/-! ## Results -/

theorem toLong_of_lt {n : ℕ} (h : n < 2 ^ 63) : toLong n = n := by
  unfold toLong
  rw [Int.bmod_def]
  norm_num at h ⊢
  split_ifs <;> omega

theorem toLong_neg {n : ℕ} (h : n ≤ 2 ^ 63) : toLong (neg n) = -n := by
  unfold toLong neg
  rw [Int.bmod_def]
  norm_num at h ⊢
  split_ifs <;> omega

/-! ## Characters -/

theorem char_eq (c : UInt8) :
    char c = if c.toNat < 128 then (c.toNat : ℤ) else (c.toNat : ℤ) - 256 := by
  change c.toBitVec.toInt = _
  rw [BitVec.toInt_eq_toNat_cond]
  change (if 2 * c.toNat < 2 ^ 8 then _ else _) = _
  split_ifs <;> first | rfl | omega

theorem char_inj {c d : UInt8} : char c = char d ↔ c = d := by
  refine ⟨fun h => UInt8.toNat_inj.1 ?_, congrArg char⟩
  have hc := c.toNat_lt
  have hd := d.toNat_lt
  rw [char_eq, char_eq] at h
  split_ifs at h <;> omega

/-- White space: a blank, or one of the five controls from tab to carriage return. -/
def isSpaceByte (c : UInt8) : Bool := (9 ≤ c.toNat && c.toNat ≤ 13) || c.toNat == 32

theorem isspace_char (c : UInt8) : isspace (char c) = isSpaceByte c := by
  have hc := c.toNat_lt
  have hb : isspace (char c) = true ↔ isSpaceByte c = true := by
    simp only [isspace, isSpaceByte, ch, Bool.or_eq_true, Bool.and_eq_true, decide_eq_true_eq,
      beq_iff_eq, Char.reduceToNat, char_eq]
    split_ifs <;> omega
  exact Bool.eq_iff_iff.2 hb

/-! ## What a number's text is -/

/-- The value of a digit or letter, in the bases that have it. -/
def digitValue (c : UInt8) : Option ℕ :=
  if 48 ≤ c.toNat ∧ c.toNat ≤ 57 then some (c.toNat - 48)
  else if 97 ≤ c.toNat ∧ c.toNat ≤ 122 then some (c.toNat - 97 + 10)
  else if 65 ≤ c.toNat ∧ c.toNat ≤ 90 then some (c.toNat - 65 + 10)
  else none

/-- `c` is a digit of the base `b`. -/
def digitBelow (b : ℕ) (c : UInt8) : Bool := (digitValue c).any (· < b)

/-- The string without its white space. -/
def afterSpace (s : List UInt8) : List UInt8 := s.dropWhile isSpaceByte

/-- The number has a minus sign. -/
def minus (s : List UInt8) : Bool := (afterSpace s).head? == some 45

/-- The string without its white space and one sign. -/
def afterSign (s : List UInt8) : List UInt8 :=
  if minus s || (afterSpace s).head? == some 43 then (afterSpace s).drop 1 else afterSpace s

/-- The text starts with `0x` or `0X`. -/
def startsHex (s : List UInt8) : Bool :=
  s.head? == some 48 && ((s.drop 1).head? == some 120 || (s.drop 1).head? == some 88)

/-- The base of the number: base 0 leaves the choice to the text. -/
def baseOf (s : List UInt8) (base : ℤ) : ℕ :=
  if base = 0 then
    if startsHex (afterSign s) then 16 else if (afterSign s).head? = some 48 then 8 else 10
  else base.toNat

/-- The text of the number from its digits on. -/
def afterPrefix (s : List UInt8) (base : ℤ) : List UInt8 :=
  if (base = 0 ∨ base = 16) ∧ startsHex (afterSign s) then (afterSign s).drop 2 else afterSign s

/-- The digits of the number. -/
def digitsOf (s : List UInt8) (base : ℤ) : List UInt8 :=
  (afterPrefix s base).takeWhile (digitBelow (baseOf s base))

/-- What follows the digits. -/
def afterDigits (s : List UInt8) (base : ℤ) : List UInt8 :=
  (afterPrefix s base).dropWhile (digitBelow (baseOf s base))

/-- The value of the number, without its sign. -/
def valueOf (s : List UInt8) (base : ℤ) : ℕ :=
  numeral (baseOf s base) ((digitsOf s base).map fun c => (digitValue c).getD 0)

/-- `strtoul` consumes exactly the digits, and returns their value or the largest `unsigned long`
    where there is no minus sign. -/
def ReadsDigits (s : List UInt8) (base : ℤ) : Prop :=
  ∃ x, strtoul s base = .ok (x, afterDigits s base) ∧
    (minus s = false → x = if valueOf s base < 2 ^ 64 then valueOf s base else ULONG_MAX)

/-! ## What `strtoul` computes -/

variable {s t : List UInt8} {base : ℤ}

theorem mem_dropWhile {p : UInt8 → Bool} (hp : p 0 = false) (hs : 0 ∈ s) : 0 ∈ s.dropWhile p := by
  have happ : s.takeWhile p ++ s.dropWhile p = s := List.takeWhile_append_dropWhile
  rw [← happ, List.mem_append] at hs
  rcases hs with hs | hs
  · exact absurd (List.mem_takeWhile_imp hs) (by rw [hp]; decide)
  · exact hs

theorem mem_drop_one {c : UInt8} (hc : c ≠ 0) (hs : 0 ∈ s) (hhead : s.head? = some c) :
    0 ∈ s.drop 1 := by
  cases s with
  | nil => exact hs
  | cons d s =>
    rw [List.head?_cons, Option.some_inj] at hhead
    subst hhead
    exact (List.mem_cons.1 hs).resolve_left fun h => hc h.symm

theorem skipSpace_eq (hs : 0 ∈ s) : skipSpace s = .ok (afterSpace s) := by
  induction s with
  | nil => exact absurd hs List.not_mem_nil
  | cons c s ih =>
    rw [skipSpace, afterSpace, isspace_char]
    by_cases hc : isSpaceByte c = true
    · have hne : (0 : UInt8) ≠ c := by rintro rfl; exact absurd hc (by decide)
      rw [if_pos hc, List.dropWhile_cons_of_pos hc]
      exact ih ((List.mem_cons.1 hs).resolve_left hne)
    · rw [if_neg hc, List.dropWhile_cons_of_neg hc]

theorem mem_afterSpace (hs : 0 ∈ s) : 0 ∈ afterSpace s := mem_dropWhile rfl hs

theorem deref_cons (c : UInt8) (s : List UInt8) : deref (c :: s) = .ok (char c) := rfl

/-- Comparing `*s` with a character constant. -/
theorem char_beq (c d : UInt8) {k : Char} (hk : ch k = char d) : (char c == ch k) = (c == d) := by
  rw [hk, Bool.eq_iff_iff, beq_iff_eq, beq_iff_eq, char_inj]

theorem hexPrefix_eq (hs : 0 ∈ s) : hexPrefix s = .ok (startsHex s) := by
  rcases s with - | ⟨c, s⟩
  · exact absurd hs List.not_mem_nil
  rw [hexPrefix, deref_cons, ok_bind]
  by_cases hc : c = 48
  · subst hc
    have hs' : 0 ∈ s := (List.mem_cons.1 hs).resolve_left (by decide)
    rcases s with - | ⟨d, s⟩
    · exact absurd hs' List.not_mem_nil
    rw [if_pos (by decide), List.drop_one, List.tail_cons, deref_cons, ok_bind]
    change Except.ok (char d == ch 'x' || char d == ch 'X') = _
    rw [char_beq d 120 (by decide), char_beq d 88 (by decide)]
    simp [startsHex]
  · have hne : char c ≠ ch '0' := fun h => hc (char_inj.1 (h.trans (by decide : ch '0' = char 48)))
    have hhead : ((c :: s).head? == some 48) = false := by
      rw [List.head?_cons]
      simpa using hc
    rw [if_neg hne, startsHex, hhead]
    rfl

theorem mem_drop_two (hs : 0 ∈ s) (h : startsHex s = true) : 0 ∈ s.drop 2 := by
  rcases s with - | ⟨c, - | ⟨d, s⟩⟩
  · exact absurd hs List.not_mem_nil
  · simp [startsHex] at h
  · simp only [startsHex, List.head?_cons, List.drop_one, List.tail_cons, Bool.and_eq_true,
      Bool.or_eq_true, beq_iff_eq, Option.some_inj] at h
    have hd : (0 : UInt8) ≠ d := by rcases h.2 with rfl | rfl <;> decide
    have hc : (0 : UInt8) ≠ c := by rw [h.1]; decide
    exact (List.mem_cons.1 ((List.mem_cons.1 hs).resolve_left hc)).resolve_left hd

theorem mem_afterSign (hs : 0 ∈ s) : 0 ∈ afterSign s := by
  have hs' := mem_afterSpace hs
  unfold afterSign minus
  split_ifs with h
  · simp only [Bool.or_eq_true, beq_iff_eq] at h
    rcases h with h | h
    · exact mem_drop_one (by decide) hs' h
    · exact mem_drop_one (by decide) hs' h
  · exact hs'

theorem mem_afterPrefix (hs : 0 ∈ s) : 0 ∈ afterPrefix s base := by
  unfold afterPrefix
  split_ifs with h
  · exact mem_drop_two (mem_afterSign hs) h.2
  · exact mem_afterSign hs

/-- The base that `strtoul` goes on with is the base of the number. -/
theorem selectBase_eq (hs : 0 ∈ s) (hb : 0 ≤ base) :
    selectBase (afterSign s) base = .ok ((baseOf s base : ℤ), afterPrefix s base) := by
  have ht := mem_afterSign hs
  have hhex := hexPrefix_eq ht
  unfold selectBase baseOf afterPrefix
  by_cases h0 : base = 0
  · simp only [hhex, ok_bind, h0, true_or, true_and]
    cases hx : startsHex (afterSign s) with
    | true => rfl
    | false =>
      rcases hcons : afterSign s with - | ⟨c, r⟩
      · exact absurd (hcons ▸ ht) List.not_mem_nil
      have hc : (char c = ch '0') ↔ c = 48 := by
        rw [(by decide : ch '0' = char 48), char_inj]
      simp only [deref_cons, ok_bind, List.head?_cons, Option.some_inj, Bool.false_eq_true,
        if_false, hc]
      split_ifs <;> rfl
  · rw [if_neg h0, if_neg h0, Int.toNat_of_nonneg hb]
    by_cases h16 : base = 16
    · rw [if_pos h16, hhex, ok_bind, h16]
      simp only [or_true, true_and]
      split_ifs <;> rfl
    · rw [if_neg h16, if_neg fun h => h.1.elim h0 h16]
      rfl

/-! ## The digit loop -/

theorem digit_some {c : UInt8} {d : ℕ} (h : digit base (char c) = some d) :
    0 < base ∧ d < 128 := by
  have hc := c.toNat_lt
  simp only [digit, ch, Char.reduceToNat, char_eq] at h
  split_ifs at h <;> simp only [Option.some_inj] at h <;> omega

theorem digit_zero (base : ℤ) : digit base (char 0) = none := by
  have h : char 0 = 0 := rfl
  have h0 : ch '0' = 48 := rfl
  have hlower : ch 'a' = 97 := rfl
  have hupper : ch 'A' = 65 := rfl
  rw [digit, h, h0, hlower, hupper, if_neg (by omega), if_neg (by omega), if_neg (by omega)]

/-- `strtoul` goes on past the character `c`. -/
def accepts (b : ℕ) (c : UInt8) : Bool := (digit b (char c)).isSome

/-- The digits that `strtoul` reads. -/
def readDigits (b : ℕ) (t : List UInt8) : List ℕ :=
  (t.takeWhile (accepts b)).map fun c => (digit b (char c)).getD 0

theorem digitLoop_eq {b : ℕ} (ht : 0 ∈ t) {x : ℕ} {o : Bool} :
    digitLoop b t x o =
      .ok ((readDigits b t).foldl (push ULONG_MAX b) (x, o), t.dropWhile (accepts b)) := by
  induction t generalizing x o with
  | nil => exact absurd ht List.not_mem_nil
  | cons c t ih =>
    rw [digitLoop]
    cases hd : digit b (char c) with
    | none =>
      have hc : ¬ accepts b c = true := by simp [accepts, hd]
      rw [readDigits, List.takeWhile_cons_of_neg hc, List.dropWhile_cons_of_neg hc]
      rfl
    | some d =>
      have hc : accepts b c = true := by simp [accepts, hd]
      have hne : (0 : UInt8) ≠ c := by
        rintro rfl
        rw [digit_zero] at hd
        cases hd
      have ht' : 0 ∈ t := (List.mem_cons.1 ht).resolve_left hne
      obtain ⟨hpos, hlt⟩ := digit_some hd
      have hb : 0 < b := by omega
      have hmax : d ≤ ULONG_MAX := by rw [ULONG_MAX]; omega
      have hread : readDigits b (c :: t) = d :: readDigits b t := by
        rw [readDigits, List.takeWhile_cons_of_pos hc, List.map_cons, hd]
        rfl
      rw [hread, List.foldl_cons, List.dropWhile_cons_of_pos hc, push, Int.toNat_natCast]
      dsimp only
      by_cases hover : x > (ULONG_MAX - d) / b
      · rw [if_pos hover, if_pos hover, ih ht']
      · have hfit : x * b + d < 2 ^ 64 := by
          have := mt (push_overflow_iff hb hmax).2 hover
          rw [ULONG_MAX] at this
          omega
        rw [if_neg hover, if_neg hover, Nat.mod_eq_of_lt hfit, ih ht']

theorem readDigits_le {b : ℕ} : ∀ d ∈ readDigits b t, d ≤ ULONG_MAX := by
  intro d hd
  obtain ⟨c, -, rfl⟩ := List.mem_map.1 hd
  cases hc : digit b (char c) with
  | none => exact Nat.zero_le _
  | some d =>
    have := (digit_some hc).2
    rw [Option.getD_some, ULONG_MAX]
    omega

theorem baseOf_pos (hb : base = 0 ∨ 0 < base) : 0 < baseOf s base := by
  unfold baseOf
  split_ifs <;> omega

/-- The value of the digits that `strtoul` reads, up to the largest result. -/
def readValue (s : List UInt8) (base : ℤ) : ℕ :=
  min (numeral (baseOf s base) (readDigits (baseOf s base) (afterPrefix s base))) ULONG_MAX

/-- What `strtoul` returns and where it stops, in terms of the digits it reads. -/
theorem strtoul_spec (hs : 0 ∈ s) (hb : base = 0 ∨ 0 < base) :
    strtoul s base = .ok (if minus s then neg (readValue s base) else readValue s base,
      (afterPrefix s base).dropWhile (accepts (baseOf s base))) := by
  have hs' := mem_afterSpace hs
  obtain ⟨c, r, hcons⟩ := List.exists_cons_of_ne_nil (List.ne_nil_of_mem hs')
  have hminus : (char c == ch '-') = minus s := by
    rw [char_beq c 45 (by decide), minus, hcons]
    simp
  have hplus : (char c == ch '+') = ((afterSpace s).head? == some 43) := by
    rw [char_beq c 43 (by decide), hcons]
    simp
  have hsign : (if minus s || char c == ch '+' then (c :: r).drop 1 else c :: r) = afterSign s := by
    rw [hplus, afterSign, hcons]
  rw [strtoul, skipSpace_eq hs, ok_bind, hcons, deref_cons, ok_bind]
  simp only [hminus, hsign]
  rw [selectBase_eq hs (by omega), ok_bind, digitLoop_eq (mem_afterPrefix hs), ok_bind]
  simp only [foldl_push_min (baseOf_pos hb) readDigits_le]
  rfl

/-! ## The digits of the base -/

/-- A character from `:` on that the test for decimal digits takes. -/
def Misread (b : ℕ) (c : UInt8) : Prop := 58 ≤ c.toNat ∧ c.toNat < 48 + b

instance (b : ℕ) (c : UInt8) : Decidable (Misread b c) :=
  inferInstanceAs (Decidable (_ ∧ _))

/-- The character after the digits is not misread, and neither are the digits unless their value
    does not count: because of a minus sign, or because it is at least the largest result. -/
def ReadRight (s : List UInt8) (base : ℤ) : Prop :=
  (∀ c, (afterDigits s base).head? = some c → ¬ Misread (baseOf s base) c) ∧
    (minus s = true ∨ ULONG_MAX ≤ valueOf s base ∨
      ∀ c ∈ digitsOf s base, ¬ Misread (baseOf s base) c)

variable {b : ℕ} {c : UInt8}

theorem accepts_digit (hb : b ≤ 36) (h : digitBelow b c = true) :
    digit b (char c) = some ((digitValue c).getD 0 + if Misread b c then 7 else 0) := by
  have hc := c.toNat_lt
  simp only [digitBelow, digitValue] at h ⊢
  simp only [digit, ch, Char.reduceToNat, char_eq]
  by_cases hm : Misread b c
  · rw [if_pos hm]
    unfold Misread at hm
    split_ifs at h ⊢ <;> simp at h ⊢ <;> omega
  · rw [if_neg hm]
    unfold Misread at hm
    split_ifs at h ⊢ <;> simp at h ⊢ <;> omega

theorem accepts_other (hb : b ≤ 36) (h : digitBelow b c = false) :
    accepts b c = true ↔ Misread b c := by
  have hc := c.toNat_lt
  simp only [digitBelow, digitValue] at h
  simp only [accepts, digit, Misread, ch, Char.reduceToNat, char_eq]
  split_ifs at h ⊢ <;> simp at h ⊢ <;> omega

theorem accepts_of_digitBelow (hb : b ≤ 36) (h : digitBelow b c = true) : accepts b c = true := by
  rw [accepts, accepts_digit hb h]
  rfl

theorem takeWhile_accepts (hb : b ≤ 36) (t : List UInt8) :
    t.takeWhile (accepts b) = t.takeWhile (digitBelow b) ++
      (t.dropWhile (digitBelow b)).takeWhile (accepts b) := by
  induction t with
  | nil => rfl
  | cons c t ih =>
    by_cases h : digitBelow b c = true
    · rw [List.takeWhile_cons_of_pos (accepts_of_digitBelow hb h), List.takeWhile_cons_of_pos h,
        List.dropWhile_cons_of_pos h, ih, List.cons_append]
    · rw [List.takeWhile_cons_of_neg h, List.dropWhile_cons_of_neg h, List.nil_append]

theorem dropWhile_accepts (hb : b ≤ 36) (t : List UInt8) :
    t.dropWhile (accepts b) = (t.dropWhile (digitBelow b)).dropWhile (accepts b) := by
  induction t with
  | nil => rfl
  | cons c t ih =>
    by_cases h : digitBelow b c = true
    · rw [List.dropWhile_cons_of_pos (accepts_of_digitBelow hb h), List.dropWhile_cons_of_pos h, ih]
    · rw [List.dropWhile_cons_of_neg h]

theorem digitBelow_head {r : List UInt8} (h : t.dropWhile (digitBelow b) = c :: r) :
    digitBelow b c = false := by
  have hne : t.dropWhile (digitBelow b) ≠ [] := by rw [h]; exact List.cons_ne_nil _ _
  have := List.head_dropWhile_not (digitBelow b) hne
  simpa only [h, List.head_cons] using this

/-- `strtoul` stops after the digits of the base exactly if the next character is not misread. -/
theorem dropWhile_accepts_eq_iff (hb : b ≤ 36) :
    t.dropWhile (accepts b) = t.dropWhile (digitBelow b) ↔
      ∀ c, (t.dropWhile (digitBelow b)).head? = some c → ¬ Misread b c := by
  rw [dropWhile_accepts hb]
  rcases hcons : t.dropWhile (digitBelow b) with - | ⟨c, r⟩
  · exact iff_of_true rfl fun c hc => absurd hc (by simp)
  have hiff := accepts_other hb (digitBelow_head hcons)
  simp only [List.head?_cons, Option.some_inj, forall_eq']
  constructor
  · intro heq hm
    rw [List.dropWhile_cons_of_pos (hiff.2 hm)] at heq
    have hle := (List.dropWhile_suffix (p := accepts b) (l := r)).length_le
    rw [heq, List.length_cons] at hle
    omega
  · intro hm
    exact List.dropWhile_cons_of_neg (mt hiff.1 hm)

theorem readDigits_eq (hb : b ≤ 36)
    (h : ∀ c, (t.dropWhile (digitBelow b)).head? = some c → ¬ Misread b c) :
    readDigits b t = (t.takeWhile (digitBelow b)).map fun c =>
      (digitValue c).getD 0 + if Misread b c then 7 else 0 := by
  have htail : (t.dropWhile (digitBelow b)).takeWhile (accepts b) = [] := by
    rcases hcons : t.dropWhile (digitBelow b) with - | ⟨c, r⟩
    · rfl
    · refine List.takeWhile_cons_of_neg fun hacc => ?_
      exact h c (by rw [hcons]; rfl) ((accepts_other hb (digitBelow_head hcons)).1 hacc)
  rw [readDigits, takeWhile_accepts hb, htail, List.append_nil]
  refine List.map_congr_left fun c hc => ?_
  rw [accepts_digit hb (List.mem_takeWhile_imp hc), Option.getD_some]

theorem baseOf_le (hb : base = 0 ∨ 2 ≤ base ∧ base ≤ 36) : baseOf s base ≤ 36 := by
  unfold baseOf
  split_ifs <;> omega

theorem readValue_eq_iff (hb : base = 0 ∨ 2 ≤ base ∧ base ≤ 36)
    (h : ∀ c, (afterDigits s base).head? = some c → ¬ Misread (baseOf s base) c) :
    readValue s base = min (valueOf s base) ULONG_MAX ↔
      ULONG_MAX ≤ valueOf s base ∨ ∀ c ∈ digitsOf s base, ¬ Misread (baseOf s base) c := by
  rw [readValue, readDigits_eq (baseOf_le hb) h]
  change min (numeral (baseOf s base) ((digitsOf s base).map _)) _ = _ ↔ _
  by_cases hm : ∀ c ∈ digitsOf s base, ¬ Misread (baseOf s base) c
  · refine iff_of_true ?_ (.inr hm)
    have heq : ((digitsOf s base).map fun c =>
        (digitValue c).getD 0 + if Misread (baseOf s base) c then 7 else 0) =
        (digitsOf s base).map fun c => (digitValue c).getD 0 :=
      List.map_congr_left fun c hc => by rw [if_neg (hm c hc), Nat.add_zero]
    rw [heq, valueOf]
  · obtain ⟨c, hc, hread⟩ : ∃ c ∈ digitsOf s base, Misread (baseOf s base) c := by
      simpa only [not_forall, not_not, exists_prop] using hm
    have hlt : valueOf s base < numeral (baseOf s base) ((digitsOf s base).map fun c =>
        (digitValue c).getD 0 + if Misread (baseOf s base) c then 7 else 0) := by
      refine numeral_map_lt (baseOf_pos (by omega)) (fun _ _ => Nat.le_add_right _ _) ⟨c, hc, ?_⟩
      rw [if_pos hread]
      omega
    have hsome : ¬ ∀ c ∈ digitsOf s base, ¬ Misread (baseOf s base) c := fun hall =>
      hall c hc hread
    rw [or_iff_left hsome]
    omega

theorem valueOf_min : (if valueOf s base < 2 ^ 64 then valueOf s base else ULONG_MAX) =
    min (valueOf s base) ULONG_MAX := by
  rw [ULONG_MAX]
  split_ifs <;> omega

/-- `strtoul` reads the number of a string exactly if its digits and the character after them are
    not misread. -/
theorem strtoul_readsDigits_iff (s : List UInt8) (base : ℤ) (hs : 0 ∈ s)
    (hb : base = 0 ∨ 2 ≤ base ∧ base ≤ 36) : ReadsDigits s base ↔ ReadRight s base := by
  have hspec : strtoul s base = _ := strtoul_spec hs (by omega)
  have hend := dropWhile_accepts_eq_iff (t := afterPrefix s base) (baseOf_le (s := s) hb)
  constructor
  · rintro ⟨x, hx, hval⟩
    rw [hspec, Except.ok.injEq, Prod.mk.injEq] at hx
    have hnext := hend.1 hx.2
    refine ⟨hnext, ?_⟩
    cases hminus : minus s with
    | true => exact .inl rfl
    | false =>
      have hx1 := hx.1
      rw [hminus, if_neg Bool.false_ne_true, hval hminus, valueOf_min] at hx1
      exact .inr ((readValue_eq_iff hb hnext).1 hx1)
  · rintro ⟨hnext, hread⟩
    refine ⟨if minus s then neg (readValue s base) else readValue s base, ?_, ?_⟩
    · rw [hspec, hend.2 hnext]
      rfl
    · intro hminus
      rw [hminus] at hread
      rw [hminus, if_neg Bool.false_ne_true, valueOf_min]
      exact (readValue_eq_iff hb hnext).2 (hread.resolve_left Bool.false_ne_true)

/-- `strtoul("1f", NULL, 16)` -/
theorem strtoul_readsDigits_iff_1f : ReadsDigits [49, 102, 0] 16 ↔ ReadRight [49, 102, 0] 16 :=
  strtoul_readsDigits_iff [49, 102, 0] 16 (by decide) (by decide)

/-- `strtoul("1:", NULL, 16)` takes the colon for a digit. -/
theorem strtoul_reads_colon : ¬ ∀ s : List UInt8, ∀ base : ℤ, 0 ∈ s →
    base = 0 ∨ 2 ≤ base ∧ base ≤ 36 → ReadsDigits s base := by
  intro h
  obtain ⟨x, hx, -⟩ := h [49, 58, 0] 16 (by decide) (by decide)
  have hcode : strtoul [49, 58, 0] 16 = .ok (26, [0]) := by decide
  have hend : afterDigits [49, 58, 0] 16 = [58, 0] := by decide
  rw [hcode, hend, Except.ok.injEq, Prod.mk.injEq] at hx
  exact absurd hx.2 (by decide)

end CProj.Libc
