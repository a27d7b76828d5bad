/-
  The directives of a format, well-formed or not.

  A format is a text without a NUL, and the NUL behind it.  Each part of a directive is read up to
  a rest of the text and no further, also where the text ends in the middle of the directive
  (`readFlags_text` to `convert_text`), and takes the arguments that `argKinds` says.
-/
import CProj.Libc.Printf
import Mathlib.Tactic.Tauto

namespace CProj.Libc

/-! ## Flags -/

theorem has_or (f g flag : ℕ) : has (f ||| g) flag = (has f flag || has g flag) := by
  unfold has
  rw [Nat.and_or_distrib_right, Bool.eq_iff_iff]
  simp only [bne_iff_ne, ne_eq, Nat.or_eq_zero_iff, Bool.or_eq_true]
  tauto

/-- The flag of a flag character. -/
def flagOf (c : UInt8) : ℕ := 1 <<< flagChars.idxOf c

/-- The flag characters, one by one. -/
theorem flagChars_eq : flagChars = [35, 48, 45, 32, 43] := by decide

theorem forall_flagChars {p : UInt8 → Prop} :
    (∀ c ∈ flagChars, p c) ↔ p 35 ∧ p 48 ∧ p 45 ∧ p 32 ∧ p 43 := by
  simp [flagChars_eq]

theorem char_eq_iff {c d : UInt8} {k : Char} (hk : ch k = char d) : char c = ch k ↔ c = d := by
  rw [hk, char_inj]

/-! ## The arguments that a format takes -/

/-- What the text goes on with after the flags, the width, the precision and the length of a
    directive. -/
def afterFlags (t : List UInt8) : List UInt8 := t.dropWhile (flagChars.contains ·)

def isDigit (c : UInt8) : Bool := 48 ≤ c.toNat && c.toNat ≤ 57

def afterWidth (t : List UInt8) : List UInt8 :=
  if isDigit (t.headD 0) ∧ t.headD 0 ≠ 48 then t.dropWhile isDigit
  else if t.headD 0 = 42 then t.drop 1 else t

def afterPoint (t : List UInt8) : List UInt8 :=
  if isDigit (t.headD 0) then t.dropWhile isDigit
  else if t.headD 0 = 42 then t.drop 1 else t

def afterPrecision (t : List UInt8) : List UInt8 :=
  if t.headD 0 = 46 then afterPoint (t.drop 1) else t

def afterLength (t : List UInt8) : List UInt8 :=
  if t.headD 0 ∈ bytes "ltzh" then t.drop 1 else t

/-- The text at the conversion character of a directive. -/
def atConversion (t : List UInt8) : List UInt8 :=
  afterLength (afterPrecision (afterWidth (afterFlags t)))

/-- The kinds of arguments that `vprintf` tells apart. -/
inductive ArgKind where
  | word
  | string
  deriving DecidableEq, Repr

/-- An argument for a star. -/
def starKinds (t : List UInt8) : List ArgKind := if t.headD 0 = 42 then [.word] else []

def precisionKinds (t : List UInt8) : List ArgKind :=
  if t.headD 0 = 46 then starKinds (t.drop 1) else []

def conversionKinds (t : List UInt8) : List ArgKind :=
  if t.headD 0 ∈ bytes "diuxXpCc" then [.word] else if t.headD 0 = 115 then [.string] else []

def directiveKinds (t : List UInt8) : List ArgKind :=
  starKinds (afterFlags t) ++ (precisionKinds (afterWidth (afterFlags t)) ++
    conversionKinds (atConversion t))

/-! ## Every part is a rest of the text -/

variable {t text : List UInt8} {args : List Arg} {ks : List ArgKind}

theorem afterWidth_suffix (t : List UInt8) : afterWidth t <:+ t := by
  unfold afterWidth
  split_ifs
  · exact List.dropWhile_suffix _
  · exact List.drop_suffix 1 t
  · exact List.suffix_rfl

theorem afterPoint_suffix (t : List UInt8) : afterPoint t <:+ t := by
  unfold afterPoint
  split_ifs
  · exact List.dropWhile_suffix _
  · exact List.drop_suffix 1 t
  · exact List.suffix_rfl

theorem afterPrecision_suffix (t : List UInt8) : afterPrecision t <:+ t := by
  unfold afterPrecision
  split_ifs
  · exact (afterPoint_suffix _).trans (List.drop_suffix 1 t)
  · exact List.suffix_rfl

theorem afterLength_suffix (t : List UInt8) : afterLength t <:+ t := by
  unfold afterLength
  split_ifs
  · exact List.drop_suffix 1 t
  · exact List.suffix_rfl

theorem afterFlags_suffix (t : List UInt8) : afterFlags t <:+ t := List.dropWhile_suffix _

theorem atConversion_suffix (t : List UInt8) : atConversion t <:+ t :=
  (afterLength_suffix _).trans ((afterPrecision_suffix _).trans
    ((afterWidth_suffix _).trans (afterFlags_suffix t)))

/-- The arguments that a format takes. -/
def argKinds : List UInt8 → List ArgKind
  | [] => []
  | c :: t => if c = 37 then directiveKinds t ++ argKinds ((atConversion t).drop 1) else argKinds t
termination_by t => t.length
decreasing_by
  · have := (atConversion_suffix t).length_le
    rw [List.length_drop, List.length_cons]
    omega
  · exact Nat.lt_succ_self _

/-- The argument is of the kind; a string is NUL-terminated. -/
def Arg.Is (a : Arg) : ArgKind → Prop
  | .word => True
  | .string => 0 ∈ a.str

/-- The arguments are of the kinds, one after the other; there may be more of them. -/
def Matches : List ArgKind → List Arg → Prop
  | [], _ => True
  | _ :: _, [] => False
  | k :: ks, a :: args => a.Is k ∧ Matches ks args

theorem matches_cons {k : ArgKind} (h : Matches (k :: ks) args) :
    ∃ a args', args = a :: args' ∧ a.Is k ∧ Matches ks args' := by
  cases args with
  | nil => exact absurd h id
  | cons a args => exact ⟨a, args, rfl, h.1, h.2⟩

theorem Matches.left {ks' : List ArgKind} (h : Matches (ks' ++ ks) args) : Matches ks' args := by
  induction ks' generalizing args with
  | nil => trivial
  | cons k ks' ih =>
    obtain ⟨a, args', rfl, hk, hks⟩ := matches_cons h
    exact ⟨hk, ih hks⟩

theorem Matches.drop {ks' : List ArgKind} (h : Matches (ks' ++ ks) args) :
    Matches ks (args.drop ks'.length) := by
  induction ks' generalizing args with
  | nil => exact h
  | cons k ks' ih =>
    obtain ⟨a, args', rfl, -, hks⟩ := matches_cons h
    exact ih hks

/-! ## Reading the parts -/

section
variable {rest : List UInt8}

theorem deref_text (t rest : List UInt8) : deref (t ++ 0 :: rest) = .ok (char (t.headD 0)) := by
  cases t <;> rfl

theorem headD_text (t rest : List UInt8) : (t ++ 0 :: rest).headD 0 = t.headD 0 := by
  cases t <;> rfl

theorem drop_text (h : t.headD 0 ≠ 0) (rest : List UInt8) :
    (t ++ 0 :: rest).drop 1 = t.drop 1 ++ 0 :: rest := by
  cases t with
  | nil => exact absurd rfl h
  | cons c t => rfl

theorem readFlags_text (h0 : 0 ∉ t) (flags : ℕ) (rest : List UInt8) :
    readFlags (t ++ 0 :: rest) flags =
      .ok ((t.takeWhile (flagChars.contains ·)).foldl (fun f c => f ||| flagOf c) flags,
        afterFlags t ++ 0 :: rest) := by
  induction t generalizing flags with
  | nil => rfl
  | cons c t ih =>
    have hc : c ≠ 0 := fun h => h0 (h ▸ List.mem_cons_self)
    rw [List.cons_append, readFlags, if_neg hc]
    by_cases hmem : c ∈ flagChars
    · have hidx : ∀ c ∈ flagChars, flagChars.idxOf? c = some (flagChars.idxOf c) :=
        forall_flagChars.2 (by decide)
      have hcontains : flagChars.contains c = true := List.contains_iff_mem.2 hmem
      rw [hidx c hmem, afterFlags, List.dropWhile_cons_of_pos hcontains,
        List.takeWhile_cons_of_pos hcontains]
      exact ih (fun h => h0 (List.mem_cons_of_mem _ h)) _
    · have hnot : ¬ flagChars.contains c = true := mt List.contains_iff_mem.1 hmem
      rw [List.idxOf?_eq_none_iff.2 hmem, afterFlags, List.dropWhile_cons_of_neg hnot,
        List.takeWhile_cons_of_neg hnot]
      rfl

theorem isDigit_char {c : UInt8} : (char c ≥ ch '0' ∧ char c ≤ ch '9') ↔ isDigit c = true := by
  have hc := c.toNat_lt
  have h0 : ch '0' = 48 := rfl
  have h9 : ch '9' = 57 := rfl
  rw [h0, h9, char_eq, isDigit, Bool.and_eq_true, decide_eq_true_eq, decide_eq_true_eq]
  split_ifs <;> omega

theorem readInt_text (t : List UInt8) (n : ℤ) : ∃ m, ∀ rest,
    readInt (t ++ 0 :: rest) n = .ok (m, t.dropWhile isDigit ++ 0 :: rest) := by
  induction t generalizing n with
  | nil => exact ⟨n, fun rest => rfl⟩
  | cons c t ih =>
    by_cases hc : isDigit c = true
    · obtain ⟨m, h⟩ := ih (toInt (10 * n + char c - ch '0'))
      refine ⟨m, fun rest => ?_⟩
      rw [List.dropWhile_cons_of_pos hc, List.cons_append, readInt, if_pos (isDigit_char.2 hc)]
      exact h rest
    · refine ⟨n, fun rest => ?_⟩
      rw [List.dropWhile_cons_of_neg hc, List.cons_append, readInt, if_neg (mt isDigit_char.1 hc)]

/-- A number that starts with a digit for which `P` holds, or a star, or nothing. -/
theorem readNumber_text {P Q : Prop} [Decidable P] [Decidable Q] (hPQ : P ↔ Q)
    (hQ : Q → t.headD 0 ≠ 42) (h : Matches (starKinds t) args) :
    ∃ w, ∀ rest,
      (if P then readInt (t ++ 0 :: rest) 0 >>= fun r => Except.ok (r.1, r.2, args)
        else if char (t.headD 0) = ch '*' then
          vaArg args >>= fun r => Except.ok (r.1.int, (t ++ 0 :: rest).drop 1, r.2)
        else Except.ok (-1, t ++ 0 :: rest, args)) =
      .ok (w, (if Q then t.dropWhile isDigit else if t.headD 0 = 42 then t.drop 1 else t) ++
        0 :: rest, args.drop (starKinds t).length) := by
  have hstar : char (t.headD 0) = ch '*' ↔ t.headD 0 = 42 := char_eq_iff rfl
  simp only [hPQ, hstar]
  by_cases hd : Q
  · obtain ⟨w, hw⟩ := readInt_text t 0
    refine ⟨w, fun rest => ?_⟩
    rw [if_pos hd, hw, if_pos hd, starKinds, if_neg (hQ hd)]
    rfl
  by_cases hs : t.headD 0 = 42
  · rw [starKinds, if_pos hs] at h ⊢
    obtain ⟨a, args', rfl, -⟩ := matches_cons h
    refine ⟨a.int, fun rest => ?_⟩
    rw [if_neg hd, if_pos hs, if_neg hd, if_pos hs, drop_text (by rw [hs]; decide)]
    rfl
  · refine ⟨-1, fun rest => ?_⟩
    rw [if_neg hd, if_neg hs, if_neg hd, if_neg hs, starKinds, if_neg hs]
    rfl

theorem readWidth_text (h : Matches (starKinds t) args) : ∃ w, ∀ rest,
    readWidth (t ++ 0 :: rest) args =
      .ok (w, afterWidth t ++ 0 :: rest, args.drop (starKinds t).length) := by
  have hdigit : (char (t.headD 0) ≥ ch '1' ∧ char (t.headD 0) ≤ ch '9') ↔
      isDigit (t.headD 0) = true ∧ t.headD 0 ≠ 48 := by
    have h1 : ch '1' = 49 := rfl
    have h9 : ch '9' = 57 := rfl
    have hc := (t.headD 0).toNat_lt
    have h48 : t.headD 0 = 48 ↔ (t.headD 0).toNat = 48 := UInt8.toNat_inj.symm
    rw [h1, h9, char_eq, ne_eq, h48, isDigit, Bool.and_eq_true, decide_eq_true_eq,
      decide_eq_true_eq]
    split_ifs <;> omega
  have hne : isDigit (t.headD 0) = true ∧ t.headD 0 ≠ 48 → t.headD 0 ≠ 42 := by
    rintro ⟨hd, -⟩ h42
    rw [h42] at hd
    exact absurd hd (by decide)
  obtain ⟨w, hread⟩ := readNumber_text hdigit hne h
  refine ⟨w, fun rest => ?_⟩
  rw [readWidth, deref_text, ok_bind]
  exact hread rest

theorem readPoint_text (h : Matches (starKinds t) args) : ∃ w, ∀ rest,
    readPoint (t ++ 0 :: rest) args =
      .ok (w, afterPoint t ++ 0 :: rest, args.drop (starKinds t).length) := by
  have hne : isDigit (t.headD 0) = true → t.headD 0 ≠ 42 := by
    intro hd h42
    rw [h42] at hd
    exact absurd hd (by decide)
  obtain ⟨w, hread⟩ := readNumber_text isDigit_char hne h
  refine ⟨w, fun rest => ?_⟩
  rw [readPoint, deref_text, ok_bind]
  exact hread rest

theorem readPrecision_text (h : Matches (precisionKinds t) args) : ∃ w, ∀ rest,
    readPrecision (t ++ 0 :: rest) args =
      .ok (w, afterPrecision t ++ 0 :: rest, args.drop (precisionKinds t).length) := by
  have hpoint : char (t.headD 0) = ch '.' ↔ t.headD 0 = 46 := char_eq_iff rfl
  by_cases hp : t.headD 0 = 46
  · rw [precisionKinds, if_pos hp] at h ⊢
    obtain ⟨w, hread⟩ := readPoint_text h
    refine ⟨if w < 0 then 0 else w, fun rest => ?_⟩
    rw [readPrecision, deref_text, ok_bind, if_pos (hpoint.2 hp), drop_text (by rw [hp]; decide),
      hread, afterPrecision, if_pos hp]
    rfl
  · refine ⟨-1, fun rest => ?_⟩
    rw [readPrecision, deref_text, ok_bind, if_neg (mt hpoint.1 hp), afterPrecision, if_neg hp,
      precisionKinds, if_neg hp]
    rfl

theorem readLength_text (t : List UInt8) : ∃ b, ∀ rest,
    readLength (t ++ 0 :: rest) = .ok (b, afterLength t ++ 0 :: rest) := by
  have hl : char (t.headD 0) = ch 'l' ↔ t.headD 0 = 108 := char_eq_iff rfl
  have ht : char (t.headD 0) = ch 't' ↔ t.headD 0 = 116 := char_eq_iff rfl
  have hz : char (t.headD 0) = ch 'z' ↔ t.headD 0 = 122 := char_eq_iff rfl
  have hh : char (t.headD 0) = ch 'h' ↔ t.headD 0 = 104 := char_eq_iff rfl
  have hbytes : bytes "ltzh" = [108, 116, 122, 104] := by decide
  simp only [readLength, deref_text, ok_bind, hl, ht, hz, hh, afterLength, hbytes, List.mem_cons,
    List.not_mem_nil, or_false]
  by_cases hlong : t.headD 0 = 108 ∨ t.headD 0 = 116 ∨ t.headD 0 = 122
  · have hne : t.headD 0 ≠ 0 := by
      rcases hlong with h | h | h <;> rw [h] <;> decide
    refine ⟨true, fun rest => ?_⟩
    rw [if_pos hlong, if_pos (by tauto), drop_text hne]
    rfl
  by_cases hshort : t.headD 0 = 104
  · refine ⟨false, fun rest => ?_⟩
    rw [if_neg hlong, if_pos hshort, if_pos (by tauto), drop_text (by rw [hshort]; decide)]
    rfl
  · refine ⟨false, fun rest => ?_⟩
    rw [if_neg hlong, if_neg hshort, if_neg (by tauto)]
    rfl

/-! ## The conversions -/

/-- What a conversion prints: a number, or a text that does not depend on `numbuf`. -/
def Yields (length : Bool) (flags : ℕ) (t : List UInt8) (args args' : List Arg) : Prop :=
  (∃ k, ∀ rest numbuf, convert (t ++ 0 :: rest) length flags args numbuf =
    .ok (.color k, args', numbuf)) ∨
  (∃ flags' base num, has flags' FLAG_NUMERIC = true ∧ 10 ≤ base.natAbs ∧ base.natAbs ≤ 16 ∧
    num < 2 ^ 64 ∧ ∀ rest numbuf, convert (t ++ 0 :: rest) length flags args numbuf =
      .ok (.number flags' base num, args', numbuf)) ∨
  ∃ text, 0 ∉ text ∧ ∀ rest numbuf, numbuf.length = NUMBUFSIZ → ∃ junk numbuf',
    numbuf'.length = NUMBUFSIZ ∧ convert (t ++ 0 :: rest) length flags args numbuf =
      .ok (.text (text ++ 0 :: junk), args', numbuf')

theorem putChar_text (c : UInt8) : ∃ text, 0 ∉ text ∧ ∀ numbuf : List UInt8,
    numbuf.length = NUMBUFSIZ → ∃ junk, putChar numbuf c = .ok (text ++ 0 :: junk) ∧
      (text ++ 0 :: junk).length = NUMBUFSIZ := by
  have hput : ∀ numbuf : List UInt8, numbuf.length = NUMBUFSIZ →
      putChar numbuf c = .ok (c :: 0 :: numbuf.drop 2) ∧
        (c :: 0 :: numbuf.drop 2).length = NUMBUFSIZ := by
    rintro (- | ⟨a, - | ⟨b, numbuf⟩⟩) hlen
    · cases hlen
    · cases hlen
    · exact ⟨rfl, hlen⟩
  by_cases hc : c = 0
  · refine ⟨[], List.not_mem_nil, fun numbuf hlen => ⟨0 :: numbuf.drop 2, ?_⟩⟩
    subst hc
    exact hput numbuf hlen
  · refine ⟨[c], ?_, fun numbuf hlen => ⟨numbuf.drop 2, hput numbuf hlen⟩⟩
    rw [List.mem_singleton]
    exact Ne.symm hc

theorem has_numeric (flags g : ℕ) (hg : has g FLAG_NUMERIC = true) :
    has (flags ||| g) FLAG_NUMERIC = true := by
  rw [has_or, hg, Bool.or_true]

theorem convertSigned_number (length : Bool) (flags : ℕ) (a : Arg) (args : List Arg) :
    ∃ flags' num, has flags' FLAG_NUMERIC = true ∧ num < 2 ^ 64 ∧
      convertSigned length flags (a :: args) = .ok (.number flags' 10 num, args) := by
  refine ⟨_, _, ?_, ?_, rfl⟩
  · refine has_numeric _ _ ?_
    rw [has_or]
    rfl
  · omega

theorem convertUnsigned_number (base : ℤ) (length : Bool) (flags : ℕ) (a : Arg) (args : List Arg) :
    ∃ flags' num, has flags' FLAG_NUMERIC = true ∧ num < 2 ^ 64 ∧
      convertUnsigned base length flags (a :: args) = .ok (.number flags' base num, args) := by
  refine ⟨_, _, has_numeric _ _ rfl, ?_, rfl⟩
  have := a.word.isLt
  split_ifs <;> omega

theorem convert_text (length : Bool) (flags : ℕ) (h : Matches (conversionKinds t ++ ks) args) :
    ∃ args', Matches ks args' ∧ Yields length flags t args args' := by
  have hbytes : bytes "diuxXpCc" = [100, 105, 117, 120, 88, 112, 67, 99] := by decide
  have hword : t.headD 0 ∈ bytes "diuxXpCc" → ∃ a args', args = a :: args' ∧ Matches ks args' := by
    intro hmem
    rw [conversionKinds, if_pos hmem] at h
    obtain ⟨a, args', rfl, -, hks⟩ := matches_cons h
    exact ⟨a, args', rfl, hks⟩
  have hd : char (t.headD 0) = ch 'd' ↔ t.headD 0 = 100 := char_eq_iff rfl
  have hi : char (t.headD 0) = ch 'i' ↔ t.headD 0 = 105 := char_eq_iff rfl
  have hu : char (t.headD 0) = ch 'u' ↔ t.headD 0 = 117 := char_eq_iff rfl
  have hx : char (t.headD 0) = ch 'x' ↔ t.headD 0 = 120 := char_eq_iff rfl
  have hX : char (t.headD 0) = ch 'X' ↔ t.headD 0 = 88 := char_eq_iff rfl
  have hp : char (t.headD 0) = ch 'p' ↔ t.headD 0 = 112 := char_eq_iff rfl
  have hs : char (t.headD 0) = ch 's' ↔ t.headD 0 = 115 := char_eq_iff rfl
  have hC : char (t.headD 0) = ch 'C' ↔ t.headD 0 = 67 := char_eq_iff rfl
  have hc : char (t.headD 0) = ch 'c' ↔ t.headD 0 = 99 := char_eq_iff rfl
  unfold Yields
  simp only [convert, deref_text, ok_bind, hd, hi, hu, hx, hX, hp, hs, hC, hc, headD_text]
  clear hd hi hu hx hX hp hs hC hc
  by_cases h1 : t.headD 0 = 100 ∨ t.headD 0 = 105
  · have hmem : t.headD 0 ∈ bytes "diuxXpCc" := by
      rcases h1 with h1 | h1 <;> rw [hbytes, h1] <;> decide
    obtain ⟨a, args', rfl, hks⟩ := hword hmem
    obtain ⟨flags', num, hnum, hlt, hconv⟩ := convertSigned_number length flags a args'
    refine ⟨args', hks, .inr (.inl ⟨flags', 10, num, hnum, by decide, by decide, hlt, ?_⟩)⟩
    intro rest numbuf
    rw [if_pos h1, hconv]
    rfl
  by_cases h2 : t.headD 0 = 117
  · obtain ⟨a, args', rfl, hks⟩ := hword (by rw [hbytes, h2]; decide)
    obtain ⟨flags', num, hnum, hlt, hconv⟩ := convertUnsigned_number 10 length flags a args'
    refine ⟨args', hks, .inr (.inl ⟨flags', 10, num, hnum, by decide, by decide, hlt, ?_⟩)⟩
    intro rest numbuf
    rw [if_neg h1, if_pos h2, hconv]
    rfl
  by_cases h3 : t.headD 0 = 120
  · obtain ⟨a, args', rfl, hks⟩ := hword (by rw [hbytes, h3]; decide)
    obtain ⟨flags', num, hnum, hlt, hconv⟩ := convertUnsigned_number (-16) length flags a args'
    refine ⟨args', hks, .inr (.inl ⟨flags', -16, num, hnum, by decide, by decide, hlt, ?_⟩)⟩
    intro rest numbuf
    rw [if_neg h1, if_neg h2, if_pos h3, hconv]
    rfl
  by_cases h4 : t.headD 0 = 88
  · obtain ⟨a, args', rfl, hks⟩ := hword (by rw [hbytes, h4]; decide)
    obtain ⟨flags', num, hnum, hlt, hconv⟩ := convertUnsigned_number 16 length flags a args'
    refine ⟨args', hks, .inr (.inl ⟨flags', 16, num, hnum, by decide, by decide, hlt, ?_⟩)⟩
    intro rest numbuf
    rw [if_neg h1, if_neg h2, if_neg h3, if_pos h4, hconv]
    rfl
  by_cases h5 : t.headD 0 = 112
  · obtain ⟨a, args', rfl, hks⟩ := hword (by rw [hbytes, h5]; decide)
    refine ⟨args', hks, .inr (.inl ⟨flags ||| (FLAG_ALT ||| FLAG_ALT2 ||| FLAG_NUMERIC), -16,
      a.word.toNat, has_numeric flags _ (by decide), by decide, by decide, a.word.isLt, ?_⟩)⟩
    intro rest numbuf
    rw [if_neg h1, if_neg h2, if_neg h3, if_neg h4, if_pos h5]
    rfl
  by_cases h6 : t.headD 0 = 115
  · rw [conversionKinds, if_neg (by rw [h6, hbytes]; decide), if_pos h6] at h
    obtain ⟨a, args', rfl, hstr, hks⟩ := matches_cons h
    obtain ⟨text, junk, hsplit, h0⟩ := List.eq_append_cons_of_mem hstr
    refine ⟨args', hks, .inr (.inr ⟨text, h0, fun rest numbuf hlen => ⟨junk, numbuf, hlen, ?_⟩⟩)⟩
    rw [if_neg h1, if_neg h2, if_neg h3, if_neg h4, if_neg h5, if_pos h6, ← hsplit]
    rfl
  by_cases h7 : t.headD 0 = 67
  · obtain ⟨a, args', rfl, hks⟩ := hword (by rw [hbytes, h7]; decide)
    refine ⟨args', hks, .inl ⟨a.int, fun rest numbuf => ?_⟩⟩
    rw [if_neg h1, if_neg h2, if_neg h3, if_neg h4, if_neg h5, if_neg h6, if_pos h7]
    rfl
  by_cases h8 : t.headD 0 = 99
  · obtain ⟨a, args', rfl, hks⟩ := hword (by rw [hbytes, h8]; decide)
    obtain ⟨text, h0, hput⟩ := putChar_text (UInt8.ofNat (a.word.toNat % 256))
    refine ⟨args', hks, .inr (.inr ⟨text, h0, fun rest numbuf hlen => ?_⟩)⟩
    obtain ⟨junk, hjunk, hlen'⟩ := hput numbuf hlen
    refine ⟨junk, _, hlen', ?_⟩
    rw [if_neg h1, if_neg h2, if_neg h3, if_neg h4, if_neg h5, if_neg h6, if_neg h7, if_pos h8]
    change putChar numbuf _ >>= _ = _
    rw [hjunk]
    rfl
  · obtain ⟨text, h0, hput⟩ := putChar_text (if char (t.headD 0) = 0 then 37 else t.headD 0)
    have hnone : conversionKinds t = [] := by
      rw [conversionKinds, if_neg, if_neg h6]
      rw [hbytes]
      simp only [List.mem_cons, List.not_mem_nil, or_false]
      tauto
    rw [hnone, List.nil_append] at h
    refine ⟨args, h, .inr (.inr ⟨text, h0, fun rest numbuf hlen => ?_⟩)⟩
    obtain ⟨junk, hjunk, hlen'⟩ := hput numbuf hlen
    refine ⟨junk, _, hlen', ?_⟩
    rw [if_neg h1, if_neg h2, if_neg h3, if_neg h4, if_neg h5, if_neg h6, if_neg h7, if_neg h8,
      hjunk]
    rfl

/-! ## A directive -/

/-- A directive, when its flags, width, precision and length are read. -/
theorem directive_convert {σ : Type} (putc : σ → UInt8 → ℤ → σ) {rest : List UInt8} {flags : ℕ}
    {width precision : ℤ} {length : Bool} {args₁ args₂ : List Arg} (h0 : 0 ∉ t)
    (hflags : readFlags (t ++ 0 :: rest) 0 = .ok (flags, afterFlags t ++ 0 :: rest))
    (hwidth : readWidth (afterFlags t ++ 0 :: rest) args =
      .ok (width, afterWidth (afterFlags t) ++ 0 :: rest, args₁))
    (hprecision : readPrecision (afterWidth (afterFlags t) ++ 0 :: rest) args₁ =
      .ok (precision, afterPrecision (afterWidth (afterFlags t)) ++ 0 :: rest, args₂))
    (hlength : readLength (afterPrecision (afterWidth (afterFlags t)) ++ 0 :: rest) =
      .ok (length, atConversion t ++ 0 :: rest)) (color : ℤ) (numbuf : List UInt8) (p : σ) :
    directive putc ⟨t ++ 0 :: rest, args, color, numbuf, p⟩ =
      convert (atConversion t ++ 0 :: rest) length flags args₂ numbuf >>= fun r =>
        match r.1 with
        | .color k => .ok ⟨(atConversion t).drop 1 ++ 0 :: rest, r.2.1, k, r.2.2, p⟩
        | .number flags base num => fillNumbuf r.2.2 num base >>= fun b =>
          printField putc color flags width precision (numberPrefix flags base num)
            (b.1.drop b.2) p >>= fun p =>
          .ok ⟨(atConversion t).drop 1 ++ 0 :: rest, r.2.1, color, b.1, p⟩
        | .text data => printField putc color flags width precision [] data p >>= fun p =>
          .ok ⟨(atConversion t).drop 1 ++ 0 :: rest, r.2.1, color, r.2.2, p⟩ := by
  have hmem : 0 ∉ atConversion t := fun hmem => h0 ((atConversion_suffix t).subset hmem)
  have hnext : (if (atConversion t ++ 0 :: rest).headD 0 = 0
      then atConversion t ++ 0 :: rest else (atConversion t ++ 0 :: rest).drop 1) =
        (atConversion t).drop 1 ++ 0 :: rest := by
    rcases hcons : atConversion t with - | ⟨c, r⟩
    · rfl
    · have hc : c ≠ 0 := fun hc => hmem (by rw [hcons, hc]; exact List.mem_cons_self)
      exact if_neg hc
  rw [directive, hflags, ok_bind]
  dsimp only
  rw [hwidth, ok_bind]
  dsimp only
  rw [hprecision, ok_bind]
  dsimp only
  rw [hlength, ok_bind]
  dsimp only
  congr 1
  funext r
  rcases r with ⟨k | ⟨flags', base, num⟩ | data, args', numbuf'⟩
  · dsimp only
    rw [hnext]
    rfl
  · dsimp only
    rw [hnext]
    rfl
  · dsimp only
    rw [hnext]
    rfl

end

end CProj.Libc
