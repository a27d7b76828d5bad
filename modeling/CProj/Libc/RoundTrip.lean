/-
  Numbers printed by `snprintf` and read back by `strtol` and `strtoul`.

  Whatever the flags, the width and the precision of a directive, the parsers skip the blanks, the
  sign and the prefix that it prints, and read its zeros and digits (`readDigits_text`).
-/
import CProj.Libc.Numbers

namespace CProj.Libc

variable {s t r : List UInt8} {c e : UInt8} {b : ℕ} {base : ℤ} {ds : List ℕ}

/-! ## Skipping to the digits -/

theorem afterSpace_text {sp : List UInt8} (hsp : ∀ c ∈ sp, isSpaceByte c = true)
    (hc : isSpaceByte c = false) : afterSpace (sp ++ c :: r) = c :: r := by
  induction sp with
  | nil => exact List.dropWhile_cons_of_neg (by rw [hc]; exact Bool.false_ne_true)
  | cons d sp ih =>
    rw [List.cons_append, afterSpace, List.dropWhile_cons_of_pos (hsp d List.mem_cons_self)]
    exact ih fun c hc => hsp c (List.mem_cons_of_mem _ hc)

theorem minus_eq_false (h : afterSpace s = c :: r) (hc : c ≠ 45) : minus s = false := by
  rw [minus, h, List.head?_cons]
  simpa using hc

theorem afterSign_plus (h : afterSpace s = 43 :: t) : afterSign s = t := by
  rw [afterSign, h, if_pos (by simp)]
  rfl

theorem afterSign_none (h : afterSpace s = c :: r) (hminus : c ≠ 45) (hplus : c ≠ 43) :
    afterSign s = c :: r := by
  have hne : (some c == some 43) = false := by simpa using hplus
  rw [afterSign, minus_eq_false h hminus, h, List.head?_cons, hne, if_neg (by simp)]

/-! ## Reading the digits -/

/-- The characters of the digits `ds`, in the digits that `fill_numbuf` uses for the base `k`. -/
def chars (k : ℤ) (ds : List ℕ) : List UInt8 := ds.map fun d => (digitsFor k).getD d 0

theorem digitsFor_digit {k : ℤ} : ∀ i < 16, digitValue ((digitsFor k).getD i 0) = some i ∧
    ¬ Misread 16 ((digitsFor k).getD i 0) ∧ isSpaceByte ((digitsFor k).getD i 0) = false ∧
    (digitsFor k).getD i 0 ∉ ([43, 45, 88, 120] : List UInt8) := by
  unfold digitsFor
  split_ifs
  · decide
  · decide

theorem digit_chars {k : ℤ} {i : ℕ} (hb : b ≤ 16) (hi : i < b) :
    digit b (char ((digitsFor k).getD i 0)) = some i := by
  obtain ⟨hval, hread, -⟩ := digitsFor_digit (k := k) i (by omega)
  have hbelow : digitBelow b ((digitsFor k).getD i 0) = true := by
    rw [digitBelow, hval]
    simpa using hi
  have hread' : ¬ Misread b ((digitsFor k).getD i 0) := fun h => hread ⟨h.1, by have := h.2; omega⟩
  rw [accepts_digit (by omega) hbelow, hval, if_neg hread']
  rfl

theorem not_accepts_end (hb : b ≤ 16) (he : e = 32 ∨ e = 0) : ¬ accepts b e = true := by
  have hvalue : digitBelow b e = false := by
    rcases he with rfl | rfl
    · rfl
    · rfl
  rw [accepts_other (by omega) hvalue]
  rintro ⟨h, -⟩
  rcases he with rfl | rfl
  · exact absurd h (by decide)
  · exact absurd h (by decide)

theorem readDigits_text {k : ℤ} (hb : b ≤ 16) (hds : ∀ i ∈ ds, i < b) (he : e = 32 ∨ e = 0) :
    readDigits b (chars k ds ++ e :: r) = ds ∧
      (chars k ds ++ e :: r).dropWhile (accepts b) = e :: r := by
  induction ds with
  | nil =>
    have hend := not_accepts_end hb he
    refine ⟨?_, List.dropWhile_cons_of_neg hend⟩
    change ((e :: r).takeWhile (accepts b)).map _ = []
    rw [List.takeWhile_cons_of_neg hend]
    rfl
  | cons i ds ih =>
    have hdigit := digit_chars (k := k) hb (hds i List.mem_cons_self)
    have hacc : accepts b ((digitsFor k).getD i 0) = true := by
      rw [accepts, hdigit]
      rfl
    obtain ⟨hread, hdrop⟩ := ih fun j hj => hds j (List.mem_cons_of_mem _ hj)
    rw [chars, List.map_cons, List.cons_append, List.dropWhile_cons_of_pos hacc]
    refine ⟨?_, hdrop⟩
    rw [readDigits, List.takeWhile_cons_of_pos hacc, List.map_cons, hdigit]
    exact congrArg (i :: ·) hread

/-- `strtoul` returns the value of the digits it finds behind the prefix. -/
theorem strtoul_text {k : ℤ} (hs : 0 ∈ s) (hbase : base = 0 ∨ 0 < base) (hminus : minus s = false)
    (hb : baseOf s base = b) (hb16 : b ≤ 16) (hpre : afterPrefix s base = chars k ds ++ e :: r)
    (hds : ∀ i ∈ ds, i < b) (he : e = 32 ∨ e = 0) (hfit : numeral b ds < 2 ^ 64) :
    strtoul s base = .ok (numeral b ds, e :: r) := by
  obtain ⟨hread, hdrop⟩ := readDigits_text (k := k) (r := r) hb16 hds he
  have hmin : min (numeral b ds) ULONG_MAX = numeral b ds := by
    rw [ULONG_MAX]
    omega
  rw [strtoul_spec hs hbase, hminus, if_neg Bool.false_ne_true, readValue, hb, hpre, hread, hdrop,
    hmin]

theorem startsHex_chars {k : ℤ} (hds : ∀ i ∈ ds, i < 16) (hne : ds ≠ []) (he : e = 32 ∨ e = 0) :
    startsHex (chars k ds ++ e :: r) = false := by
  obtain ⟨c, hsecond, hc⟩ : ∃ c, ((chars k ds ++ e :: r).drop 1).head? = some c ∧
      c ∉ ([88, 120] : List UInt8) := by
    rcases ds with - | ⟨i, - | ⟨j, ds⟩⟩
    · exact absurd rfl hne
    · exact ⟨e, rfl, by rcases he with rfl | rfl <;> decide⟩
    · refine ⟨(digitsFor k).getD j 0, rfl, fun hmem => ?_⟩
      obtain ⟨-, -, -, hnot⟩ := digitsFor_digit (k := k) j
        (hds j (List.mem_cons_of_mem _ List.mem_cons_self))
      exact hnot (List.mem_cons_of_mem _ (List.mem_cons_of_mem _ hmem))
  have hx : (some c == some 120) = false := by
    simp only [beq_eq_false_iff_ne, ne_eq, Option.some_inj]
    rintro rfl
    exact hc (by decide)
  have hX : (some c == some 88) = false := by
    simp only [beq_eq_false_iff_ne, ne_eq, Option.some_inj]
    rintro rfl
    exact hc (by decide)
  rw [startsHex, hsecond, hx, hX, Bool.or_self, Bool.and_false]

/-! ## Reading a field -/

variable {left zeros right val : ℕ} {k : ℤ} {after : List UInt8}

/-- The digits of a field. -/
def fieldDigits (zeros b val : ℕ) : List ℕ := List.replicate zeros 0 ++ digitList b val

theorem fieldDigits_lt (zeros val : ℕ) (hb : 1 < b) : ∀ i ∈ fieldDigits zeros b val, i < b := by
  intro i hi
  rcases List.mem_append.1 hi with hi | hi
  · rw [List.eq_of_mem_replicate hi]
    omega
  · exact digitList_lt hb i hi

theorem fieldDigits_ne_nil : fieldDigits zeros b val ≠ [] := by
  have hlist : digitList b val ≠ [] := by
    unfold digitList
    split_ifs with h0
    · exact List.cons_ne_nil _ _
    · exact mt List.reverse_eq_nil_iff.1 (Nat.digits_ne_nil_iff_ne_zero.2 h0)
  exact fun h => hlist (List.append_eq_nil_iff.1 h).2

theorem numeral_fieldDigits (zeros b val : ℕ) : numeral b (fieldDigits zeros b val) = val :=
  (numeral_zeros _ _).trans numeral_digitList

theorem chars_fieldDigits : chars k (fieldDigits zeros b val) =
    List.replicate zeros 48 ++ digitText (digitsFor k) b val := by
  have h0 : (digitsFor k).getD 0 0 = 48 := by
    unfold digitsFor
    split_ifs <;> rfl
  rw [chars, fieldDigits, List.map_append, List.map_replicate, h0]
  rfl

/-- After the digits of a field comes a blank or the end of the string. -/
theorem exists_field_end (right : ℕ) (after : List UInt8) : ∃ e r, (e = 32 ∨ e = 0) ∧
    List.replicate right 32 ++ 0 :: after = e :: r := by
  rcases right with - | right
  · exact ⟨0, after, .inr rfl, rfl⟩
  · exact ⟨32, List.replicate right 32 ++ 0 :: after, .inl rfl, rfl⟩

theorem field_eq (left : ℕ) (pre : List UInt8) (zeros b val : ℕ) (k : ℤ)
    (h : List.replicate right 32 ++ 0 :: after = e :: r) :
    field left pre zeros (digitText (digitsFor k) b val) right ++ 0 :: after =
      List.replicate left 32 ++ (pre ++ (chars k (fieldDigits zeros b val) ++ e :: r)) := by
  rw [← h, chars_fieldDigits, field]
  simp only [List.append_assoc]

theorem zero_mem_field (text : List UInt8) : 0 ∈ text ++ 0 :: after :=
  List.mem_append_right _ List.mem_cons_self

/-- The first digit is neither a blank nor a sign. -/
theorem exists_first_digit (hds : ∀ i ∈ ds, i < 16) (hne : ds ≠ []) : ∃ c t,
    chars k ds ++ e :: r = c :: t ∧ isSpaceByte c = false ∧ c ≠ 45 ∧ c ≠ 43 := by
  rcases ds with - | ⟨i, ds⟩
  · exact absurd rfl hne
  obtain ⟨-, -, hspace, hnot⟩ := digitsFor_digit (k := k) i (hds i List.mem_cons_self)
  refine ⟨(digitsFor k).getD i 0, chars k ds ++ e :: r, rfl, hspace, ?_, ?_⟩
  · rintro h
    exact hnot (by rw [h]; decide)
  · rintro h
    exact hnot (by rw [h]; decide)

theorem blanks_space {n : ℕ} : ∀ c ∈ List.replicate n (32 : UInt8), isSpaceByte c = true := by
  intro c hc
  rw [List.eq_of_mem_replicate hc]
  rfl

/-- Blanks and at most a plus sign before digits are skipped. -/
theorem skipped {pre : List UInt8} (hpre : pre = [] ∨ pre = [32] ∨ pre = [43])
    (hds : ∀ i ∈ ds, i < 16) (hne : ds ≠ [])
    (hs : s = List.replicate left 32 ++ (pre ++ (chars k ds ++ e :: r))) :
    minus s = false ∧ afterSign s = chars k ds ++ e :: r ∧
      afterSpace s = (if pre = [43] then [43] else []) ++ (chars k ds ++ e :: r) := by
  obtain ⟨c, t, hcons, hspace, hminus, hplus⟩ := exists_first_digit (k := k) (e := e) (r := r)
    hds hne
  rw [hcons] at hs ⊢
  rcases hpre with rfl | rfl | rfl
  · have h : afterSpace s = c :: t := hs ▸ afterSpace_text blanks_space hspace
    exact ⟨minus_eq_false h hminus, afterSign_none h hminus hplus, h⟩
  · have hblanks : s = List.replicate (left + 1) 32 ++ c :: t := by
      rw [hs, List.replicate_succ', List.append_assoc]
    have h : afterSpace s = c :: t := hblanks ▸ afterSpace_text blanks_space hspace
    exact ⟨minus_eq_false h hminus, afterSign_none h hminus hplus, h⟩
  · have h : afterSpace s = 43 :: c :: t := hs ▸ afterSpace_text blanks_space rfl
    exact ⟨minus_eq_false h (by decide), afterSign_plus h, h⟩

/-- Reading a field in the base in which it was printed. -/
theorem strtoul_field (left zeros right : ℕ) (k : ℤ) (after : List UInt8) {pre : List UInt8}
    (hpre : pre = [] ∨ pre = [32] ∨ pre = [43])
    (hb : b = 10 ∨ b = 16) (hval : val < 2 ^ 64) : ∃ e,
      strtoul (field left pre zeros (digitText (digitsFor k) b val) right ++ 0 :: after) b =
        .ok (val, e) := by
  obtain ⟨e, r, he, hend⟩ := exists_field_end right after
  have hfield := field_eq left pre zeros b val k hend
  have hlt := fieldDigits_lt zeros val (by omega : 1 < b)
  have h16 : ∀ i ∈ fieldDigits zeros b val, i < 16 := fun i hi => by have := hlt i hi; omega
  obtain ⟨hminus, hsign, -⟩ := skipped hpre h16 fieldDigits_ne_nil hfield
  have hbase : baseOf (field left pre zeros (digitText (digitsFor k) b val) right ++ 0 :: after) b =
      b := if_neg (by omega)
  have hprefix : afterPrefix
      (field left pre zeros (digitText (digitsFor k) b val) right ++ 0 :: after) b =
        chars k (fieldDigits zeros b val) ++ e :: r := by
    rw [afterPrefix, hsign, startsHex_chars h16 fieldDigits_ne_nil he]
    exact if_neg fun h => Bool.false_ne_true h.2
  refine ⟨e :: r, ?_⟩
  have hnum := numeral_fieldDigits zeros b val
  have hread := strtoul_text (zero_mem_field _) (by omega) hminus hbase (by omega) hprefix hlt he
    (by rwa [hnum])
  rwa [hnum] at hread

/-- Reading a hexadecimal field with its prefix. -/
theorem strtoul_field_hex {x : UInt8} (hx : x = 120 ∨ x = 88) (hb : base = 0 ∨ base = 16)
    (hval : val < 2 ^ 64) : ∃ e,
      strtoul (field left [48, x] zeros (digitText (digitsFor k) 16 val) right ++ 0 :: after) base =
        .ok (val, e) := by
  obtain ⟨e, r, he, hend⟩ := exists_field_end right after
  have hfield := field_eq left [48, x] zeros 16 val k hend
  obtain ⟨s, hs⟩ : ∃ s, s = field left [48, x] zeros (digitText (digitsFor k) 16 val) right ++
    0 :: after := ⟨_, rfl⟩
  have hlt := fieldDigits_lt zeros val (by omega : 1 < 16)
  have hspace : afterSpace s = 48 :: x :: (chars k (fieldDigits zeros 16 val) ++ e :: r) := by
    rw [hs, hfield]
    exact afterSpace_text blanks_space rfl
  have hsign := afterSign_none hspace (by decide) (by decide)
  have hhex : startsHex (afterSign s) = true := by
    rw [hsign]
    rcases hx with rfl | rfl <;> rfl
  have hbase : baseOf s base = 16 := by
    rw [baseOf, hhex, if_pos rfl]
    rcases hb with rfl | rfl <;> rfl
  have hprefix : afterPrefix s base = chars k (fieldDigits zeros 16 val) ++ e :: r := by
    rw [afterPrefix, if_pos ⟨hb, hhex⟩, hsign]
    rfl
  have hnum := numeral_fieldDigits zeros 16 val
  have hread := strtoul_text (hs ▸ zero_mem_field _) (by omega)
    (minus_eq_false hspace (by decide)) hbase le_rfl hprefix hlt he (by rwa [hnum])
  rw [hnum] at hread
  exact ⟨e :: r, hs ▸ hread⟩

/-- Reading zeros in base 0, which takes them for octal. -/
theorem strtoul_field_zero : ∃ e,
    strtoul (field left [] zeros (digitText (digitsFor k) 16 0) right ++ 0 :: after) 0 =
      .ok (0, e) := by
  obtain ⟨e, r, he, hend⟩ := exists_field_end right after
  have hfield := field_eq left [] zeros 16 0 k hend
  obtain ⟨s, hs⟩ : ∃ s, s = field left [] zeros (digitText (digitsFor k) 16 0) right ++
    0 :: after := ⟨_, rfl⟩
  rw [← hs] at hfield
  have hzeros : fieldDigits zeros 16 0 = List.replicate (zeros + 1) 0 := by
    rw [List.replicate_succ']
    rfl
  rw [hzeros] at hfield
  have hlt : ∀ i ∈ List.replicate (zeros + 1) 0, i < 8 := fun i hi => by
    rw [List.eq_of_mem_replicate hi]
    decide
  have h16 : ∀ i ∈ List.replicate (zeros + 1) 0, i < 16 := fun i hi => (hlt i hi).trans (by decide)
  have hne : List.replicate (zeros + 1) 0 ≠ [] := List.cons_ne_nil _ _
  obtain ⟨hminus, hsign, -⟩ := skipped (.inl rfl) h16 hne hfield
  have hhex : startsHex (afterSign s) = false := by
    rw [hsign]
    exact startsHex_chars h16 hne he
  have hfirst : (afterSign s).head? = some 48 := by
    rw [hsign]
    change some ((digitsFor k).getD 0 0) = _
    unfold digitsFor
    split_ifs <;> rfl
  have hbase : baseOf s 0 = 8 := by
    rw [baseOf, if_pos rfl, hhex, if_neg Bool.false_ne_true, if_pos hfirst]
  have hprefix : afterPrefix s 0 = chars k (List.replicate (zeros + 1) 0) ++ e :: r := by
    rw [afterPrefix, hhex, hsign]
    exact if_neg fun h => Bool.false_ne_true h.2
  have hnum : numeral 8 (List.replicate (zeros + 1) 0) = 0 := by
    have := numeral_zeros (b := 8) (zeros + 1) []
    rwa [List.append_nil] at this
  have hread := strtoul_text (hs ▸ zero_mem_field _) (.inl rfl) hminus hbase (by decide) hprefix hlt
    he (by rw [hnum]; decide)
  rw [hnum] at hread
  exact ⟨e :: r, hs ▸ hread⟩

/-! ## Signed numbers -/

theorem strtol_field (left zeros right : ℕ) (k : ℤ) (after : List UInt8) {pre : List UInt8}
    (hpre : pre = [] ∨ pre = [32] ∨ pre = [43]) (hval : val < 2 ^ 63) : ∃ e,
      strtol (field left pre zeros (digitText (digitsFor k) 10 val) right ++ 0 :: after) 10 =
        .ok ((val : ℤ), e) := by
  obtain ⟨e, r, he, hend⟩ := exists_field_end right after
  obtain ⟨s, hs⟩ : ∃ s, s = field left pre zeros (digitText (digitsFor k) 10 val) right ++
    0 :: after := ⟨_, rfl⟩
  have hfield := field_eq left pre zeros 10 val k hend
  rw [← hs] at hfield ⊢
  have h16 : ∀ i ∈ fieldDigits zeros 10 val, i < 16 := fun i hi => by
    have := fieldDigits_lt zeros val (by decide : 1 < 10) i hi
    omega
  obtain ⟨hminus, -, hspace⟩ := skipped hpre h16 fieldDigits_ne_nil hfield
  -- what `strtol` hands on is the field without its blanks
  obtain ⟨pre', hpre', hrest⟩ : ∃ pre', (pre' = [] ∨ pre' = [32] ∨ pre' = [43]) ∧ afterSpace s =
      field 0 pre' zeros (digitText (digitsFor k) 10 val) right ++ 0 :: after :=
    ⟨if pre = [43] then [43] else [], by split_ifs <;> simp,
      hspace.trans (field_eq 0 _ zeros 10 val k hend).symm⟩
  obtain ⟨e', hread⟩ := strtoul_field 0 zeros right k after hpre' (.inl rfl)
    (hval.trans (by norm_num) : val < 2 ^ 64)
  have hne : afterSpace s ≠ [] := List.ne_nil_of_mem (mem_afterSpace (hs ▸ zero_mem_field _))
  obtain ⟨c, t, hcons⟩ := List.exists_cons_of_ne_nil hne
  have hnot : (char c == ch '-') = false := by
    rw [char_beq c 45 (by decide), ← hminus, minus, hcons]
    simp
  refine ⟨e', ?_⟩
  rw [strtol, skipSpace_eq (hs ▸ zero_mem_field _), ok_bind, hcons, deref_cons, ok_bind]
  simp only [hnot, Bool.false_eq_true, if_false, ← hcons, hrest]
  change strtoul _ ((10 : ℕ) : ℤ) >>= _ = _
  rw [hread, ok_bind]
  dsimp only
  rw [if_neg (by simp; omega), toLong_of_lt hval]
  rfl

theorem strtol_field_neg (hval : val ≤ 2 ^ 63) : ∃ e,
    strtol (field left [45] zeros (digitText (digitsFor k) 10 val) right ++ 0 :: after) 10 =
      .ok (-(val : ℤ), e) := by
  obtain ⟨e, r, he, hend⟩ := exists_field_end right after
  obtain ⟨s, hs⟩ : ∃ s, s = field left [45] zeros (digitText (digitsFor k) 10 val) right ++
    0 :: after := ⟨_, rfl⟩
  have hfield := field_eq left [45] zeros 10 val k hend
  rw [← hs] at hfield ⊢
  have hspace : afterSpace s =
      45 :: (field 0 [] zeros (digitText (digitsFor k) 10 val) right ++ 0 :: after) := by
    rw [hfield, field_eq 0 [] zeros 10 val k hend]
    exact afterSpace_text blanks_space rfl
  obtain ⟨e', hread⟩ := strtoul_field 0 zeros right k after (.inl rfl) (.inl rfl)
    (hval.trans_lt (by norm_num) : val < 2 ^ 64)
  refine ⟨e', ?_⟩
  rw [strtol, skipSpace_eq (hs ▸ zero_mem_field _), ok_bind, hspace, deref_cons, ok_bind]
  have hminus : (char 45 == ch '-') = true := rfl
  simp only [hminus, if_true, List.drop_one, List.tail_cons]
  change strtoul _ ((10 : ℕ) : ℤ) >>= _ = _
  rw [hread, ok_bind]
  dsimp only
  rw [if_neg (by simp; omega), toLong_neg hval]
  rfl

/-! ## The conversions of a directive -/

variable (d : Directive) (x : BitVec 64)

theorem has_bits (flag : ℕ) : has d.bits flag = d.flags.any fun c => has (flagOf c) flag := by
  rw [Directive.bits, has_flags]
  have h0 : has 0 flag = false := by
    rw [has, Nat.zero_and]
    rfl
  rw [h0, Bool.false_or]

/-- No flag of a directive is one of the flags that the conversions set. -/
theorem has_bits_eq_false {flag : ℕ} (h : ∀ c ∈ flagChars, has (flagOf c) flag = false) :
    has d.bits flag = false := by
  rw [has_bits, List.any_eq_false]
  intro c hc
  rw [h c (d.flags_ok c hc)]
  exact Bool.false_ne_true

theorem has_bits_alt : has d.bits FLAG_ALT = decide (35 ∈ d.flags) := by
  have halt : ∀ c ∈ flagChars, has (flagOf c) FLAG_ALT = decide (c = 35) :=
    forall_flagChars.2 (by decide)
  rw [has_bits, Bool.eq_iff_iff, List.any_eq_true, decide_eq_true_eq]
  constructor
  · rintro ⟨c, hc, h⟩
    rw [halt c (d.flags_ok c hc), decide_eq_true_eq] at h
    exact h ▸ hc
  · exact fun h => ⟨35, h, rfl⟩

/-- The flags of `%ld`. -/
def signedFlags : ℕ :=
  d.bits ||| (FLAG_NUMERIC ||| FLAG_SIGNED ||| if x.toInt < 0 then FLAG_NEGATIVE else 0)

theorem converts_signed : Converts d 100 x (signedFlags d x) 10 x.toInt.natAbs where
  convert numbuf := by
    have hlo := BitVec.le_two_mul_toInt (x := x)
    have hhi := BitVec.two_mul_toInt_lt (x := x)
    have hnum : ((if x.toInt < 0 then -x.toInt else x.toInt) % 2 ^ 64).toNat = x.toInt.natAbs := by
      norm_num at hlo hhi ⊢
      split_ifs <;> omega
    rw [← hnum]
    rfl
  conv_ne := by decide
  numeric := by
    rw [signedFlags, has_or, has_or, has_or]
    have hset : has FLAG_NUMERIC FLAG_NUMERIC = true := rfl
    rw [hset, Bool.true_or, Bool.true_or, Bool.or_true]
  base_ge := by decide
  base_le := by decide
  num_lt := by
    have hlo := BitVec.le_two_mul_toInt (x := x)
    have hhi := BitVec.two_mul_toInt_lt (x := x)
    norm_num at hlo hhi ⊢
    omega

theorem signedPrefix : (x.toInt < 0 ∧ numberPrefix (signedFlags d x) 10 x.toInt.natAbs = [45]) ∨
    (0 ≤ x.toInt ∧ (numberPrefix (signedFlags d x) 10 x.toInt.natAbs = [] ∨
      numberPrefix (signedFlags d x) 10 x.toInt.natAbs = [32] ∨
      numberPrefix (signedFlags d x) 10 x.toInt.natAbs = [43])) := by
  have hnumeric := (converts_signed d x).numeric
  have hsigned : has (signedFlags d x) FLAG_SIGNED = true := by
    rw [signedFlags, has_or, has_or, has_or]
    have hset : has FLAG_SIGNED FLAG_SIGNED = true := rfl
    rw [hset, Bool.or_true, Bool.true_or, Bool.or_true]
  have hnegative : has (signedFlags d x) FLAG_NEGATIVE = decide (x.toInt < 0) := by
    rw [signedFlags, has_or, has_or, has_or, has_bits_eq_false d (forall_flagChars.2 (by decide))]
    split_ifs with h
    · rw [decide_eq_true h]
      rfl
    · rw [decide_eq_false h]
      rfl
  rw [numberPrefix, hnumeric, hsigned, hnegative]
  by_cases h : x.toInt < 0
  · refine .inl ⟨h, ?_⟩
    rw [decide_eq_true h]
    rfl
  · refine .inr ⟨not_lt.1 h, ?_⟩
    rw [decide_eq_false h]
    simp only [Bool.and_self, if_true, Bool.false_eq_true, if_false]
    split_ifs
    · exact .inr (.inr rfl)
    · exact .inr (.inl rfl)
    · exact .inl rfl

/-- The bases of the unsigned conversions. -/
def unsignedBase (conv : UInt8) : ℤ := if conv = 117 then 10 else if conv = 120 then -16 else 16

theorem converts_unsigned {conv : UInt8} (hconv : conv = 117 ∨ conv = 120 ∨ conv = 88) :
    Converts d conv x (d.bits ||| FLAG_NUMERIC) (unsignedBase conv) x.toNat where
  convert numbuf := by
    rcases hconv with rfl | rfl | rfl <;> rfl
  conv_ne := by rcases hconv with rfl | rfl | rfl <;> decide
  numeric := by
    rw [has_or]
    exact Bool.or_true _
  base_ge := by rcases hconv with rfl | rfl | rfl <;> decide
  base_le := by rcases hconv with rfl | rfl | rfl <;> decide
  num_lt := x.isLt

/-- The prefix of an unsigned number: `0x` or `0X` where `#` asks for it and the number is not 0. -/
theorem unsignedPrefix {conv : UInt8} (hconv : conv = 117 ∨ conv = 120 ∨ conv = 88) :
    numberPrefix (d.bits ||| FLAG_NUMERIC) (unsignedBase conv) x.toNat =
      if conv ≠ 117 ∧ 35 ∈ d.flags ∧ x.toNat ≠ 0 then [48, conv] else [] := by
  have hnumeric := (converts_unsigned d x hconv).numeric
  have hsigned : has (d.bits ||| FLAG_NUMERIC) FLAG_SIGNED = false := by
    rw [has_or, has_bits_eq_false d (forall_flagChars.2 (by decide))]
    rfl
  have halt : has (d.bits ||| FLAG_NUMERIC) FLAG_ALT = decide (35 ∈ d.flags) := by
    rw [has_or, has_bits_alt]
    exact Bool.or_false _
  have halt2 : has (d.bits ||| FLAG_NUMERIC) FLAG_ALT2 = false := by
    rw [has_or, has_bits_eq_false d (forall_flagChars.2 (by decide))]
    rfl
  rw [numberPrefix, hnumeric, hsigned, halt, halt2]
  by_cases h35 : 35 ∈ d.flags <;> by_cases h0 : x.toNat = 0 <;>
    rcases hconv with rfl | rfl | rfl <;> simp [h35, h0, unsignedBase] <;> rfl

/-! ## Round trips -/

/-- The string `text` reads as the signed number `n`. -/
def ReadsSigned (text : List UInt8) (base n : ℤ) : Prop :=
  ∀ after, ∃ e, strtol (text ++ 0 :: after) base = .ok (n, e)

/-- The string `text` reads as the unsigned number `n`. -/
def Reads (text : List UInt8) (base : ℤ) (n : ℕ) : Prop :=
  ∀ after, ∃ e, strtoul (text ++ 0 :: after) base = .ok (n, e)

/-- What `%ld`, `%lu`, `%lx` and `%lX` print, under any flags, width and precision, reads back as
    the number printed. -/
theorem snprintf_reads_back (numbuf : List UInt8) (hnumbuf : numbuf.length = NUMBUFSIZ)
    (d : Directive) (x : BitVec 64) :
    (∃ text, Prints numbuf d 100 x text ∧ ReadsSigned text 10 x.toInt) ∧
    (∃ text, Prints numbuf d 117 x text ∧ Reads text 10 x.toNat) ∧
    ∀ conv : UInt8, conv = 120 ∨ conv = 88 → ∃ text, Prints numbuf d conv x text ∧
      Reads text 16 x.toNat ∧ (35 ∈ d.flags → Reads text 0 x.toNat) := by
  refine ⟨?_, ?_, fun conv hconv => ?_⟩
  · obtain ⟨left, zeros, right, hprints⟩ := prints_number (converts_signed d x) hnumbuf
    refine ⟨_, hprints, fun after => ?_⟩
    have hlo := BitVec.le_two_mul_toInt (x := x)
    have hhi := BitVec.two_mul_toInt_lt (x := x)
    rcases signedPrefix d x with ⟨hneg, hpre⟩ | ⟨hnonneg, hpre⟩
    · have hval : x.toInt.natAbs ≤ 2 ^ 63 := by
        norm_num at hlo ⊢
        omega
      have hx : -(x.toInt.natAbs : ℤ) = x.toInt := by omega
      rw [hpre, ← hx, Int.natAbs_neg]
      exact strtol_field_neg hval
    · have hval : x.toInt.natAbs < 2 ^ 63 := by
        norm_num at hhi ⊢
        omega
      obtain ⟨e, hread⟩ := strtol_field left zeros right 10 after hpre hval
      exact ⟨e, hread.trans (by rw [Int.natAbs_of_nonneg hnonneg])⟩
  · obtain ⟨left, zeros, right, hprints⟩ := prints_number (converts_unsigned d x (.inl rfl)) hnumbuf
    refine ⟨_, hprints, fun after => ?_⟩
    rw [unsignedPrefix d x (.inl rfl), if_neg fun h => h.1 rfl]
    exact strtoul_field left zeros right 10 after (.inl rfl) (.inl rfl) x.isLt
  · obtain ⟨left, zeros, right, hprints⟩ := prints_number
      (converts_unsigned d x (.inr hconv)) hnumbuf
    have hne : conv ≠ 117 := by rcases hconv with rfl | rfl <;> decide
    have h16 : (unsignedBase conv).natAbs = 16 := by rcases hconv with rfl | rfl <;> rfl
    rw [unsignedPrefix d x (.inr hconv), h16] at hprints
    refine ⟨_, hprints, fun after => ?_, fun h35 after => ?_⟩
    · by_cases h : conv ≠ 117 ∧ 35 ∈ d.flags ∧ x.toNat ≠ 0
      · rw [if_pos h]
        exact strtoul_field_hex hconv (.inr rfl) x.isLt
      · rw [if_neg h]
        exact strtoul_field left zeros right _ after (.inl rfl) (.inr rfl) x.isLt
    · by_cases h0 : x.toNat = 0
      · rw [if_neg fun h => h.2.2 h0, h0]
        exact strtoul_field_zero
      · rw [if_pos ⟨hne, h35, h0⟩]
        exact strtoul_field_hex hconv (.inl rfl) x.isLt

/-- `%+05ld`, `%+05lu`, `%+05lx` and `%+05lX` of -7. -/
theorem snprintf_reads_back_plus : ∃ d : Directive, d.text 100 = bytes "+05ld" ++ [0] ∧
    ((∃ text, Prints (List.replicate 24 0) d 100 (-7) text ∧ ReadsSigned text 10 (-7)) ∧
    (∃ text, Prints (List.replicate 24 0) d 117 (-7) text ∧ Reads text 10 (2 ^ 64 - 7)) ∧
    ∀ conv : UInt8, conv = 120 ∨ conv = 88 → ∃ text,
      Prints (List.replicate 24 0) d conv (-7) text ∧ Reads text 16 (2 ^ 64 - 7) ∧
        (35 ∈ d.flags → Reads text 0 (2 ^ 64 - 7))) :=
  ⟨{  flags := [43, 48]
      width := some (.digits [53])
      precision := none
      flags_ok := by simp [flagChars_eq]
      width_ok := by
        rintro ds h
        cases h
        exact ⟨53, [], rfl, by decide, List.forall_mem_singleton.2 rfl⟩
      precision_ok := by
        rintro ds h
        cases h },
    by decide, snprintf_reads_back _ (by decide) _ _⟩

end CProj.Libc
