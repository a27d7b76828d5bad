/-
  What `snprintf` prints of a number.

  A directive that prints a number prints blanks, a prefix, zeros, the digits and blanks, in this
  order (`prints_number`); its flags, width and precision only decide how many of each.  The digits
  that `fill_numbuf` leaves are those of the number (`fillNumbuf_spec`).
-/
import CProj.Libc.Formats
import Mathlib.Data.Nat.Digits.Lemmas

namespace CProj.Libc

/-! ## The digits of a number -/

/-- The digits of `val` in base `b`, at least one. -/
def digitList (b val : ℕ) : List ℕ := if val = 0 then [0] else (Nat.digits b val).reverse

/-- The text of `val` in base `b`. -/
def digitText (digits : List UInt8) (b val : ℕ) : List UInt8 :=
  (digitList b val).map fun d => digits.getD d 0

variable {b val : ℕ} {digits : List UInt8}

theorem digitList_small (h : val < b) : digitList b val = [val] := by
  unfold digitList
  split_ifs with h0
  · rw [h0]
  · rw [Nat.digits_of_lt b val h0 h]
    rfl

theorem digitList_step (hb : 1 < b) (h : b ≤ val) :
    digitList b val = digitList b (val / b) ++ [val % b] := by
  have hdiv : 0 < val / b := Nat.div_pos h (by omega)
  rw [digitList, if_neg (by omega), digitList, if_neg (by omega), Nat.digits_def' hb (by omega),
    List.reverse_cons]

theorem numeral_digitList : numeral b (digitList b val) = val := by
  unfold digitList
  split_ifs with h0
  · rw [h0]
    rfl
  · exact numeral_digits val

theorem digitList_lt (hb : 1 < b) : ∀ d ∈ digitList b val, d < b := by
  intro d hd
  unfold digitList at hd
  split_ifs at hd
  · rw [List.mem_singleton] at hd
    omega
  · exact Nat.digits_lt_base hb (List.mem_reverse.1 hd)

theorem length_digitList (hb : 1 < b) {n : ℕ} (hn : 0 < n) (h : val < b ^ n) :
    (digitList b val).length ≤ n := by
  unfold digitList
  split_ifs with h0
  · exact hn
  · rw [List.length_reverse]
    exact (Nat.digits_length_le_iff hb val).2 h

theorem put_ok {buf : List UInt8} {i : ℕ} (h : i < buf.length) (c : UInt8) :
    put buf i c = .ok (buf.set i c) := if_pos h

theorem drop_set (buf : List UInt8) {i : ℕ} (h : i < buf.length) (c : UInt8) :
    (buf.set i c).drop i = c :: buf.drop (i + 1) := by
  rw [List.drop_eq_getElem_cons (by rwa [List.length_set]), List.getElem_set_self,
    List.drop_set_of_lt (Nat.lt_succ_self i)]

/-- The loop of `fill_numbuf` puts the text of the number before the index it starts from. -/
theorem fillDigits_spec (digits : List UInt8) (hb : 1 < b) {i : ℕ} (numbuf : List UInt8)
    (h : val < b ^ i) (hi : i ≤ numbuf.length) (hpos : 0 < i) :
    ∃ buf j, fillDigits digits b i numbuf val = .ok (buf, j) ∧ buf.length = numbuf.length ∧
      buf.drop j = digitText digits b val ++ numbuf.drop i := by
  induction i generalizing numbuf val with
  | zero => omega
  | succ i ih =>
    have hset := drop_set numbuf hi (digits.getD (val % b) 0)
    rw [fillDigits, put_ok hi, ok_bind]
    by_cases h0 : val / b = 0
    · have hlt : val < b := (Nat.div_eq_zero_iff.1 h0).resolve_left (by omega)
      rw [if_neg (not_not.2 h0)]
      refine ⟨_, i, rfl, List.length_set, ?_⟩
      rw [hset, digitText, digitList_small hlt, Nat.mod_eq_of_lt hlt]
      rfl
    · have hge : b ≤ val := by
        by_contra hlt
        exact h0 (Nat.div_eq_of_lt (by omega))
      have hdiv : val / b < b ^ i := Nat.div_lt_of_lt_mul (by rwa [← pow_succ'])
      have hne : 0 < i := by
        rcases Nat.eq_zero_or_pos i with rfl | hi0
        · rw [pow_zero] at hdiv
          exact absurd (Nat.lt_one_iff.1 hdiv) h0
        · exact hi0
      obtain ⟨buf, j, hfill, hlen, hdrop⟩ :=
        ih (numbuf.set i (digits.getD (val % b) 0)) hdiv
          (by rw [List.length_set]; omega) hne
      rw [if_pos h0]
      refine ⟨buf, j, hfill, by rw [hlen, List.length_set], ?_⟩
      rw [hdrop, hset, digitText, digitText, digitList_step hb hge, List.map_append,
        List.append_assoc]
      rfl

/-- The digits that `fill_numbuf` uses. -/
def digitsFor (base : ℤ) : List UInt8 := if base < 0 then lowerDigits else upperDigits

theorem fillNumbuf_spec {numbuf : List UInt8} {base : ℤ} (hlen : numbuf.length = NUMBUFSIZ)
    (hbase : 10 ≤ base.natAbs) (hval : val < 2 ^ 64) :
    ∃ buf j, fillNumbuf numbuf val base = .ok (buf, j) ∧ buf.length = NUMBUFSIZ ∧
      buf.drop j = digitText (digitsFor base) base.natAbs val ++ [0] := by
  have h23 : NUMBUFSIZ - 1 < numbuf.length := by rw [hlen]; decide
  have hpow : val < base.natAbs ^ (NUMBUFSIZ - 1) := calc
    val < 10 ^ 23 := hval.trans (by norm_num)
    _ ≤ base.natAbs ^ 23 := Nat.pow_le_pow_left hbase 23
  obtain ⟨buf, j, hfill, hbuf, hdrop⟩ :=
    fillDigits_spec (digitsFor base) (by omega : 1 < base.natAbs)
      (numbuf.set (NUMBUFSIZ - 1) 0) hpow (by rw [List.length_set]; exact h23.le) (by decide)
  refine ⟨buf, j, ?_, by rw [hbuf, List.length_set, hlen], ?_⟩
  · rw [fillNumbuf, put_ok h23, ok_bind]
    exact hfill
  · rw [hdrop, drop_set numbuf h23, List.drop_eq_nil_of_le]
    rw [hlen]
    exact le_rfl

/-! ## Printing a number -/

section
variable {σ : Type} (putc : σ → UInt8 → ℤ → σ) (color : ℤ) {p : σ}

theorem strlen_text {text : List UInt8} (h : 0 ∉ text) (r : List UInt8) :
    strlen (text ++ 0 :: r) = .ok text.length := by
  induction text with
  | nil => rfl
  | cons c text ih =>
    have hc : c ≠ 0 := fun h0 => h (h0 ▸ List.mem_cons_self)
    rw [List.cons_append, strlen, if_neg hc, ih fun h0 => h (List.mem_cons_of_mem _ h0)]
    rfl

theorem putData_text (text r : List UInt8) :
    putData putc color (text ++ r) text.length p = .ok (putAll putc color p text) := by
  induction text generalizing p with
  | nil =>
    cases r <;> rfl
  | cons c text ih => exact ih

theorem putAll_append (cs ds : List UInt8) :
    putAll putc color (putAll putc color p cs) ds = putAll putc color p (cs ++ ds) :=
  (List.foldl_append ..).symm

/-- A field of a number: blanks, the prefix, zeros, the digits and blanks. -/
def field (left : ℕ) (pre : List UInt8) (zeros : ℕ) (text : List UInt8) (right : ℕ) : List UInt8 :=
  List.replicate left 32 ++ pre ++ List.replicate zeros 48 ++ text ++ List.replicate right 32

theorem toInt_of_lt {n : ℕ} (h : n < 2 ^ 31) : toInt n = n := by
  rw [toInt, Int.bmod_eq_of_le] <;> omega

/-- What a directive prints of a text whose length is `len`. -/
def fieldOf (flags : ℕ) (width precision len : ℤ) (pre text : List UInt8) : List UInt8 :=
  let zeros := zeroCount flags width precision len pre.length
  let blanks := (toInt (width - (len + zeros + pre.length))).toNat
  if has flags FLAG_LEFTJUSTIFY then field 0 pre zeros.toNat text blanks
  else field blanks pre zeros.toNat text 0

theorem fieldOf_eq (flags : ℕ) (width precision len : ℤ) (pre text : List UInt8) :
    ∃ left zeros right, fieldOf flags width precision len pre text =
      field left pre zeros text right := by
  unfold fieldOf
  split_ifs
  · exact ⟨_, _, _, rfl⟩
  · exact ⟨_, _, _, rfl⟩

/-- The output loops print a field, where the middle one prints `text`. -/
theorem printField_eq {flags : ℕ} {width precision len : ℤ} (pre : List UInt8)
    {data text : List UInt8} (hlen : dataLength flags precision data = .ok len)
    (hdata : ∀ p, putData putc color data len.toNat p = .ok (putAll putc color p text)) (p : σ) :
    printField putc color flags width precision pre data p =
      .ok (putAll putc color p (fieldOf flags width precision len pre text)) := by
  rw [printField, hlen, ok_bind, fieldOf]
  simp only [hdata, ok_bind, putAll_append]
  cases has flags FLAG_LEFTJUSTIFY with
  | true =>
    simp only [if_true, field, List.replicate_zero, List.nil_append, List.append_assoc]
    rfl
  | false =>
    simp only [Bool.false_eq_true, if_false, putAll_append, field, List.replicate_zero,
      List.append_nil, List.append_assoc]
    rfl

theorem printField_number {flags : ℕ} (width precision : ℤ) (pre : List UInt8)
    {text : List UInt8} (hnum : has flags FLAG_NUMERIC = true) (h0 : 0 ∉ text)
    (hlen : text.length < 2 ^ 31) :
    ∃ left zeros right, ∀ p : σ,
      printField putc color flags width precision pre (text ++ [0]) p =
        .ok (putAll putc color p (field left pre zeros text right)) := by
  have hdata : dataLength flags precision (text ++ [0]) = .ok (text.length : ℤ) := by
    rw [dataLength, if_neg (by rw [hnum]; simp), strlen_text h0, ok_bind, toInt_of_lt hlen]
    rfl
  obtain ⟨left, zeros, right, hfield⟩ := fieldOf_eq flags width precision text.length pre text
  refine ⟨left, zeros, right, fun p => ?_⟩
  rw [← hfield]
  exact printField_eq putc color pre hdata (fun p => putData_text putc color text [0]) p

end

/-! ## Directives -/

/-- A width or a precision, in the format or among the arguments. -/
inductive Field where
  | digits (ds : List UInt8)
  | star (n : BitVec 64)

def Field.text : Field → List UInt8
  | .digits ds => ds
  | .star _ => [42]

def Field.args : Field → List Arg
  | .digits _ => []
  | .star n => [⟨n, []⟩]

/-- The flags, the width and the precision of a directive.  The digits of a width do not start
    with `0`, which is a flag. -/
structure Directive where
  flags : List UInt8
  width : Option Field
  precision : Option Field
  flags_ok : ∀ c ∈ flags, c ∈ flagChars
  width_ok : ∀ ds, width = some (.digits ds) →
    ∃ c r, ds = c :: r ∧ c ≠ 48 ∧ ∀ d ∈ c :: r, isDigit d
  precision_ok : ∀ ds, precision = some (.digits ds) → ∀ d ∈ ds, isDigit d

namespace Directive
variable (d : Directive)

def widthText : List UInt8 := (d.width.map Field.text).getD []
def widthArgs : List Arg := (d.width.map Field.args).getD []
def precisionText : List UInt8 := (d.precision.map fun f => 46 :: f.text).getD []
def precisionArgs : List Arg := (d.precision.map Field.args).getD []

/-- The directive after its `%`, with the conversion `lc`. -/
def text (conv : UInt8) : List UInt8 :=
  d.flags ++ (d.widthText ++ (d.precisionText ++ [108, conv, 0]))

/-- The same without the NUL. -/
def body (conv : UInt8) : List UInt8 :=
  d.flags ++ (d.widthText ++ (d.precisionText ++ [108, conv]))

/-- A format that consists of the directive. -/
def format (conv : UInt8) : List UInt8 := 37 :: d.text conv

/-- The arguments that print the number `x`. -/
def args (x : BitVec 64) : List Arg := d.widthArgs ++ (d.precisionArgs ++ [⟨x, []⟩])

end Directive

theorem has_flags (fs : List UInt8) (flags flag : ℕ) :
    has (fs.foldl (fun f c => f ||| flagOf c) flags) flag =
      (has flags flag || fs.any fun c => has (flagOf c) flag) := by
  induction fs generalizing flags with
  | nil => simp
  | cons f fs ih => rw [List.foldl_cons, ih, has_or, List.any_cons, Bool.or_assoc]

/-! ## Reading a directive -/

variable (d : Directive) {conv : UInt8}

theorem text_eq : d.text conv = d.body conv ++ [0] := by
  simp only [Directive.text, Directive.body, List.append_assoc, List.cons_append, List.nil_append]

theorem dropWhile_isDigit {ds r : List UInt8} (hds : ∀ c ∈ ds, isDigit c)
    (hr : isDigit (r.headD 0) = false) : (ds ++ r).dropWhile isDigit = r := by
  rw [List.dropWhile_append_of_pos hds]
  cases r with
  | nil => rfl
  | cons c r => exact List.dropWhile_cons_of_neg (Bool.eq_false_iff.1 hr)

theorem isDigit_not_flag {c : UInt8} (h : isDigit c) (h0 : c ≠ 48) : c ∉ flagChars := by
  have hflags : ∀ f ∈ flagChars, f = 48 ∨ isDigit f = false := forall_flagChars.2 (by decide)
  intro hc
  rcases hflags c hc with h48 | hnot
  · exact h0 h48
  · rw [hnot] at h
    cases h

/-- What follows the flags of a directive starts with a character that is no flag. -/
theorem afterFlags_head (conv : UInt8) : ∃ c r,
    d.widthText ++ (d.precisionText ++ [108, conv]) = c :: r ∧ c ∉ flagChars := by
  unfold Directive.widthText Directive.precisionText
  rcases hw : d.width with - | ⟨ds | n⟩
  · rcases d.precision with - | f
    · exact ⟨108, [conv], rfl, by decide⟩
    · exact ⟨46, f.text ++ [108, conv], rfl, by decide⟩
  · obtain ⟨e, ds, rfl, hne, hds⟩ := d.width_ok ds hw
    exact ⟨e, _, rfl, isDigit_not_flag (hds e List.mem_cons_self) hne⟩
  · exact ⟨42, _, rfl, by decide⟩

theorem flags_contains : ∀ c ∈ d.flags, flagChars.contains c = true := fun c hc =>
  List.contains_iff_mem.2 (d.flags_ok c hc)

theorem afterFlags_body :
    afterFlags (d.body conv) = d.widthText ++ (d.precisionText ++ [108, conv]) := by
  obtain ⟨c, r, hcons, hc⟩ := afterFlags_head d conv
  have hnot : ¬ flagChars.contains c = true := mt List.contains_iff_mem.1 hc
  rw [afterFlags, Directive.body, List.dropWhile_append_of_pos (flags_contains d), hcons,
    List.dropWhile_cons_of_neg hnot]

theorem takeWhile_body : (d.body conv).takeWhile (flagChars.contains ·) = d.flags := by
  obtain ⟨c, r, hcons, hc⟩ := afterFlags_head d conv
  have hnot : ¬ flagChars.contains c = true := mt List.contains_iff_mem.1 hc
  rw [Directive.body, List.takeWhile_append_of_pos (flags_contains d), hcons,
    List.takeWhile_cons_of_neg hnot, List.append_nil]

/-- What follows the width of a directive starts with a point or the length. -/
theorem afterWidth_head (conv : UInt8) : (d.precisionText ++ [108, conv]).headD 0 = 46 ∨
    (d.precisionText ++ [108, conv]).headD 0 = 108 := by
  unfold Directive.precisionText
  rcases d.precision with - | f
  · exact .inr rfl
  · exact .inl rfl

theorem afterWidth_body {r : List UInt8} (hr : r.headD 0 = 46 ∨ r.headD 0 = 108) :
    afterWidth (d.widthText ++ r) = r ∧
      (starKinds (d.widthText ++ r)).length = d.widthArgs.length := by
  have hdigit : isDigit (r.headD 0) = false := by rcases hr with h | h <;> rw [h] <;> rfl
  have hstar : r.headD 0 ≠ 42 := by rcases hr with h | h <;> rw [h] <;> decide
  unfold Directive.widthText Directive.widthArgs
  rcases hw : d.width with - | ⟨ds | n⟩
  · constructor
    · change afterWidth r = r
      rw [afterWidth, if_neg (by rw [hdigit]; exact fun h => Bool.false_ne_true h.1), if_neg hstar]
    · change (starKinds r).length = 0
      rw [starKinds, if_neg hstar]
      rfl
  · obtain ⟨e, ds, rfl, hne, hds⟩ := d.width_ok ds hw
    have he : isDigit e = true := hds e List.mem_cons_self
    constructor
    · change afterWidth ((e :: ds) ++ r) = r
      rw [afterWidth, if_pos ⟨he, hne⟩, dropWhile_isDigit hds hdigit]
    · change (starKinds ((e :: ds) ++ r)).length = 0
      rw [starKinds, if_neg]
      · rfl
      · rintro h
        change e = 42 at h
        rw [h] at he
        cases he
  · exact ⟨rfl, rfl⟩

theorem afterPrecision_body : afterPrecision (d.precisionText ++ [108, conv]) = [108, conv] ∧
    (precisionKinds (d.precisionText ++ [108, conv])).length = d.precisionArgs.length := by
  unfold Directive.precisionText Directive.precisionArgs
  rcases hp : d.precision with - | ⟨ds | n⟩
  · exact ⟨rfl, rfl⟩
  · have hds := d.precision_ok ds hp
    have hdigit : isDigit (([108, conv] : List UInt8).headD 0) = false := rfl
    constructor
    · change afterPoint (ds ++ [108, conv]) = [108, conv]
      rcases ds with - | ⟨e, ds⟩
      · rfl
      · have he : isDigit ((e :: ds ++ [108, conv]).headD 0) = true := hds e List.mem_cons_self
        rw [afterPoint, if_pos he, dropWhile_isDigit hds hdigit]
    · change (starKinds (ds ++ [108, conv])).length = 0
      rcases ds with - | ⟨e, ds⟩
      · rfl
      · have he : isDigit e = true := hds e List.mem_cons_self
        rw [starKinds, if_neg]
        · rfl
        · intro h
          change e = 42 at h
          rw [h] at he
          cases he
  · exact ⟨rfl, rfl⟩

/-- The text of a width or a precision has no NUL. -/
theorem zero_not_mem_digits {ds : List UInt8} (hds : ∀ c ∈ ds, isDigit c) : 0 ∉ ds := fun h =>
  absurd (hds 0 h) (by decide)

theorem zero_not_mem_body (hconv : conv ≠ 0) : 0 ∉ d.body conv := by
  have hflags : 0 ∉ d.flags := fun h => absurd (d.flags_ok 0 h) (by decide)
  have hwidth : 0 ∉ d.widthText := by
    unfold Directive.widthText
    rcases hw : d.width with - | ⟨ds | n⟩
    · exact List.not_mem_nil
    · obtain ⟨e, r, rfl, -, hds⟩ := d.width_ok ds hw
      exact zero_not_mem_digits hds
    · exact (by decide : (0 : UInt8) ∉ [42])
  have hprecision : 0 ∉ d.precisionText := by
    unfold Directive.precisionText
    rcases hp : d.precision with - | ⟨ds | n⟩
    · exact List.not_mem_nil
    · exact List.not_mem_cons_of_ne_of_not_mem (by decide)
        (zero_not_mem_digits (d.precision_ok ds hp))
    · exact (by decide : (0 : UInt8) ∉ [46, 42])
  simp only [Directive.body, List.mem_append, List.mem_cons, List.not_mem_nil, or_false, not_or]
  exact ⟨hflags, hwidth, hprecision, by decide, hconv.symm⟩

theorem afterWidth_afterFlags :
    afterWidth (afterFlags (d.body conv)) = d.precisionText ++ [108, conv] := by
  rw [afterFlags_body, (afterWidth_body d (afterWidth_head d conv)).1]

theorem atConversion_body : atConversion (d.body conv) = [conv] := by
  have hlong : ([108, conv] : List UInt8).headD 0 ∈ bytes "ltzh" :=
    (by decide : (108 : UInt8) ∈ bytes "ltzh")
  rw [atConversion, afterWidth_afterFlags, (afterPrecision_body d).1, afterLength, if_pos hlong]
  rfl

theorem matches_words {ks : List ArgKind} {args : List Arg} (hks : ∀ k ∈ ks, k = .word)
    (hlen : ks.length ≤ args.length) : Matches ks args := by
  induction ks generalizing args with
  | nil => trivial
  | cons k ks ih =>
    rcases args with - | ⟨a, args⟩
    · cases hlen
    · refine ⟨?_, ih (fun k hk => hks k (List.mem_cons_of_mem _ hk)) (Nat.le_of_succ_le_succ hlen)⟩
      rw [hks k List.mem_cons_self]
      trivial

theorem eq_word_of_starKinds {t : List UInt8} {k : ArgKind} (hk : k ∈ starKinds t) :
    k = .word := by
  rw [starKinds] at hk
  split_ifs at hk
  · exact List.mem_singleton.1 hk
  · cases hk

theorem eq_word_of_precisionKinds {t : List UInt8} {k : ArgKind} (hk : k ∈ precisionKinds t) :
    k = .word := by
  rw [precisionKinds] at hk
  split_ifs at hk
  · exact eq_word_of_starKinds hk
  · cases hk

variable (conv) in
/-- A directive takes the arguments for its stars, and the number. -/
theorem directive_args (x : BitVec 64) : Matches (starKinds (afterFlags (d.body conv)) ++
      precisionKinds (afterWidth (afterFlags (d.body conv)))) (d.args x) ∧
    ((d.args x).drop (starKinds (afterFlags (d.body conv))).length).drop
      (precisionKinds (afterWidth (afterFlags (d.body conv)))).length = [⟨x, []⟩] := by
  have hwidth := (afterWidth_body d (afterWidth_head d conv)).2
  have hprecision : (precisionKinds (d.precisionText ++ [108, conv])).length =
      d.precisionArgs.length := (afterPrecision_body d).2
  rw [← afterFlags_body] at hwidth
  rw [← afterWidth_afterFlags] at hprecision
  constructor
  · refine matches_words (fun k hk => ?_) ?_
    · rcases List.mem_append.1 hk with hk | hk
      · exact eq_word_of_starKinds hk
      · exact eq_word_of_precisionKinds hk
    · rw [List.length_append, hwidth, hprecision, Directive.args]
      simp only [List.length_append]
      omega
  · rw [hwidth, hprecision, Directive.args, List.drop_left, List.drop_left]

/-! ## Printing a directive -/

/-- The bits of the flags of a directive. -/
def Directive.bits : ℕ := d.flags.foldl (fun f c => f ||| flagOf c) 0

theorem digitsFor_ne_zero {base : ℤ} : ∀ i < 16, (digitsFor base).getD i 0 ≠ 0 := by
  unfold digitsFor
  split_ifs
  · decide
  · decide

theorem zero_not_mem_digitText {base : ℤ} (hlo : 10 ≤ base.natAbs) (hhi : base.natAbs ≤ 16) :
    0 ∉ digitText (digitsFor base) base.natAbs val := by
  intro h
  obtain ⟨i, hi, h0⟩ := List.mem_map.1 h
  have hlt := digitList_lt (by omega) i hi
  exact digitsFor_ne_zero i (by omega) h0

theorem length_digitText {base : ℤ} (hlo : 10 ≤ base.natAbs) (hval : val < 2 ^ 64) :
    (digitText (digitsFor base) base.natAbs val).length < 2 ^ 31 := by
  have hpow : val < base.natAbs ^ 20 := calc
    val < 10 ^ 20 := hval.trans (by norm_num)
    _ ≤ base.natAbs ^ 20 := Nat.pow_le_pow_left hlo 20
  have hlen := length_digitList (by omega) (by decide) hpow
  rw [digitText, List.length_map]
  omega

/-- What a conversion of a directive makes of its argument. -/
structure Converts (d : Directive) (conv : UInt8) (x : BitVec 64) (flags : ℕ) (base : ℤ)
    (num : ℕ) : Prop where
  convert : ∀ numbuf, convert [conv, 0] true d.bits [⟨x, []⟩] numbuf =
    .ok (.number flags base num, [], numbuf)
  conv_ne : conv ≠ 0
  numeric : has flags FLAG_NUMERIC = true
  base_ge : 10 ≤ base.natAbs
  base_le : base.natAbs ≤ 16
  num_lt : num < 2 ^ 64

section
variable {σ : Type} (putc : σ → UInt8 → ℤ → σ) (color : ℤ) {d}
variable {conv : UInt8} {x : BitVec 64} {flags num : ℕ} {base : ℤ} {numbuf : List UInt8}

/-- A directive that prints a number prints one field. -/
theorem directive_number (h : Converts d conv x flags base num)
    (hnumbuf : numbuf.length = NUMBUFSIZ) : ∃ left zeros right buf, ∀ p : σ,
      directive putc ⟨d.text conv, d.args x, color, numbuf, p⟩ =
        .ok ⟨[0], [], color, buf, putAll putc color p
          (field left (numberPrefix flags base num) zeros
            (digitText (digitsFor base) base.natAbs num) right)⟩ := by
  obtain ⟨hmatches, hargs⟩ := directive_args d conv x
  have h0 := zero_not_mem_body d h.conv_ne
  obtain ⟨width, hwidth⟩ := readWidth_text hmatches.left
  obtain ⟨precision, hprecision⟩ := readPrecision_text hmatches.drop
  have hlength : readLength (afterPrecision (afterWidth (afterFlags (d.body conv))) ++ [0]) =
      .ok (true, atConversion (d.body conv) ++ [0]) := by
    rw [atConversion_body, afterWidth_afterFlags, (afterPrecision_body d).1]
    rfl
  obtain ⟨buf, start, hfill, -, hdrop⟩ := fillNumbuf_spec hnumbuf h.base_ge h.num_lt
  obtain ⟨left, zeros, right, hprint⟩ := printField_number putc color width precision
    (numberPrefix flags base num) h.numeric (zero_not_mem_digitText h.base_ge h.base_le)
    (length_digitText h.base_ge h.num_lt)
  refine ⟨left, zeros, right, buf, fun p => ?_⟩
  rw [text_eq, directive_convert putc h0 (readFlags_text h0 0 []) (hwidth []) (hprecision []) hlength,
    takeWhile_body, atConversion_body, hargs]
  change convert [conv, 0] true d.bits [⟨x, []⟩] numbuf >>= _ = _
  rw [h.convert, ok_bind]
  dsimp only
  rw [hfill, ok_bind]
  dsimp only
  rw [hdrop, hprint, ok_bind]
  rfl

theorem vprintf_number (h : Converts d conv x flags base num)
    (hnumbuf : numbuf.length = NUMBUFSIZ) : ∃ left zeros right, ∀ p : σ,
      vprintf putc numbuf p color (d.format conv) (d.args x) =
        .ok (putAll putc color p (field left (numberPrefix flags base num) zeros
            (digitText (digitsFor base) base.natAbs num) right)) := by
  obtain ⟨left, zeros, right, buf, hdir⟩ := directive_number putc color h hnumbuf
  refine ⟨left, zeros, right, fun p => ?_⟩
  obtain ⟨n, hn⟩ : ∃ n, (d.format conv).length = n + 1 := ⟨_, rfl⟩
  rw [vprintf, hn, vprintfLoop, Directive.format, deref_cons, ok_bind,
    if_neg (by decide : char 37 ≠ 0), if_neg (not_not.2 (by decide : char 37 = ch '%'))]
  change directive putc ⟨d.text conv, d.args x, color, numbuf, p⟩ >>= _ = _
  rw [hdir, ok_bind]
  rfl

end

/-! ## Printing into a buffer -/

theorem stringPrinter_putAll (color : ℤ) (cs : List UInt8) (p : StringPrinter)
    (h : p.s_ + cs.length ≤ p.buf.length) :
    (putAll StringPrinter.putc color p cs).s_ = p.s_ + cs.length ∧
      (putAll StringPrinter.putc color p cs).buf =
        p.buf.take p.s_ ++ cs ++ p.buf.drop (p.s_ + cs.length) := by
  induction cs generalizing p with
  | nil => exact ⟨rfl, by simp [putAll]⟩
  | cons c cs ih =>
    rw [List.length_cons] at h
    have hroom : p.s_ < p.buf.length := by omega
    have hput : StringPrinter.putc p c color =
        ⟨p.buf.set p.s_ c, p.s_ + 1, (p.n_ + 1) % 2 ^ 64⟩ := if_pos hroom
    obtain ⟨hs, hbuf⟩ := ih (StringPrinter.putc p c color) (by
      rw [hput, List.length_set]
      dsimp only
      omega)
    rw [hput] at hs hbuf
    dsimp only at hs hbuf
    have hstep : putAll StringPrinter.putc color p (c :: cs) =
        putAll StringPrinter.putc color ⟨p.buf.set p.s_ c, p.s_ + 1, (p.n_ + 1) % 2 ^ 64⟩ cs := by
      rw [← hput]
      rfl
    have hend : p.s_ + 1 + cs.length = p.s_ + (cs.length + 1) := by omega
    rw [hend] at hs hbuf
    rw [hstep, List.length_cons]
    refine ⟨hs, hbuf.trans ?_⟩
    have htake : (p.buf.set p.s_ c).take (p.s_ + 1) = p.buf.take p.s_ ++ [c] := by
      rw [List.take_set, ← List.take_append_getElem hroom, List.set_append_right _ _ (by simp)]
      simp [Nat.min_eq_left hroom.le]
    rw [htake, List.drop_set_of_lt (by omega), List.append_assoc (p.buf.take p.s_)]
    rfl

/-- The directive prints `text` into every buffer that is large enough for it. -/
def Prints (numbuf : List UInt8) (d : Directive) (conv : UInt8) (x : BitVec 64)
    (text : List UInt8) : Prop :=
  ∀ buf, text.length < buf.length →
    ∃ after n, snprintf numbuf buf (d.format conv) (d.args x) = .ok (text ++ 0 :: after, n)

theorem prints_number {d : Directive} {conv : UInt8} {x : BitVec 64} {flags num : ℕ} {base : ℤ}
    {numbuf : List UInt8} (h : Converts d conv x flags base num)
    (hnumbuf : numbuf.length = NUMBUFSIZ) : ∃ left zeros right,
      Prints numbuf d conv x (field left (numberPrefix flags base num) zeros
        (digitText (digitsFor base) base.natAbs num) right) := by
  obtain ⟨left, zeros, right, hprint⟩ := vprintf_number StringPrinter.putc 0 h hnumbuf
  refine ⟨left, zeros, right, fun buf hbuf => ?_⟩
  obtain ⟨text, htext⟩ : ∃ t, t = field left (numberPrefix flags base num) zeros
    (digitText (digitsFor base) base.natAbs num) right := ⟨_, rfl⟩
  rw [← htext] at hbuf
  obtain ⟨sp, hsp⟩ : ∃ sp, sp = putAll StringPrinter.putc 0 ⟨buf, 0, 0⟩ text := ⟨_, rfl⟩
  obtain ⟨hs, hcopy⟩ := stringPrinter_putAll 0 text ⟨buf, 0, 0⟩ (by simpa using hbuf.le)
  simp only [Nat.zero_add, List.take_zero, List.nil_append, ← hsp] at hs hcopy
  have hlen : sp.s_ < sp.buf.length := by
    rw [hs, hcopy, List.length_append, List.length_drop]
    omega
  refine ⟨buf.drop (text.length + 1), toInt (toLong sp.n_), ?_⟩
  have hset : sp.buf.set sp.s_ 0 = text ++ 0 :: buf.drop (text.length + 1) := by
    rw [hs, hcopy, List.set_append_right _ _ le_rfl, Nat.sub_self, List.drop_eq_getElem_cons hbuf]
    rfl
  rw [snprintf, vsnprintf, hprint, ok_bind, ← htext, ← hsp,
    if_pos ⟨by omega, hs ▸ hbuf⟩, put_ok hlen, ok_bind, hset]
  rfl

end CProj.Libc
