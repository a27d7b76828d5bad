/-
  `vprintf` and `vsnprintf` on every format.

  What a directive prints does not depend on the printer or on `numbuf` (`directive_text`), so that
  `vprintf` gives every printer the same characters (`vprintfLoop_text`), and `vsnprintf` keeps as
  many of them as there is room for (`vsnprintf_safe`).
-/
import CProj.Libc.Numbers

namespace CProj.Libc

variable {t text : List UInt8} {args : List Arg} {ks : List ArgKind}

/-! ## Printing -/

section
variable {σ : Type} (putc : σ → UInt8 → ℤ → σ)

theorem strnlen_text (h0 : 0 ∉ text) (junk : List UInt8) (n : ℕ) :
    strnlen (text ++ 0 :: junk) n = .ok (min text.length n) := by
  induction text generalizing n with
  | nil => cases n <;> rfl
  | cons c text ih =>
    have hc : c ≠ 0 := fun h => h0 (h ▸ List.mem_cons_self)
    cases n with
    | zero => rfl
    | succ n =>
      rw [List.cons_append, strnlen, if_neg hc, ih fun h => h0 (List.mem_cons_of_mem _ h)]
      change Except.ok (min text.length n + 1) = _
      rw [List.length_cons, Nat.succ_min_succ]

theorem putData_take (color : ℤ) {n : ℕ} (hn : n ≤ text.length) (junk : List UInt8) (p : σ) :
    putData putc color (text ++ junk) n p = .ok (putAll putc color p (text.take n)) := by
  have hsplit : text ++ junk = text.take n ++ (text.drop n ++ junk) := by
    rw [← List.append_assoc, List.take_append_drop]
  have hprint := putData_text putc color (text.take n) (text.drop n ++ junk) (p := p)
  rw [List.length_take, Nat.min_eq_left hn] at hprint
  rw [hsplit, hprint]

theorem toInt_toNat_le (n : ℕ) : (toInt n).toNat ≤ n := by
  rw [toInt, Int.bmod_def]
  norm_num
  split_ifs <;> omega

theorem dataLength_text (flags : ℕ) (precision : ℤ) (h0 : 0 ∉ text) :
    ∃ n : ℕ, n ≤ text.length ∧ ∀ junk,
      dataLength flags precision (text ++ 0 :: junk) = .ok (toInt n) := by
  unfold dataLength
  split_ifs with hp
  · refine ⟨min text.length precision.toNat, Nat.min_le_left _ _, fun junk => ?_⟩
    rw [strnlen_text h0]
    rfl
  · refine ⟨text.length, le_rfl, fun junk => ?_⟩
    rw [strlen_text h0]
    rfl

/-- A field that shows a text. -/
theorem printField_text (flags : ℕ) (width precision : ℤ) {pre : List UInt8} (hpre : 0 ∉ pre)
    (h0 : 0 ∉ text) : ∃ piece, 0 ∉ piece ∧ ∀ {σ : Type} (putc : σ → UInt8 → ℤ → σ) color junk p,
      printField putc color flags width precision pre (text ++ 0 :: junk) p =
        .ok (putAll putc color p piece) := by
  obtain ⟨n, hn, hlen⟩ := dataLength_text flags precision h0
  have htake : (toInt n).toNat ≤ text.length := (toInt_toNat_le n).trans hn
  refine ⟨fieldOf flags width precision (toInt n) pre (text.take (toInt n).toNat), ?_, ?_⟩
  · obtain ⟨left, zeros, right, hfield⟩ :=
      fieldOf_eq flags width precision (toInt n) pre (text.take (toInt n).toNat)
    have hblank : ∀ k, (0 : UInt8) ∉ List.replicate k 32 := fun k h =>
      absurd (List.eq_of_mem_replicate h) (by decide)
    have hzero : ∀ k, (0 : UInt8) ∉ List.replicate k 48 := fun k h =>
      absurd (List.eq_of_mem_replicate h) (by decide)
    have htext : 0 ∉ text.take (toInt n).toNat := fun h => h0 (List.mem_of_mem_take h)
    simp only [hfield, field, List.mem_append, hblank, hzero, hpre, htext, or_self, not_false_eq_true]
  · intro σ putc color junk p
    exact printField_eq putc color pre (hlen junk)
      (fun p => putData_take putc color htake (0 :: junk) p) p

theorem zero_not_mem_numberPrefix (flags : ℕ) (base : ℤ) (num : ℕ) :
    0 ∉ numberPrefix flags base num := by
  unfold numberPrefix
  split_ifs <;> decide

end

/-! ## A directive, and all of them -/

/-- Print characters, each in its colour. -/
def emit {σ : Type} (putc : σ → UInt8 → ℤ → σ) (p : σ) (out : List (UInt8 × ℤ)) : σ :=
  out.foldl (fun p x => putc p x.1 x.2) p

theorem emit_append {σ : Type} (putc : σ → UInt8 → ℤ → σ) (p : σ) (xs ys : List (UInt8 × ℤ)) :
    emit putc p (xs ++ ys) = emit putc (emit putc p xs) ys := List.foldl_append ..

theorem putAll_eq_emit {σ : Type} (putc : σ → UInt8 → ℤ → σ) (color : ℤ) (p : σ) (cs : List UInt8) :
    putAll putc color p cs = emit putc p (cs.map fun c => (c, color)) := by
  rw [putAll, emit, List.foldl_map]

/-- **A directive** reads up to a rest of the text, and prints the same characters whatever the
    printer, the colour and `numbuf`. -/
theorem directive_text (h0 : 0 ∉ t) (h : Matches (directiveKinds t ++ ks) args) :
    ∃ args' piece, ∃ k : Option ℤ, Matches ks args' ∧ 0 ∉ piece ∧
      ∀ {σ : Type} (putc : σ → UInt8 → ℤ → σ) color p rest numbuf, numbuf.length = NUMBUFSIZ →
        ∃ numbuf', numbuf'.length = NUMBUFSIZ ∧
          directive putc ⟨t ++ 0 :: rest, args, color, numbuf, p⟩ =
            .ok ⟨(atConversion t).drop 1 ++ 0 :: rest, args', k.getD color, numbuf',
              putAll putc color p piece⟩ := by
  rw [directiveKinds, List.append_assoc, List.append_assoc] at h
  obtain ⟨flags, hflags⟩ : ∃ flags, ∀ rest,
      readFlags (t ++ 0 :: rest) 0 = .ok (flags, afterFlags t ++ 0 :: rest) :=
    ⟨_, readFlags_text h0 0⟩
  obtain ⟨width, hwidth⟩ := readWidth_text h.left
  have h₁ := h.drop
  obtain ⟨precision, hprecision⟩ := readPrecision_text h₁.left
  have h₂ := h₁.drop
  obtain ⟨length, hlength⟩ := readLength_text (afterPrecision (afterWidth (afterFlags t)))
  obtain ⟨args', hks, hyields⟩ := convert_text length flags h₂
  have hread {σ : Type} (putc : σ → UInt8 → ℤ → σ) (rest : List UInt8) :=
    directive_convert putc h0 (hflags rest) (hwidth rest) (hprecision rest) (hlength rest)
  rcases hyields with ⟨k, hconv⟩ | ⟨flags', base, num, hnum, hlo, hhi, hlt, hconv⟩ |
    ⟨text, htext, hconv⟩
  · refine ⟨args', [], some k, hks, List.not_mem_nil, fun putc color p rest numbuf hlen => ?_⟩
    refine ⟨numbuf, hlen, ?_⟩
    rw [hread, hconv]
    rfl
  · have hdigits : 0 ∉ digitText (digitsFor base) base.natAbs num := zero_not_mem_digitText hlo hhi
    obtain ⟨piece, hpiece, hprint⟩ := printField_text flags' width precision
      (zero_not_mem_numberPrefix flags' base num) hdigits
    refine ⟨args', piece, none, hks, hpiece, fun putc color p rest numbuf hlen => ?_⟩
    obtain ⟨buf, j, hfill, hbuf, hdrop⟩ := fillNumbuf_spec hlen hlo hlt
    refine ⟨buf, hbuf, ?_⟩
    rw [hread, hconv, ok_bind]
    dsimp only
    rw [hfill, ok_bind, hdrop, hprint, ok_bind]
    rfl
  · obtain ⟨piece, hpiece, hprint⟩ := printField_text flags width precision List.not_mem_nil htext
    refine ⟨args', piece, none, hks, hpiece, fun putc color p rest numbuf hlen => ?_⟩
    obtain ⟨junk, numbuf', hlen', hconv⟩ := hconv rest numbuf hlen
    refine ⟨numbuf', hlen', ?_⟩
    rw [hread, hconv, ok_bind]
    dsimp only
    rw [hprint, ok_bind]
    rfl

/-- **`vprintf` on every format**: it ends, and gives every printer the same characters. -/
theorem vprintfLoop_text (h0 : 0 ∉ t) (h : Matches (argKinds t) args) (color : ℤ) :
    ∃ out : List (UInt8 × ℤ), (∀ x ∈ out, x.1 ≠ 0) ∧
      ∀ {σ : Type} (putc : σ → UInt8 → ℤ → σ) p rest numbuf fuel, numbuf.length = NUMBUFSIZ →
        t.length < fuel →
        vprintfLoop putc fuel ⟨t ++ 0 :: rest, args, color, numbuf, p⟩ = .ok (emit putc p out) := by
  induction t using argKinds.induct generalizing args color with
  | case1 =>
    refine ⟨[], fun x hx => absurd hx List.not_mem_nil, ?_⟩
    rintro σ putc p rest numbuf fuel - hfuel
    obtain ⟨fuel, rfl⟩ := Nat.exists_eq_succ_of_ne_zero (Nat.ne_of_gt hfuel)
    rfl
  | case2 t ih =>
    have ht : 0 ∉ t := fun h => h0 (List.mem_cons_of_mem _ h)
    rw [argKinds, if_pos rfl] at h
    obtain ⟨args', piece, k, hks, hpiece, hdirective⟩ := directive_text ht h
    have hnext : 0 ∉ (atConversion t).drop 1 := fun h =>
      ht ((atConversion_suffix t).subset (List.mem_of_mem_drop h))
    obtain ⟨out, hout, hloop⟩ := ih hnext hks (k.getD color)
    refine ⟨piece.map (fun c => (c, color)) ++ out, ?_, ?_⟩
    · intro x hx
      rcases List.mem_append.1 hx with hx | hx
      · obtain ⟨c, hc, rfl⟩ := List.mem_map.1 hx
        exact fun hc0 => hpiece (hc0 ▸ hc)
      · exact hout x hx
    · intro σ putc p rest numbuf fuel hlen hfuel
      obtain ⟨fuel, rfl⟩ := Nat.exists_eq_succ_of_ne_zero (Nat.ne_of_gt (Nat.zero_lt_of_lt hfuel))
      obtain ⟨numbuf', hlen', hone⟩ := hdirective putc color p rest numbuf hlen
      have hshort : ((atConversion t).drop 1).length < fuel := by
        have := (atConversion_suffix t).length_le
        rw [List.length_cons] at hfuel
        rw [List.length_drop]
        omega
      change (directive putc ⟨t ++ 0 :: rest, args, color, numbuf, p⟩ >>= vprintfLoop putc fuel) = _
      rw [hone, ok_bind, hloop putc _ rest numbuf' fuel hlen' hshort, emit_append, ← putAll_eq_emit]
  | case3 c t hc ih =>
    have ht : 0 ∉ t := fun h => h0 (List.mem_cons_of_mem _ h)
    have hc0 : c ≠ 0 := fun h => h0 (h ▸ List.mem_cons_self)
    rw [argKinds, if_neg hc] at h
    obtain ⟨out, hout, hloop⟩ := ih ht h color
    refine ⟨(c, color) :: out, ?_, ?_⟩
    · rintro x hx
      rcases List.mem_cons.1 hx with rfl | hx
      · exact hc0
      · exact hout x hx
    · intro σ putc p rest numbuf fuel hlen hfuel
      obtain ⟨fuel, rfl⟩ := Nat.exists_eq_succ_of_ne_zero (Nat.ne_of_gt (Nat.zero_lt_of_lt hfuel))
      have hchar0 : char c ≠ 0 := mt (char_eq_iff (k := '\x00') rfl).1 hc0
      have hpercent : char c ≠ ch '%' := mt (char_eq_iff rfl).1 hc
      change (if char c = 0 then _ else if char c ≠ ch '%' then
        vprintfLoop putc fuel ⟨t ++ 0 :: rest, args, color, numbuf, putc p c color⟩ else _) = _
      rw [if_neg hchar0, if_pos hpercent]
      exact hloop putc _ rest numbuf fuel hlen (Nat.lt_of_succ_lt_succ hfuel)

/-! ## Printing into a buffer -/

/-- The printer of `vsnprintf` after the characters `out`. -/
theorem emit_stringPrinter (buf : List UInt8) (out : List (UInt8 × ℤ)) :
    emit StringPrinter.putc ⟨buf, 0, 0⟩ out =
      ⟨(out.map Prod.fst).take buf.length ++ buf.drop out.length, min out.length buf.length,
        out.length % 2 ^ 64⟩ := by
  induction out using List.reverseRecOn with
  | nil =>
    rw [List.map_nil, List.take_nil, List.nil_append, List.length_nil, List.drop_zero, Nat.zero_min]
    rfl
  | append_singleton out x ih =>
    have hlen : ((out.map Prod.fst).take buf.length ++ buf.drop out.length).length =
        buf.length := by
      rw [List.length_append, List.length_take, List.length_drop, List.length_map]
      omega
    rw [emit_append, ih]
    change StringPrinter.putc _ x.1 x.2 = _
    rw [StringPrinter.putc]
    dsimp only
    rw [hlen, List.map_append, List.length_append, List.length_singleton, Nat.mod_add_mod]
    by_cases hroom : out.length < buf.length
    · have hfst : (out.map Prod.fst).length = out.length := List.length_map ..
      rw [if_pos (by omega), Nat.min_eq_left hroom.le, Nat.min_eq_left (Nat.succ_le_of_lt hroom),
        List.take_of_length_le (by omega), List.take_of_length_le (by simpa using hroom),
        List.set_append_right _ _ (by omega), hfst, Nat.sub_self, List.drop_eq_getElem_cons hroom,
        List.append_assoc]
      rfl
    · have hfull : buf.length ≤ out.length := Nat.le_of_not_lt hroom
      rw [if_neg (by omega), Nat.min_eq_right hfull, Nat.min_eq_right (by omega),
        List.drop_of_length_le hfull, List.drop_of_length_le (by omega),
        List.take_append_of_le_length (by simpa using hfull)]

/-- The buffer with as many of the characters as there is room for, and a NUL. -/
def bounded (buf cs : List UInt8) : List UInt8 :=
  if buf = [] then []
  else cs.take (buf.length - 1) ++ 0 :: buf.drop (min cs.length (buf.length - 1) + 1)

/-- `vsnprintf` ends the buffer with a NUL, at the end of the output or in its last byte. -/
theorem vsnprintf_of_vprintf {numbuf buf format : List UInt8} {args : List Arg}
    {out : List (UInt8 × ℤ)} (h : vprintf StringPrinter.putc numbuf ⟨buf, 0, 0⟩ 0 format args =
      .ok (emit StringPrinter.putc ⟨buf, 0, 0⟩ out)) :
    vsnprintf numbuf buf format args =
      .ok (bounded buf (out.map Prod.fst), toLong (out.length % 2 ^ 64)) := by
  have hfst : (out.map Prod.fst).length = out.length := List.length_map ..
  rw [vsnprintf, h, ok_bind, emit_stringPrinter]
  dsimp only
  by_cases hnil : buf = []
  · subst hnil
    rw [if_neg (fun h => h.1 rfl), if_neg (fun h => h rfl), bounded, if_pos rfl, List.length_nil,
      List.take_zero, List.drop_nil]
    rfl
  obtain ⟨last, hlast⟩ : ∃ n, buf.length = n + 1 :=
    Nat.exists_eq_succ_of_ne_zero (mt List.length_eq_zero_iff.1 hnil)
  rw [bounded, if_neg hnil, hfst, hlast, Nat.add_sub_cancel]
  by_cases hroom : out.length < last + 1
  · have hput : out.length < (out.map Prod.fst ++ buf.drop out.length).length := by
      rw [List.length_append, List.length_drop]
      omega
    rw [Nat.min_eq_left hroom.le, Nat.min_eq_left (Nat.le_of_lt_succ hroom), if_pos (by omega),
      List.take_of_length_le (by omega), List.take_of_length_le (by omega), put_ok hput,
      List.set_append_right _ _ hfst.le, hfst, Nat.sub_self,
      List.drop_eq_getElem_cons (by omega : out.length < buf.length)]
    rfl
  · have hmem : last < (out.map Prod.fst).length := by omega
    have hput : last < ((out.map Prod.fst).take (last + 1)).length := by
      rw [List.length_take]
      omega
    have htake : ((out.map Prod.fst).take last).length = last := by
      rw [List.length_take]
      omega
    rw [if_neg (by omega), if_pos (Nat.succ_ne_zero last), Nat.min_eq_right (by omega),
      List.drop_of_length_le (by omega), List.drop_of_length_le (by omega), List.append_nil,
      put_ok hput, ← List.take_append_getElem hmem, List.set_append_right _ _ htake.le, htake,
      Nat.sub_self]
    rfl

/-- **`vsnprintf` on every format** that is a text and its NUL, with the arguments it takes: it
    never reads behind the NUL and never writes outside `numbuf` or the buffer, leaves the
    characters that `vprintf` gives a printer, as many as there is room for, before a NUL, and
    returns how many they are. -/
theorem vsnprintf_safe (h0 : 0 ∉ text) (h : Matches (argKinds text) args) :
    ∃ out : List (UInt8 × ℤ), (∀ x ∈ out, x.1 ≠ 0) ∧
      (out.length < 2 ^ 63 → toLong (out.length % 2 ^ 64) = out.length) ∧
      ∀ rest numbuf, numbuf.length = NUMBUFSIZ →
        (∀ {σ : Type} (putc : σ → UInt8 → ℤ → σ) p,
          vprintf putc numbuf p 0 (text ++ 0 :: rest) args = .ok (emit putc p out)) ∧
        ∀ buf, vsnprintf numbuf buf (text ++ 0 :: rest) args =
          .ok (bounded buf (out.map Prod.fst), toLong (out.length % 2 ^ 64)) := by
  obtain ⟨out, hout, hloop⟩ := vprintfLoop_text h0 h 0
  have hprint : ∀ rest numbuf, numbuf.length = NUMBUFSIZ →
      ∀ {σ : Type} (putc : σ → UInt8 → ℤ → σ) p,
        vprintf putc numbuf p 0 (text ++ 0 :: rest) args = .ok (emit putc p out) := by
    intro rest numbuf hlen σ putc p
    refine hloop putc p rest numbuf _ hlen ?_
    rw [List.length_append]
    omega
  refine ⟨out, hout, fun hlt => ?_, fun rest numbuf hlen =>
    ⟨hprint rest numbuf hlen, fun buf => ?_⟩⟩
  · rw [Nat.mod_eq_of_lt (by omega), toLong_of_lt hlt]
  · exact vsnprintf_of_vprintf (hprint rest numbuf hlen _ _)

theorem vsnprintf_safe_cut : ∃ out : List (UInt8 × ℤ), ∀ buf,
    vsnprintf (List.replicate 24 7) buf (bytes "%*s|%-0" ++ [0]) [⟨3, []⟩, ⟨0, bytes "ab" ++ [0]⟩] =
      .ok (bounded buf (out.map Prod.fst), toLong (out.length % 2 ^ 64)) := by
  have hkinds : argKinds (bytes "%*s|%-0") = [.word, .string] := by
    have hbytes : bytes "%*s|%-0" = [37, 42, 115, 124, 37, 45, 48] := by decide
    have h₁ : (atConversion [42, 115, 124, 37, 45, 48]).drop 1 = [124, 37, 45, 48] := by decide
    have h₂ : (atConversion [45, 48]).drop 1 = [] := by decide
    rw [hbytes, argKinds, if_pos rfl, h₁, argKinds, if_neg (by decide), argKinds, if_pos rfl, h₂,
      argKinds]
    decide
  have hmatch : Matches (argKinds (bytes "%*s|%-0")) [⟨3, []⟩, ⟨0, bytes "ab" ++ [0]⟩] := by
    rw [hkinds]
    exact ⟨trivial, (by decide : 0 ∈ bytes "ab" ++ [0]), trivial⟩
  obtain ⟨out, -, -, hsafe⟩ := vsnprintf_safe (by decide) hmatch
  exact ⟨out, (hsafe [] (List.replicate 24 7) rfl).2⟩

example : vsnprintf (List.replicate 24 7) (List.replicate 4 9) (bytes "%*s|%-0" ++ [0])
    [⟨3, []⟩, ⟨0, bytes "ab" ++ [0]⟩] = .ok (bytes " ab" ++ [0], 5) := by decide +kernel

end CProj.Libc
