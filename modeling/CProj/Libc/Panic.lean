/-
  `panic` of the user processes (u-lib.cc).

  The message is formatted into the 153 bytes behind `PANIC: `, but the newline is appended where
  the whole message would have ended.  `panic` stays in its buffer exactly for the messages that
  fit (`panic_announces_iff`), but for those so long that their length as an `int` is short again.
-/
import CProj.Libc.Vsnprintf

namespace CProj.Libc

/-- `strcpy(&buf[i], src)` -/
def strcpy (buf : List UInt8) (i : ℕ) : List UInt8 → Except Fault (List UInt8)
  | [] => .error .outOfBounds
  | c :: src => do
    let buf ← put buf i c
    if c = 0 then return buf else strcpy buf (i + 1) src

def BUFSIZ : ℕ := 160

/-- The newline that `panic` appends. -/
def appendNewline (buf : List UInt8) (len : ℤ) : Except Fault (List UInt8) := do
  if len > 0 then
    if (← deref (buf.drop (len - 1).toNat)) ≠ ch '\n' then
      strcpy buf (len - if len = BUFSIZ - 1 then 1 else 0).toNat (bytes "\n" ++ [0])
    else return buf
  else return buf

/-- The string in a buffer. -/
def string (buf : List UInt8) : Except Fault (List UInt8) := do
  return buf.take (← strlen buf)

/-- `panic`, with the contents of the uninitialised `buf`: the string that it prints. -/
def panic (numbuf buf format : List UInt8) (args : List Arg) : Except Fault (List UInt8) := do
  let (tail, n) ← vsnprintf numbuf (buf.drop 7) format args
  let buf ← appendNewline (bytes "PANIC: " ++ tail) (toInt (n + 7))
  -- what `console_printf` shows
  string buf

/-- The string that `panic` should print. -/
def Announces (s : List UInt8) : Prop := bytes "PANIC: " <+: s ∧ s.getLast? = some 10

/-- What there is of the message in the buffer. -/
def shown (message : List UInt8) : List UInt8 := bytes "PANIC: " ++ message.take (BUFSIZ - 8)

/-- The length of the whole string, an `int`. -/
def panicLength (message : List UInt8) : ℤ := toInt ((message.length : ℤ) + 7)

/-- The messages that `panic` prints as it should: those that fit, and of those that do not the
    ones whose length as an `int` is less than that of the buffer, and which have a newline where
    the buffer ends or get one behind the prefix. -/
def PanicFits (message : List UInt8) : Prop :=
  message.length ≤ BUFSIZ - 8 ∨ panicLength message < BUFSIZ ∧
    if panicLength message ≤ 0 ∨ (shown message)[(panicLength message - 1).toNat]? = some 10
    then message[BUFSIZ - 9]? = some 10 else 7 ≤ panicLength message

variable {text : List UInt8} {args : List Arg} {numbuf buf format message : List UInt8}

theorem toInt_toLong (n : ℕ) : toInt (toLong (n % 2 ^ 64) + 7) = toInt ((n : ℤ) + 7) := by
  have hdvd : ∀ M : ℕ, (M : ℤ) ∣ Int.bmod ((n % M : ℕ) : ℤ) M - n := by
    intro M
    rw [Int.natCast_mod, Int.emod_bmod]
    exact Int.dvd_bmod_sub_self
  have hpow : ((2 ^ 32 : ℕ) : ℤ) ∣ ((2 ^ 64 : ℕ) : ℤ) :=
    Int.natCast_dvd_natCast.2 (pow_dvd_pow 2 (by decide))
  rw [toInt, toInt, Int.bmod_eq_bmod_iff_bmod_sub_eq_zero, ← Int.dvd_iff_bmod_eq_zero,
    add_sub_add_right_eq_sub]
  exact hpow.trans (hdvd (2 ^ 64))

/-- Copying a newline and its NUL. -/
theorem strcpy_newline {i : ℕ} (h : i + 1 < buf.length) :
    strcpy buf i (bytes "\n" ++ [0]) = .ok (buf.take i ++ 10 :: 0 :: buf.drop (i + 2)) := by
  have hbytes : bytes "\n" ++ [0] = [10, 0] := by decide
  have hlen : (buf.take i).length = i := List.length_take_of_le (by omega)
  rw [hbytes, strcpy, put_ok (by omega), ok_bind, if_neg (by decide), strcpy,
    put_ok (by rwa [List.length_set]), ok_bind, if_pos rfl]
  rw [List.set_eq_take_append_cons_drop (l := buf), if_pos (by omega),
    List.set_append_right _ _ (by omega), hlen, Nat.add_sub_cancel_left,
    List.drop_eq_getElem_cons h]
  rfl

theorem strcpy_error {i : ℕ} {c : UInt8} {src : List UInt8} (h : buf.length ≤ i) :
    strcpy buf i (c :: src) = .error .outOfBounds := by
  rw [strcpy, put, if_neg (Nat.not_lt.2 h)]
  rfl

theorem deref_drop {i : ℕ} {c : UInt8} (h : buf[i]? = some c) :
    deref (buf.drop i) = .ok (char c) := by
  obtain ⟨hi, rfl⟩ := List.getElem?_eq_some_iff.1 h
  rw [List.drop_eq_getElem_cons hi, deref]

theorem zero_not_mem_shown (h : 0 ∉ message) : 0 ∉ shown message := by
  have hstart : 0 ∉ bytes "PANIC: " := by decide
  rw [shown, List.mem_append, not_or]
  exact ⟨hstart, fun hmem => h (List.mem_of_mem_take hmem)⟩

theorem length_shown (message : List UInt8) :
    (shown message).length = 7 + min (BUFSIZ - 8) message.length := by
  have hstart : (bytes "PANIC: ").length = 7 := by decide
  rw [shown, List.length_append, hstart, List.length_take]

theorem string_text (h : 0 ∉ text) (junk : List UInt8) : string (text ++ 0 :: junk) = .ok text := by
  rw [string, strlen_text h, ok_bind, List.take_left]
  rfl

section
variable {s junk : List UInt8} {len : ℤ}

/-- Without a newline to append, the string is the one in the buffer. -/
theorem string_of_newline (h0 : 0 ∉ s) (h : len ≤ 0 ∨ s[(len - 1).toNat]? = some 10) :
    (appendNewline (s ++ 0 :: junk) len >>= string) = .ok s := by
  suffices happend : appendNewline (s ++ 0 :: junk) len = .ok (s ++ 0 :: junk) by
    rw [happend, ok_bind, string_text h0]
  unfold appendNewline
  by_cases hpos : len > 0
  · have hread := h.resolve_left (not_le.2 hpos)
    obtain ⟨hi, -⟩ := List.getElem?_eq_some_iff.1 hread
    rw [if_pos hpos, deref_drop ((List.getElem?_append_left hi).trans hread), ok_bind,
      if_neg (not_not.2 (by decide))]
    rfl
  · rw [if_neg hpos]
    rfl

/-- Where the newline is copied to. -/
def newlineAt (len : ℤ) : ℕ := (len - if len = BUFSIZ - 1 then 1 else 0).toNat

theorem string_append (h0 : 0 ∉ s) (hlen : (s ++ 0 :: junk).length = BUFSIZ)
    (hpos : 0 < len) (hlt : len < BUFSIZ) (hle : len ≤ s.length)
    (h : s[(len - 1).toNat]? ≠ some 10) :
    (appendNewline (s ++ 0 :: junk) len >>= string) = .ok (s.take (newlineAt len) ++ [10]) := by
  have hB : (BUFSIZ : ℤ) = 160 := rfl
  have hi : (len - 1).toNat < s.length := by omega
  have hread : (s ++ 0 :: junk)[(len - 1).toNat]? = some s[(len - 1).toNat] := by
    rw [List.getElem?_append_left hi, List.getElem?_eq_getElem hi]
  have hne : s[(len - 1).toNat] ≠ 10 := by
    rwa [List.getElem?_eq_getElem hi, ne_eq, Option.some.injEq] at h
  have hfit : newlineAt len + 1 < BUFSIZ ∧ newlineAt len ≤ s.length := by
    unfold newlineAt
    split_ifs <;> constructor <;> omega
  have hzero : 0 ∉ s.take (newlineAt len) ++ [10] := by
    rw [List.mem_append, not_or]
    exact ⟨fun hmem => h0 (List.mem_of_mem_take hmem), by decide⟩
  rw [appendNewline, if_pos hpos, deref_drop hread, ok_bind,
    if_pos (mt (char_eq_iff (d := 10) rfl).1 hne), ← newlineAt,
    strcpy_newline (by rw [hlen]; exact hfit.1), List.take_append_of_le_length hfit.2, ok_bind,
    List.append_cons, string_text hzero]

/-- A message that fills the buffer, and is longer. -/
theorem appendNewline_error (hs : s.length = BUFSIZ - 1) (hge : BUFSIZ ≤ len) :
    appendNewline (s ++ [0]) len = .error .outOfBounds := by
  have hB : BUFSIZ = 160 := rfl
  have hend : (s ++ [0]).length = BUFSIZ := by rw [List.length_append, hs]; rfl
  rw [appendNewline, if_pos (by omega)]
  by_cases heq : len = BUFSIZ
  · -- the last byte is the NUL, and the newline is copied behind it
    have hread : (s ++ [0])[(len - 1).toNat]? = some 0 := by
      rw [List.getElem?_append_right (by omega), show (len - 1).toNat - s.length = 0 by omega]
      rfl
    have hbytes : bytes "\n" ++ [0] = [10, 0] := by decide
    rw [deref_drop hread, ok_bind, if_pos (by decide), if_neg (by omega), hbytes,
      strcpy_error (by omega)]
  · rw [List.drop_of_length_le (by omega)]
    rfl

end

/-- The buffer before the newline is appended. -/
theorem panic_eq (h : vsnprintf numbuf (buf.drop 7) format args =
      .ok (bounded (buf.drop 7) message, toLong (message.length % 2 ^ 64)))
    (hbuf : buf.length = BUFSIZ) :
    ∃ junk, (shown message ++ 0 :: junk).length = BUFSIZ ∧
      panic numbuf buf format args =
        appendNewline (shown message ++ 0 :: junk) (panicLength message) >>= string := by
  have hB : BUFSIZ = 160 := rfl
  have hlen : (buf.drop 7).length = BUFSIZ - 7 := by rw [List.length_drop, hbuf]
  have hnil : buf.drop 7 ≠ [] := fun hnil => by rw [hnil] at hlen; cases hlen
  refine ⟨(buf.drop 7).drop (min message.length (BUFSIZ - 8) + 1), ?_, ?_⟩
  · rw [List.length_append, length_shown, List.length_cons, List.length_drop, hlen]
    omega
  · rw [panic, h, ok_bind, bounded, if_neg hnil, hlen, panicLength, shown, List.append_assoc]
    dsimp only
    rw [toInt_toLong]
    rfl

theorem announces_append {i : ℕ} (hi : 7 ≤ i) (message : List UInt8) :
    Announces ((shown message).take i ++ [10]) := by
  have hstart : (bytes "PANIC: ").length = 7 := by decide
  constructor
  · rw [shown, List.take_append, hstart, List.take_of_length_le (by omega), List.append_assoc]
    exact List.prefix_append _ _
  · exact List.getLast?_concat

/-- A newline in the middle of the prefix. -/
theorem not_announces_append {i : ℕ} (hi : i < 7) (message : List UInt8) :
    ¬ Announces ((shown message).take i ++ [10]) := by
  have hbytes : bytes "PANIC: " = [80, 65, 78, 73, 67, 58, 32] := by decide
  rintro ⟨hstart, -⟩
  have hlong := hstart.length_le
  rw [List.length_append, List.length_take, hbytes] at hlong
  obtain rfl : i = 6 := by
    simp only [List.length_cons, List.length_nil] at hlong
    omega
  rw [shown, hbytes] at hstart
  have heq := hstart.eq_of_length (by simp)
  exact absurd heq (by simp)

theorem announces_shown : Announces (shown message) ↔ (shown message).getLast? = some 10 := by
  rw [Announces, and_iff_right]
  exact List.prefix_append _ _

theorem getLast?_shown (hlen : BUFSIZ - 8 ≤ message.length) :
    (shown message).getLast? = message[BUFSIZ - 9]? := by
  have hB : BUFSIZ = 160 := rfl
  have hstart : (bytes "PANIC: ").length = 7 := by decide
  rw [List.getLast?_eq_getElem?, length_shown, shown, List.getElem?_append_right (by omega),
    hstart, List.getElem?_take_of_lt (by omega)]
  congr 1
  omega

section
variable {junk : List UInt8} (h0 : 0 ∉ shown message)
  (hfull : (shown message ++ 0 :: junk).length = BUFSIZ)
include h0 hfull

/-- A message that fits. -/
theorem announces_of_room (hroom : message.length ≤ BUFSIZ - 8) :
    ∃ s, (appendNewline (shown message ++ 0 :: junk) (panicLength message) >>= string) = .ok s ∧
      Announces s := by
  have hB : BUFSIZ = 160 := rfl
  have hlen := length_shown message
  have hpl : panicLength message = message.length + 7 := by
    have hint : toInt (message.length + 7 : ℕ) = (message.length + 7 : ℕ) :=
      toInt_of_lt (by omega)
    rwa [Nat.cast_add, Nat.cast_ofNat, ← panicLength] at hint
  by_cases hnewline : (shown message)[(panicLength message - 1).toNat]? = some 10
  · refine ⟨_, string_of_newline h0 (.inr hnewline), announces_shown.2 ?_⟩
    have hidx : (panicLength message - 1).toNat = (shown message).length - 1 := by omega
    exact List.getLast?_eq_getElem?.trans ((congrArg _ hidx).symm.trans hnewline)
  · have hi : 7 ≤ newlineAt (panicLength message) := by
      unfold newlineAt
      split_ifs <;> omega
    exact ⟨_, string_append h0 hfull (by omega) (by omega) (by omega) hnewline,
      announces_append hi message⟩

/-- A message that does not. -/
theorem announces_of_cut (hcut : BUFSIZ - 8 < message.length) :
    (∃ s, (appendNewline (shown message ++ 0 :: junk) (panicLength message) >>= string) = .ok s ∧
      Announces s) ↔ PanicFits message := by
  have hB : BUFSIZ = 160 := rfl
  have hlen := length_shown message
  rw [PanicFits, or_iff_right (by omega)]
  by_cases hshort : panicLength message < BUFSIZ
  · rw [and_iff_right hshort]
    by_cases hnewline : panicLength message ≤ 0 ∨
        (shown message)[(panicLength message - 1).toNat]? = some 10
    · rw [if_pos hnewline, string_of_newline h0 hnewline, ← getLast?_shown hcut.le,
        ← announces_shown]
      exact ⟨fun ⟨s, hs, hann⟩ => Except.ok.inj hs ▸ hann, fun hann => ⟨_, rfl, hann⟩⟩
    · rw [not_or, not_le] at hnewline
      rw [if_neg (not_or.2 ⟨not_le.2 hnewline.1, hnewline.2⟩),
        string_append h0 hfull hnewline.1 hshort (by omega) hnewline.2]
      by_cases h7 : 7 ≤ panicLength message
      · have hi : 7 ≤ newlineAt (panicLength message) := by
          unfold newlineAt
          split_ifs <;> omega
        exact ⟨fun _ => h7, fun _ => ⟨_, rfl, announces_append hi message⟩⟩
      · have hi : newlineAt (panicLength message) < 7 := by
          unfold newlineAt
          split_ifs <;> omega
        refine ⟨fun ⟨s, hs, hann⟩ => ?_, fun h => absurd h h7⟩
        rw [← Except.ok.inj hs] at hann
        exact absurd hann (not_announces_append hi message)
  · have hjunk : junk = [] := by
      rw [← List.length_eq_zero_iff]
      rw [List.length_append, List.length_cons] at hfull
      omega
    rw [hjunk, appendNewline_error (by omega) (not_lt.1 hshort)]
    constructor
    · rintro ⟨s, hs, -⟩
      cases hs
    · rintro ⟨h, -⟩
      exact absurd h hshort

end

/-- **`panic`** prints a line that starts with `PANIC: `, and stays in its buffer, exactly for the
    messages that fit. -/
theorem panic_announces_iff (h0 : 0 ∉ text) (h : Matches (argKinds text) args) (rest : List UInt8)
    (hnumbuf : numbuf.length = NUMBUFSIZ) (hbuf : buf.length = BUFSIZ) :
    ∃ out : List (UInt8 × ℤ),
      (∀ {σ : Type} (putc : σ → UInt8 → ℤ → σ) p,
        vprintf putc numbuf p 0 (text ++ 0 :: rest) args = .ok (emit putc p out)) ∧
      ((∃ s, panic numbuf buf (text ++ 0 :: rest) args = .ok s ∧ Announces s) ↔
        PanicFits (out.map Prod.fst)) := by
  obtain ⟨out, hout, -, hsafe⟩ := vsnprintf_safe h0 h
  obtain ⟨hprint, hbound⟩ := hsafe rest numbuf hnumbuf
  refine ⟨out, hprint, ?_⟩
  obtain ⟨message, hmessage⟩ : ∃ cs, cs = out.map Prod.fst := ⟨_, rfl⟩
  have hzero : 0 ∉ shown message := by
    refine zero_not_mem_shown ?_
    rw [hmessage]
    intro hmem
    obtain ⟨x, hx, h⟩ := List.mem_map.1 hmem
    exact hout x hx h
  have hlen : message.length = out.length := hmessage ▸ List.length_map ..
  have hthis := hbound (buf.drop 7)
  rw [← hmessage, ← hlen] at hthis
  obtain ⟨junk, hfull, hpanic⟩ := panic_eq hthis hbuf
  rw [← hmessage, hpanic]
  by_cases hroom : message.length ≤ BUFSIZ - 8
  · exact iff_of_true (announces_of_room hzero hfull hroom) (.inl hroom)
  · exact announces_of_cut hzero hfull (not_le.1 hroom)

theorem panic_announces_iff_hello : ∃ out : List (UInt8 × ℤ),
    (∃ s, panic (List.replicate 24 7) (List.replicate 160 9) (bytes "hello" ++ [0]) [] = .ok s ∧
      Announces s) ↔ PanicFits (out.map Prod.fst) := by
  have hkinds : Matches (argKinds (bytes "hello")) [] := by
    have hbytes : bytes "hello" = [104, 101, 108, 108, 111] := by decide
    rw [hbytes, argKinds, if_neg (by decide), argKinds, if_neg (by decide), argKinds,
      if_neg (by decide), argKinds, if_neg (by decide), argKinds, if_neg (by decide), argKinds]
    exact trivial
  have hnumbuf : (List.replicate 24 (7 : UInt8)).length = NUMBUFSIZ := rfl
  have hbuf : (List.replicate 160 (9 : UInt8)).length = BUFSIZ := rfl
  obtain ⟨out, -, hiff⟩ := panic_announces_iff (by decide) hkinds [] hnumbuf hbuf
  exact ⟨out, hiff⟩

/-- A message of 153 characters: the newline is copied behind the buffer. -/
theorem panic_leaves_buffer :
    panic (List.replicate 24 7) (List.replicate 160 9) (List.replicate 153 97 ++ [0]) [] =
      .error .outOfBounds := by decide +kernel

example : panic (List.replicate 24 7) (List.replicate 160 9) (List.replicate 152 97 ++ [0]) [] =
    .ok (bytes "PANIC: " ++ List.replicate 151 97 ++ [10]) := by decide +kernel

end CProj.Libc
