/-
  The keyboard (`keyboard_readc` and the keys of `check_keyboard` in `weensyos/k-hardware.cc`).

  * `keyboardReadc` reads one byte of the controller, with the state that it keeps between two calls.
    The bits of `modifiers` are those of the source: shift, control, alt, caps lock, num lock, scroll
    lock.
  * A `KeyEvent` is what the controller reports of a key, as one or two bytes.  `Held` and `Toggled`
    are functions of the events alone: whether the last event of a key with some meaning was a
    press, and whether there were an odd number of presses of one.
  * `keyboard_reads`: after any sequence of events the bits are those of the events.
    `check_keyboard_obeys`: which event makes the kernel restart, with which command, or turn the
    machine off.
-/
import Mathlib.Data.Int.Notation
import Mathlib.Data.List.Basic
import Mathlib.Tactic.Common

namespace CProj.WeensyOS

/-! ## The source -/

def KEY_SHIFT : ℕ := 0xFA
def KEY_CONTROL : ℕ := 0xFB
def KEY_ALT : ℕ := 0xFC
def KEY_CAPSLOCK : ℕ := 0xFD
def KEY_NUMLOCK : ℕ := 0xFE
def KEY_SCROLLLOCK : ℕ := 0xFF
def KEY_UP : ℕ := 0xC0
def KEY_RIGHT : ℕ := 0xC1
def KEY_DOWN : ℕ := 0xC2
def KEY_LEFT : ℕ := 0xC3
def KEY_HOME : ℕ := 0xC4
def KEY_END : ℕ := 0xC5
def KEY_PAGEUP : ℕ := 0xC6
def KEY_PAGEDOWN : ℕ := 0xC7
def KEY_INSERT : ℕ := 0xC8
def KEY_DELETE : ℕ := 0xC9

def CKEY (cn : ℕ) : ℕ := 0x80 + cn

/-- `keymap`, one list for every 16 codes. -/
def keymap : List (List ℕ) :=
  [[0, 0x1B, CKEY 0, CKEY 1, CKEY 2, CKEY 3, CKEY 4, CKEY 5, CKEY 6, CKEY 7, CKEY 8, CKEY 9, CKEY 10,
    CKEY 11, 8, 9],
   ['q'.toNat, 'w'.toNat, 'e'.toNat, 'r'.toNat, 't'.toNat, 'y'.toNat, 'u'.toNat, 'i'.toNat,
    'o'.toNat, 'p'.toNat, CKEY 12, CKEY 13, CKEY 14, KEY_CONTROL, 'a'.toNat, 's'.toNat],
   ['d'.toNat, 'f'.toNat, 'g'.toNat, 'h'.toNat, 'j'.toNat, 'k'.toNat, 'l'.toNat, CKEY 15,
    CKEY 16, CKEY 17, KEY_SHIFT, CKEY 18, 'z'.toNat, 'x'.toNat, 'c'.toNat, 'v'.toNat],
   ['b'.toNat, 'n'.toNat, 'm'.toNat, CKEY 19, CKEY 20, CKEY 21, KEY_SHIFT, '*'.toNat,
    KEY_ALT, ' '.toNat, KEY_CAPSLOCK, 0, 0, 0, 0, 0],
   [0, 0, 0, 0, 0, KEY_NUMLOCK, KEY_SCROLLLOCK, '7'.toNat,
    '8'.toNat, '9'.toNat, '-'.toNat, '4'.toNat, '5'.toNat, '6'.toNat, '+'.toNat, '1'.toNat],
   ['2'.toNat, '3'.toNat, '0'.toNat, '.'.toNat],
   [], [], [],
   [0, 0, 0, 0, 0, 0, 0, 0, 0, 0, 0, 0, CKEY 14, KEY_CONTROL],
   [],
   [0, 0, 0, 0, 0, '/'.toNat, 0, 0, KEY_ALT],
   [0, 0, 0, 0, 0, 0, 0, KEY_HOME, KEY_UP, KEY_PAGEUP, 0, KEY_LEFT, 0, KEY_RIGHT, 0, KEY_END],
   [KEY_DOWN, KEY_PAGEDOWN, KEY_INSERT, KEY_DELETE],
   [], []]

/-- `keymap[i]`; the zeros at the end of a line are left out. -/
def keymapAt (i : ℕ) : ℕ := (keymap.getD (i / 16) []).getD (i % 16) 0

def complexKeymap : List (List ℕ) :=
  [['1'.toNat, '!'.toNat, 0, 0], ['2'.toNat, '@'.toNat, 0, 0],
   ['3'.toNat, '#'.toNat, 0, 0], ['4'.toNat, '$'.toNat, 0, 0],
   ['5'.toNat, '%'.toNat, 0, 0], ['6'.toNat, '^'.toNat, 0, 0x1E],
   ['7'.toNat, '&'.toNat, 0, 0], ['8'.toNat, '*'.toNat, 0, 0],
   ['9'.toNat, '('.toNat, 0, 0], ['0'.toNat, ')'.toNat, 0, 0],
   ['-'.toNat, '_'.toNat, 0, 0x1F], ['='.toNat, '+'.toNat, 0, 0],
   ['['.toNat, '\x7b'.toNat, 0x1B, 0], [']'.toNat, '\x7d'.toNat, 0x1D, 0],
   ['\n'.toNat, '\n'.toNat, '\r'.toNat, '\r'.toNat],
   [';'.toNat, ':'.toNat, 0, 0],
   [0x27, 0x22, 0, 0], [0x60, '~'.toNat, 0, 0],
   [0x5C, '|'.toNat, 0x1C, 0], [','.toNat, '<'.toNat, 0, 0],
   ['.'.toNat, '>'.toNat, 0, 0], ['/'.toNat, '?'.toNat, 0, 0]]

def complexKeymapAt (n m : ℕ) : ℕ := (complexKeymap.getD n []).getD m 0

/-- The static variables of `keyboard_readc`. -/
structure Keyboard where
  modifiers : BitVec 8
  lastEscape : ℕ
  deriving DecidableEq, Repr

/-- The bits that a key sets. -/
def modifierBit (ch : ℕ) : BitVec 8 := 1#8 <<< (ch - KEY_SHIFT)

def MOD_SHIFT : BitVec 8 := 1#8 <<< 0
def MOD_CONTROL : BitVec 8 := 1#8 <<< 1
def MOD_CAPSLOCK : BitVec 8 := 1#8 <<< 3

/-- The release of a key: it matters only for modifier keys. -/
def keyRelease (modifiers : BitVec 8) (ch : ℕ) : BitVec 8 :=
  if KEY_SHIFT ≤ ch ∧ ch < KEY_CAPSLOCK then modifiers &&& ~~~modifierBit ch else modifiers

/-- The press of a key: the character, and the modifiers. -/
def keyPress (modifiers : BitVec 8) (ch : ℕ) : ℕ × BitVec 8 :=
  if 'a'.toNat ≤ ch ∧ ch ≤ 'z'.toNat then
    if modifiers &&& MOD_CONTROL ≠ 0 then (ch - 0x60, modifiers)
    else if decide (modifiers &&& MOD_SHIFT = 0) ≠ decide (modifiers &&& MOD_CAPSLOCK = 0) then
      (ch - 0x20, modifiers)
    else (ch, modifiers)
  else if KEY_CAPSLOCK ≤ ch then (0, modifiers ^^^ modifierBit ch)
  else if KEY_SHIFT ≤ ch then (0, modifiers ||| modifierBit ch)
  else if CKEY 0 ≤ ch ∧ ch ≤ CKEY 21 then
    (complexKeymapAt (ch - CKEY 0) (modifiers &&& 3).toNat, modifiers)
  else if ch < 0x80 ∧ modifiers &&& MOD_CONTROL ≠ 0 then (0, modifiers)
  else (ch, modifiers)

/-- `keyboard_readc`, where the controller has the byte `data`. -/
def keyboardReadc (kb : Keyboard) : Option UInt8 → ℤ × Keyboard
  | none => (-1, kb)
  | some data =>
    if data = 0xE0 then (0, ⟨kb.modifiers, 0x80⟩)
    else if data &&& 0x80 ≠ 0 then
      (0, ⟨keyRelease kb.modifiers (keymapAt ((data &&& 0x7F).toNat ||| kb.lastEscape)), 0⟩)
    else
      let (ch, modifiers) := keyPress kb.modifiers (keymapAt (data.toNat ||| kb.lastEscape))
      (ch, ⟨modifiers, 0⟩)

/-- What `check_keyboard` does with a character. -/
inductive Verdict where
  | none
  | reboot (argument : String)
  | poweroff
  deriving DecidableEq, Repr

def verdict (c : ℤ) : Verdict :=
  if c = 'a'.toNat ∨ c = 'f'.toNat ∨ c = 'e'.toNat then
    .reboot (if c = 'a'.toNat then "allocators" else if c = 'e'.toNat then "forkexit" else "fork")
  else if c = 3 ∨ c = 'q'.toNat then .poweroff
  else .none

def checkKeyboard (kb : Keyboard) (data : Option UInt8) : Verdict × Keyboard :=
  let (c, kb) := keyboardReadc kb data
  (verdict c, kb)

/-! ## Key events -/

/-- A key that is pressed or released.  The controller has no byte for the release of key 0x60, since
    0xE0 announces the second half of the keys. -/
structure KeyEvent where
  /-- the key is one of the second half -/
  escaped : Bool
  code : ℕ
  pressed : Bool
  code_lt : code < 0x80
  reported : code = 0x60 → pressed = true

namespace KeyEvent

/-- What the controller sends. -/
def bytes (e : KeyEvent) : List UInt8 :=
  (if e.escaped then [0xE0] else []) ++ [UInt8.ofNat (if e.pressed then e.code else e.code + 0x80)]

/-- The meaning of the key in `keymap`. -/
def meaning (e : KeyEvent) : ℕ := keymapAt (if e.escaped then e.code + 0x80 else e.code)

/-- The last event of a key that means `ch` is a press. -/
def Held (ch : ℕ) (es : List KeyEvent) : Bool :=
  es.foldl (fun b e => if e.meaning = ch then e.pressed else b) false

/-- The number of presses of keys that mean `ch` is odd. -/
def Toggled (ch : ℕ) (es : List KeyEvent) : Bool :=
  es.foldl (fun b e => if e.meaning = ch ∧ e.pressed = true then !b else b) false

/-- The bit of `modifiers` for a key. -/
def On (ch : ℕ) (es : List KeyEvent) : Bool :=
  if ch < KEY_CAPSLOCK then Held ch es else Toggled ch es

/-- The character of a key that means `ch`, after the events `es`. -/
def character (es : List KeyEvent) (ch : ℕ) : ℕ :=
  if 'a'.toNat ≤ ch ∧ ch ≤ 'z'.toNat then
    if On KEY_CONTROL es then ch - 0x60
    else if On KEY_SHIFT es = On KEY_CAPSLOCK es then ch else ch - 0x20
  else if KEY_SHIFT ≤ ch then 0
  else if CKEY 0 ≤ ch ∧ ch ≤ CKEY 21 then
    complexKeymapAt (ch - CKEY 0) ((On KEY_SHIFT es).toNat + 2 * (On KEY_CONTROL es).toNat)
  else if ch < 0x80 ∧ On KEY_CONTROL es = true then 0
  else ch

/-- What should be read of an event after the events `es`. -/
def chars (es : List KeyEvent) (e : KeyEvent) : List ℤ :=
  (if e.escaped then [0] else []) ++ [((if e.pressed then character es e.meaning else 0 : ℕ) : ℤ)]

/-- What the event should make `check_keyboard` do: a letter counts with control released, and with
    shift held exactly if caps lock is on. -/
def command (es : List KeyEvent) (e : KeyEvent) : Verdict :=
  if e.pressed = false then .none
  else if On KEY_CONTROL es then if e.meaning = 'c'.toNat then .poweroff else .none
  else if On KEY_SHIFT es = On KEY_CAPSLOCK es then
    if e.meaning = 'a'.toNat then .reboot "allocators"
    else if e.meaning = 'e'.toNat then .reboot "forkexit"
    else if e.meaning = 'f'.toNat then .reboot "fork"
    else if e.meaning = 'q'.toNat then .poweroff
    else .none
  else .none

end KeyEvent

open KeyEvent

variable {kb : Keyboard} {es : List KeyEvent} {e : KeyEvent}

/-- The state of `keyboard_readc` shows the events. -/
structure Keyboard.Shows (kb : Keyboard) (es : List KeyEvent) : Prop where
  noEscape : kb.lastEscape = 0
  modifiers : ∀ i, kb.modifiers.getLsbD i = (decide (i < 6) && On (KEY_SHIFT + i) es)

theorem start_shows : (⟨0, 0⟩ : Keyboard).Shows [] := by
  refine ⟨rfl, fun i => ?_⟩
  rw [On, Held, Toggled, List.foldl_nil, List.foldl_nil, ite_self, Bool.and_false]
  exact BitVec.getLsbD_zero

theorem held_append {ch : ℕ} : Held ch (es ++ [e]) = if e.meaning = ch then e.pressed else Held ch es := by
  rw [Held, List.foldl_append]
  rfl

theorem toggled_append {ch : ℕ} : Toggled ch (es ++ [e]) =
    if e.meaning = ch ∧ e.pressed = true then !Toggled ch es else Toggled ch es := by
  rw [Toggled, List.foldl_append]
  rfl

theorem modifierBit_getLsbD {n : ℕ} (hn : n < 6) (i : ℕ) :
    (modifierBit (KEY_SHIFT + n)).getLsbD i = decide (i = n) := by
  rw [modifierBit, Nat.add_sub_cancel_left, BitVec.getLsbD_shiftLeft, BitVec.getLsbD_one]
  rw [Bool.eq_iff_iff]
  simp only [Bool.and_eq_true, Bool.not_eq_true', decide_eq_true_eq, decide_eq_false_iff_not]
  omega

/-- What holds of all entries of the table. -/
theorem keymapAt_all (P : ℕ → Prop) (h0 : P 0) (hall : ∀ l ∈ keymap, ∀ ch ∈ l, P ch) (i : ℕ) :
    P (keymapAt i) := by
  rw [keymapAt, List.getD_eq_getElem?_getD, List.getD_eq_getElem?_getD]
  rcases hl : keymap[i / 16]? with _ | l
  · exact h0
  · rw [Option.getD_some]
    rcases hch : l[i % 16]? with _ | ch
    · exact h0
    · exact hall l (List.mem_of_getElem? hl) ch (List.mem_of_getElem? hch)

theorem keymapAt_lt (i : ℕ) : keymapAt i < 256 := keymapAt_all (· < 256) (by decide) (by decide) i

theorem keymapAt_ne_three (i : ℕ) : keymapAt i ≠ 3 := keymapAt_all (· ≠ 3) (by decide) (by decide) i

/-- What a press does to the modifiers. -/
theorem keyPress_modifiers (m : BitVec 8) (ch : ℕ) : (keyPress m ch).2 =
    if ch < KEY_SHIFT then m
    else if ch < KEY_CAPSLOCK then m ||| modifierBit ch else m ^^^ modifierBit ch := by
  have ha : 'a'.toNat = 97 := rfl
  have hz : 'z'.toNat = 122 := rfl
  rw [keyPress, ha, hz]
  by_cases h1 : ch < KEY_SHIFT
  · have h2 : ¬ KEY_CAPSLOCK ≤ ch := by simp only [KEY_CAPSLOCK, KEY_SHIFT] at h1 ⊢; omega
    rw [if_pos h1, if_neg h2, if_neg (Nat.not_le.2 h1)]
    split_ifs <;> rfl
  · have h2 : ¬ (97 ≤ ch ∧ ch ≤ 122) := by simp only [KEY_SHIFT] at h1; omega
    rw [if_neg h1, if_neg h2, if_pos (Nat.not_lt.1 h1)]
    by_cases h3 : ch < KEY_CAPSLOCK
    · rw [if_pos h3, if_neg (Nat.not_le.2 h3)]
    · rw [if_neg h3, if_pos (Nat.not_lt.1 h3)]

/-- The bits after the press or release of a modifier key. -/
theorem modifiers_next {m : BitVec 8} {n i : ℕ} (hn : n < 6) (pressed : Bool) :
    (if pressed then (keyPress m (KEY_SHIFT + n)).2 else keyRelease m (KEY_SHIFT + n)).getLsbD i =
      if i = n then
        if n < 3 then pressed else if pressed then !m.getLsbD i else m.getLsbD i
      else m.getLsbD i := by
  have hbit := modifierBit_getLsbD hn i
  have hge : ¬ KEY_SHIFT + n < KEY_SHIFT := by omega
  have hlock : KEY_SHIFT + n < KEY_CAPSLOCK ↔ n < 3 := by
    simp only [KEY_SHIFT, KEY_CAPSLOCK]
    omega
  by_cases hi : i < 8
  · rw [keyPress_modifiers, keyRelease, if_neg hge]
    simp only [hlock, show KEY_SHIFT ≤ KEY_SHIFT + n by omega, true_and]
    have hand : (m &&& ~~~modifierBit (KEY_SHIFT + n)).getLsbD i = (m.getLsbD i && !decide (i = n)) := by
      rw [BitVec.getLsbD_and, BitVec.getLsbD_not, hbit, decide_eq_true hi, Bool.true_and]
    have hor : (m ||| modifierBit (KEY_SHIFT + n)).getLsbD i = (m.getLsbD i || decide (i = n)) := by
      rw [BitVec.getLsbD_or, hbit]
    have hxor : (m ^^^ modifierBit (KEY_SHIFT + n)).getLsbD i = (m.getLsbD i ^^ decide (i = n)) := by
      rw [BitVec.getLsbD_xor, hbit]
    by_cases heq : i = n <;> by_cases h3 : n < 3 <;> cases pressed
    all_goals simp only [h3, if_true, if_false, Bool.false_eq_true, hand, hor, hxor]
    all_goals simp [heq]
  · rw [if_neg (show ¬ i = n by omega), BitVec.getLsbD_of_ge _ _ (by omega),
      BitVec.getLsbD_of_ge _ _ (by omega)]

theorem keyRelease_modifiers_lt {m : BitVec 8} {ch : ℕ} (h : ch < KEY_SHIFT) : keyRelease m ch = m :=
  if_neg fun hch => absurd hch.1 (Nat.not_le.2 h)

/-- The bits after an event are those of the events. -/
theorem Keyboard.Shows.next (h : kb.Shows es) : Keyboard.Shows
    ⟨if e.pressed then (keyPress kb.modifiers e.meaning).2 else keyRelease kb.modifiers e.meaning, 0⟩
    (es ++ [e]) := by
  refine ⟨rfl, fun i => ?_⟩
  have hbit := h.modifiers i
  by_cases hlt : e.meaning < KEY_SHIFT
  · -- not a modifier key
    have hne : ∀ i, e.meaning ≠ KEY_SHIFT + i := fun i => by omega
    rw [keyPress_modifiers, if_pos hlt, keyRelease_modifiers_lt hlt, ite_self, hbit, On, On, held_append,
      toggled_append]
    simp only [hne i, if_false, false_and]
  · obtain ⟨n, hn⟩ : ∃ n, e.meaning = KEY_SHIFT + n := ⟨e.meaning - KEY_SHIFT, by omega⟩
    have hn6 : n < 6 := by
      have : e.meaning < 256 := keymapAt_lt _
      simp only [KEY_SHIFT] at hn
      omega
    have hlock : KEY_SHIFT + i < KEY_CAPSLOCK ↔ i < 3 := by
      simp only [KEY_SHIFT, KEY_CAPSLOCK]
      omega
    rw [hn, modifiers_next hn6, hbit, On, On, held_append, toggled_append, hn]
    simp only [hlock, Nat.add_left_cancel_iff]
    by_cases heq : i = n
    · subst heq
      simp only [hn6, if_true, decide_true, Bool.true_and, true_and]
      cases e.pressed <;> split_ifs <;> simp
    · have hne : ¬ n = i := fun h => heq h.symm
      simp only [heq, hne, if_false, false_and]

/-! ## Characters -/

theorem and_bit_eq_zero (m : BitVec 8) {n : ℕ} (hn : n < 8) :
    m &&& 1#8 <<< n = 0 ↔ m.getLsbD n = false := by
  have hbit : (1#8 <<< n).getLsbD n = true := by
    rw [BitVec.getLsbD_shiftLeft, BitVec.getLsbD_one, Nat.sub_self]
    simp [hn]
  rw [← BitVec.twoPow_eq, BitVec.and_twoPow, BitVec.twoPow_eq]
  cases m.getLsbD n
  · exact iff_of_true rfl rfl
  · refine iff_of_false (fun h => ?_) (by decide)
    rw [if_pos rfl] at h
    rw [h] at hbit
    exact absurd hbit (by rw [show (0 : BitVec 8) = 0#8 from rfl, BitVec.getLsbD_zero]; decide)

theorem and_three (m : BitVec 8) : (m &&& 3).toNat = (m.getLsbD 0).toNat + 2 * (m.getLsbD 1).toNat := by
  revert m
  decide

theorem Keyboard.Shows.on (h : kb.Shows es) {n : ℕ} (hn : n < 6) :
    kb.modifiers.getLsbD n = On (KEY_SHIFT + n) es := by
  rw [h.modifiers, decide_eq_true hn, Bool.true_and]

/-- The character that a press gives. -/
theorem Keyboard.Shows.press (h : kb.Shows es) (ch : ℕ) :
    (keyPress kb.modifiers ch).1 = character es ch := by
  have hshift : kb.modifiers.getLsbD 0 = On KEY_SHIFT es := h.on (by decide)
  have hcontrol : kb.modifiers.getLsbD 1 = On KEY_CONTROL es := h.on (by decide)
  have hcaps : kb.modifiers.getLsbD 3 = On KEY_CAPSLOCK es := h.on (by decide)
  have hge : KEY_CAPSLOCK ≤ ch → KEY_SHIFT ≤ ch := by
    simp only [KEY_SHIFT, KEY_CAPSLOCK]
    omega
  rw [keyPress, character]
  simp only [ne_eq, MOD_SHIFT, MOD_CONTROL, MOD_CAPSLOCK, and_bit_eq_zero _ (show 0 < 8 by decide),
    and_bit_eq_zero _ (show 1 < 8 by decide), and_bit_eq_zero _ (show 3 < 8 by decide), and_three, hshift,
    hcontrol, hcaps]
  by_cases hletter : 'a'.toNat ≤ ch ∧ ch ≤ 'z'.toNat
  · rw [if_pos hletter, if_pos hletter]
    cases On KEY_CONTROL es <;> cases On KEY_SHIFT es <;> cases On KEY_CAPSLOCK es <;> rfl
  · rw [if_neg hletter, if_neg hletter]
    by_cases hlock : KEY_CAPSLOCK ≤ ch
    · rw [if_pos hlock, if_pos (hge hlock)]
    · rw [if_neg hlock]
      by_cases hmod : KEY_SHIFT ≤ ch
      · rw [if_pos hmod, if_pos hmod]
      · rw [if_neg hmod, if_neg hmod]
        by_cases hcomplex : CKEY 0 ≤ ch ∧ ch ≤ CKEY 21
        · rw [if_pos hcomplex, if_pos hcomplex]
        · rw [if_neg hcomplex, if_neg hcomplex, apply_ite Prod.fst]
          simp only [Bool.not_eq_false]

/-! ## The bytes of an event -/

theorem press_data : ∀ code < 0x80, UInt8.ofNat code ≠ 0xE0 ∧ UInt8.ofNat code &&& 0x80 = 0 ∧
    (UInt8.ofNat code).toNat = code ∧ code ||| 0x80 = code + 0x80 := by decide

theorem release_data : ∀ code < 0x80, code ≠ 0x60 → UInt8.ofNat (code + 0x80) ≠ 0xE0 ∧
    UInt8.ofNat (code + 0x80) &&& 0x80 ≠ 0 ∧ (UInt8.ofNat (code + 0x80) &&& 0x7F).toNat = code := by
  decide

/-- The last byte of an event, in a state that shows the events before it, or is also in the second
    half of the keys. -/
theorem Keyboard.Shows.last (h : kb.Shows es) (e : KeyEvent) :
    let (c, kb') := keyboardReadc ⟨kb.modifiers, if e.escaped then 0x80 else 0⟩
      (some (UInt8.ofNat (if e.pressed then e.code else e.code + 0x80)))
    c = (if e.pressed then character es e.meaning else 0 : ℕ) ∧ kb'.Shows (es ++ [e]) := by
  have hindex : e.code ||| (if e.escaped then 0x80 else 0) = if e.escaped then e.code + 0x80 else e.code := by
    obtain ⟨-, -, -, hor⟩ := press_data e.code e.code_lt
    cases e.escaped
    · exact Nat.or_zero _
    · exact hor
  have hnext := h.next (e := e)
  rw [KeyEvent.meaning, ← hindex] at hnext ⊢
  by_cases hp : e.pressed = true
  · obtain ⟨h1, h2, h3, -⟩ := press_data e.code e.code_lt
    simp only [hp, if_true, keyboardReadc, h1, h2, h3, if_false, ne_eq, not_true_eq_false] at hnext ⊢
    exact ⟨congrArg _ (h.press _), hnext⟩
  · obtain ⟨h1, h2, h3⟩ := release_data e.code e.code_lt fun hcode => hp (e.reported hcode)
    simp only [hp, if_false, keyboardReadc, h1, h2, h3, ne_eq, not_false_eq_true, if_true,
      Bool.false_eq_true] at hnext ⊢
    exact ⟨rfl, hnext⟩

/-- The results of `keyboard_readc` for some bytes. -/
def Keyboard.reads (kb : Keyboard) : List UInt8 → List ℤ × Keyboard
  | [] => ([], kb)
  | data :: bs =>
    let (c, kb) := keyboardReadc kb (some data)
    let (cs, kb) := kb.reads bs
    (c :: cs, kb)

theorem Keyboard.reads_append (kb : Keyboard) (as bs : List UInt8) : kb.reads (as ++ bs) =
    ((kb.reads as).1 ++ ((kb.reads as).2.reads bs).1, ((kb.reads as).2.reads bs).2) := by
  induction as generalizing kb with
  | nil => rfl
  | cons a as ih =>
    rw [List.cons_append, Keyboard.reads]
    simp only [ih]
    rfl

/-- **The bytes of one event** give its characters. -/
theorem Keyboard.Shows.event (h : kb.Shows es) (e : KeyEvent) :
    (kb.reads e.bytes).1 = chars es e ∧ (kb.reads e.bytes).2.Shows (es ++ [e]) := by
  obtain ⟨modifiers, lastEscape⟩ := kb
  obtain rfl : lastEscape = 0 := h.noEscape
  obtain ⟨hchar, hshows⟩ := h.last e
  rw [KeyEvent.bytes, chars]
  cases hesc : e.escaped
  · simp only [hesc, Bool.false_eq_true, if_false] at hchar hshows
    simp only [Bool.false_eq_true, if_false, List.nil_append, Keyboard.reads]
    exact ⟨congrArg (fun c => [c]) hchar, hshows⟩
  · simp only [hesc, if_true] at hchar hshows
    have hfirst : keyboardReadc ⟨modifiers, 0⟩ (some 0xE0) = (0, ⟨modifiers, 0x80⟩) := rfl
    simp only [if_true, List.cons_append, List.nil_append, Keyboard.reads, hfirst]
    exact ⟨congrArg (fun c => [0, c]) hchar, hshows⟩

/-- **After any sequence of events** the state shows them. -/
theorem reads_shows (h : kb.Shows es) (es' : List KeyEvent) :
    (kb.reads (es'.flatMap KeyEvent.bytes)).2.Shows (es ++ es') := by
  induction es' generalizing kb es with
  | nil => rwa [List.append_nil]
  | cons e es' ih =>
    rw [List.flatMap_cons, Keyboard.reads_append, List.append_cons]
    exact ih (h.event e).2

theorem complexKeymapAt_other : ∀ n ≤ CKEY 21 - CKEY 0, ∀ m < 4,
    complexKeymapAt n m ∉ [3, 97, 101, 102, 113] := by decide

/-- A key that is no letter does not give one of the characters of `check_keyboard`. -/
theorem character_other {ch : ℕ} (hletter : ¬ ('a'.toNat ≤ ch ∧ ch ≤ 'z'.toNat)) (h : ch ≠ 3) :
    character es ch ∉ [3, 97, 101, 102, 113] := by
  have hzero : (0 : ℕ) ∉ [3, 97, 101, 102, 113] := by decide
  have hself : ch ∉ [3, 97, 101, 102, 113] := by
    have ha : 'a'.toNat = 97 := rfl
    have hz : 'z'.toNat = 122 := rfl
    simp only [List.mem_cons, List.not_mem_nil, or_false, ha, hz] at hletter ⊢
    omega
  rw [character, if_neg hletter]
  split_ifs with hmod hcomplex
  · exact hzero
  · refine complexKeymapAt_other _ (Nat.sub_le_sub_right hcomplex.2 _) _ ?_
    cases On KEY_SHIFT es <;> cases On KEY_CONTROL es <;> decide
  · exact hzero
  · exact hself

theorem verdict_other {n : ℕ} (h : n ∉ [3, 97, 101, 102, 113]) : verdict n = .none := by
  have ha : 'a'.toNat = 97 := rfl
  have he : 'e'.toNat = 101 := rfl
  have hf : 'f'.toNat = 102 := rfl
  have hq : 'q'.toNat = 113 := rfl
  simp only [List.mem_cons, List.not_mem_nil, or_false] at h
  rw [verdict, ha, he, hf, hq, if_neg (by omega), if_neg (by omega)]

/-- The decision of `check_keyboard` on the press of a key. -/
theorem verdict_press (es : List KeyEvent) (e : KeyEvent) (hp : e.pressed = true) :
    verdict (character es e.meaning : ℕ) = command es e := by
  have h3 : e.meaning ≠ 3 := keymapAt_ne_three _
  have ha : 'a'.toNat = 97 := rfl
  have hc : 'c'.toNat = 99 := rfl
  have he : 'e'.toNat = 101 := rfl
  have hf : 'f'.toNat = 102 := rfl
  have hq : 'q'.toNat = 113 := rfl
  have hz : 'z'.toNat = 122 := rfl
  rw [command, if_neg (by rw [hp]; decide), ha, hc, he, hf, hq]
  by_cases hletter : 97 ≤ e.meaning ∧ e.meaning ≤ 122
  · rw [verdict, character, ha, he, hf, hq, hz, if_pos hletter]
    split_ifs <;> first | rfl | omega
  · rw [verdict_other (character_other hletter h3)]
    split_ifs <;> first | rfl | omega

/-- The decisions on the bytes of an event. -/
theorem Keyboard.Shows.obeys (h : kb.Shows es) (e : KeyEvent) : (kb.reads e.bytes).1.map verdict =
    (if e.escaped then [.none] else []) ++ [command es e] := by
  rw [(h.event e).1, chars, List.map_append]
  congr 1
  · cases e.escaped <;> rfl
  · rw [List.map_singleton]
    by_cases hp : e.pressed = true
    · rw [if_pos hp, verdict_press es e hp]
    · rw [if_neg hp, command, if_pos (Bool.eq_false_iff.2 hp)]
      rfl

/-- The decision on its last byte. -/
theorem Keyboard.Shows.obeys_last (h : kb.Shows es) {data : Option UInt8}
    (hdata : e.bytes.getLast? = data) :
    (checkKeyboard (kb.reads e.bytes.dropLast).2 data).1 = command es e := by
  have hbytes : e.bytes = e.bytes.dropLast ++ [UInt8.ofNat (if e.pressed then e.code else e.code + 0x80)] := by
    rw [KeyEvent.bytes, List.dropLast_concat]
  have hobeys := h.obeys e
  rw [hbytes, List.getLast?_concat] at hdata
  rw [hbytes, Keyboard.reads_append, List.map_append] at hobeys
  obtain ⟨-, hlast⟩ := List.append_inj' hobeys rfl
  rw [← hdata]
  exact List.head_eq_of_cons_eq hlast

/-- **`check_keyboard` obeys the keys.**  After any sequence of key events the state shows the
    modifiers that they leave, the bytes of the next event give its characters, and the decision is
    that of the event. -/
theorem check_keyboard_obeys (es : List KeyEvent) (e : KeyEvent) :
    let kb := ((⟨0, 0⟩ : Keyboard).reads (es.flatMap KeyEvent.bytes)).2
    kb.Shows es ∧ (kb.reads e.bytes).1 = chars es e ∧
      (kb.reads e.bytes).1.map verdict = (if e.escaped then [.none] else []) ++ [command es e] := by
  have hshows := reads_shows start_shows es
  rw [List.nil_append] at hshows
  exact ⟨hshows, (hshows.event e).1, hshows.obeys e⟩

end CProj.WeensyOS
