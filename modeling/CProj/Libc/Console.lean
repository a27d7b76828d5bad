/-
  The scrolling console (lib.cc): `console_printer` and `console_puts`.

  The cells of the console are two bytes each, from the address `console` on.  A store outside the
  console is a fault, so a call that returns has stored to cells of the console only.

  What the console is for: it is a window on a page without end (`Page`), which scrolls down when a
  character would fall below its last row (`scrolled`).  `Shows` relates the two.
-/
import CProj.Libc.Memory
import CProj.Libc.Strtoul

namespace CProj.Libc

def CONSOLE_COLUMNS : ℕ := 80
def CONSOLE_ROWS : ℕ := 25

/-- What `console_puts` works on. -/
structure Screen where
  mem : Memory
  cursorpos : ℤ

/-- `console_printer`, with `cell_` as an index into the console. -/
structure ConsolePrinter where
  mem : Memory
  cell_ : ℤ
  scroll_ : Bool

/-- A `uint16_t` at the address `a`. -/
def loadCell (m : Memory) (a : ℕ) : UInt16 := UInt16.ofNat ((m a).toNat + 256 * (m (a + 1)).toNat)

def storeCell (m : Memory) (a : ℕ) (v : UInt16) : Memory :=
  Function.update (Function.update m a (UInt8.ofNat (v.toNat % 256))) (a + 1)
    (UInt8.ofNat (v.toNat / 256))

/-- The cell for the character `c`, `c | color`. -/
def cellOf (c : UInt8) (color : ℤ) : UInt16 := c.toUInt16 ||| UInt16.ofNat (color % 2 ^ 16).toNat

section
variable (console : ℕ)

/-- The constructor. -/
def consolePrinter (s : Screen) (cpos : ℤ) (scroll : Bool) : ConsolePrinter :=
  ⟨s.mem, if cpos < 0 then s.cursorpos
    else if cpos ≤ CONSOLE_ROWS * CONSOLE_COLUMNS then cpos else 0, scroll⟩

def ConsolePrinter.scroll (p : ConsolePrinter) : Except Fault ConsolePrinter :=
  if p.cell_ ≥ CONSOLE_ROWS * CONSOLE_COLUMNS then
    if p.scroll_ then
      let m := memmove p.mem console (console + CONSOLE_COLUMNS * 2)
        ((CONSOLE_ROWS - 1) * CONSOLE_COLUMNS * 2)
      let m := memset m (console + (CONSOLE_ROWS - 1) * CONSOLE_COLUMNS * 2) 0 (CONSOLE_COLUMNS * 2)
      .ok { p with mem := m, cell_ := p.cell_ - CONSOLE_COLUMNS }
    else .ok { p with cell_ := 0 }
  else .error .assertion

/-- The loop at the start of `putc`. -/
def ConsolePrinter.scrollLoop : ℕ → ConsolePrinter → Except Fault ConsolePrinter
  | 0, _ => .error .running
  | fuel + 1, p =>
    if p.cell_ ≥ CONSOLE_ROWS * CONSOLE_COLUMNS then do
      scrollLoop fuel (← p.scroll console)
    else .ok p

/-- `*cell_++ = v` -/
def ConsolePrinter.store (p : ConsolePrinter) (v : UInt16) : Except Fault ConsolePrinter :=
  if 0 ≤ p.cell_ ∧ p.cell_ < CONSOLE_ROWS * CONSOLE_COLUMNS then
    .ok { p with mem := storeCell p.mem (console + 2 * p.cell_.toNat) v, cell_ := p.cell_ + 1 }
  else .error .outOfBounds

/-- The loop over the rest of a row, of which `n` cells are left. -/
def ConsolePrinter.fillRow (color : ℤ) : ℕ → ConsolePrinter → Except Fault ConsolePrinter
  | 0, p => .ok p
  | n + 1, p => do fillRow color n (← p.store console (cellOf 32 color))

def ConsolePrinter.putc (p : ConsolePrinter) (c : UInt8) (color : ℤ) :
    Except Fault ConsolePrinter := do
  let p ← p.scrollLoop console (p.cell_.toNat + 1)
  if c = 10 then
    let pos := p.cell_.tmod 80
    p.fillRow console color (80 - pos).toNat
  else p.store console (cellOf c color)

/-- The loop of `console_puts` over the first `len` characters of `s`. -/
def ConsolePrinter.puts (color : ℤ) : List UInt8 → ℕ → ConsolePrinter → Except Fault ConsolePrinter
  | _, 0, p => .ok p
  | [], _ + 1, _ => .error .outOfBounds
  | c :: s, len + 1, p => do puts color s len (← p.putc console c color)

/-- `console_puts`: the screen afterwards, and the result. -/
def consolePuts (scr : Screen) (cpos color : ℤ) (s : List UInt8) (len : ℕ) :
    Except Fault (Screen × ℤ) := do
  let cp ← (consolePrinter scr cpos (cpos < 0)).puts console color s len
  let cursorpos := if cpos < 0 then cp.cell_ else scr.cursorpos
  return (⟨cp.mem, cursorpos⟩, cp.cell_)

end

/-! ## The page -/

/-- A page of 80 columns without end, the position of the next character, and the row of the page
    that is the first row of the console. -/
structure Page where
  cell : ℕ → UInt16
  pos : ℕ
  top : ℕ

/-- A cell written at the position. -/
def Page.write (u : Page) (v : UInt16) : Page :=
  { u with cell := Function.update u.cell u.pos v, pos := u.pos + 1 }

/-- The console moves down by a row if a character would fall below its last one. -/
def Page.scrolled (u : Page) : Page :=
  { u with top := if 80 * u.top + 2000 ≤ u.pos then u.top + 1 else u.top }

/-- A character written; a newline fills the rest of its row with blanks. -/
def Page.put (u : Page) (c : UInt8) (color : ℤ) : Page :=
  if c = 10 then (fun u => u.write (cellOf 32 color))^[80 - u.pos % 80] u.scrolled
  else u.scrolled.write (cellOf c color)

/-- The characters `cs` with their colours written one after the other. -/
def Page.puts (u : Page) (cs : List (UInt8 × ℤ)) : Page := cs.foldl (fun u c => u.put c.1 c.2) u

/-- The page that holds a console in its first rows, and nothing below. -/
def pageOf (console : ℕ) (scr : Screen) : Page where
  cell i := if i < 2000 then loadCell scr.mem (console + 2 * i) else 0
  pos := scr.cursorpos.toNat
  top := 0

/-- A call of `console_puts` that prints at the cursor. -/
structure Call where
  cpos : ℤ
  color : ℤ
  s : List UInt8
  neg : cpos < 0

/-- The characters of a call, with their colours. -/
def Call.chars (call : Call) : List (UInt8 × ℤ) := call.s.map fun c => (c, call.color)

/-- The screen after a sequence of calls. -/
def putsAll (console : ℕ) : Screen → List Call → Except Fault Screen
  | scr, [] => .ok scr
  | scr, call :: calls => do
    let (scr, _) ← consolePuts console scr call.cpos call.color call.s call.s.length
    putsAll console scr calls

/-- The console in the memory `mem` shows the page `u`, whose position is the cell `cell`, and
    `mem` is `m` outside the console. -/
structure Shows (console : ℕ) (m : Memory) (u : Page) (mem : Memory) (cell : ℤ) : Prop where
  cells : ∀ i < 2000, loadCell mem (console + 2 * i) = u.cell (80 * u.top + i)
  below : ∀ j, 80 * u.top + 2000 ≤ j → u.cell j = 0
  pos : (u.pos : ℤ) = 80 * u.top + cell
  low : 0 ≤ cell
  high : cell ≤ 2000
  frame : ∀ a, a < console ∨ console + 4000 ≤ a → mem a = m a

/-! ## Cells in memory -/

variable {console : ℕ} {m mem : Memory} {u : Page} {cell color : ℤ}

theorem loadCell_congr {m m' : Memory} {a b : ℕ} (h : m a = m' b) (h' : m (a + 1) = m' (b + 1)) :
    loadCell m a = loadCell m' b := by
  rw [loadCell, loadCell, h, h']

theorem loadCell_storeCell (m : Memory) (a : ℕ) (v : UInt16) :
    loadCell (storeCell m a v) a = v := by
  have hv := v.toNat_lt
  have hlow : storeCell m a v a = UInt8.ofNat (v.toNat % 256) := by
    rw [storeCell, Function.update_of_ne (by omega), Function.update_self]
  have hhigh : storeCell m a v (a + 1) = UInt8.ofNat (v.toNat / 256) := by
    rw [storeCell, Function.update_self]
  have hsum : v.toNat % 256 % 2 ^ 8 + 256 * (v.toNat / 256 % 2 ^ 8) = v.toNat := by omega
  rw [loadCell, hlow, hhigh, UInt8.toNat_ofNat', UInt8.toNat_ofNat', hsum, UInt16.ofNat_toNat]

theorem storeCell_of_ne {a b : ℕ} (v : UInt16) (h : b ≠ a) (h' : b ≠ a + 1) :
    storeCell m a v b = m b := by
  rw [storeCell, Function.update_of_ne h', Function.update_of_ne h]

/-- The memory after the console has been moved up by a row. -/
def movedUp (m : Memory) (console : ℕ) : Memory :=
  memset (memmove m console (console + 160) 3840) (console + 3840) 0 160

theorem movedUp_apply (m : Memory) (console a : ℕ) : movedUp m console a =
    if console + 3840 ≤ a ∧ a < console + 4000 then 0
    else if console ≤ a ∧ a < console + 3840 then m (a + 160) else m a := by
  rw [movedUp, memset_apply, memmove_apply]
  by_cases hin : console ≤ a ∧ a < console + 3840
  · have hfrom : console + 160 + (a - console) = a + 160 := by omega
    rw [if_pos hin, if_pos hin, hfrom]
  · rw [if_neg hin, if_neg hin]

/-- Moving up shifts the cells by a row and clears the last one. -/
theorem loadCell_movedUp (m : Memory) (console : ℕ) {i : ℕ} (hi : i < 2000) :
    loadCell (movedUp m console) (console + 2 * i) =
      if i < 1920 then loadCell m (console + 2 * (i + 80)) else 0 := by
  split_ifs with hlast
  · refine loadCell_congr ?_ ?_
    · rw [movedUp_apply, if_neg (by omega), if_pos (by omega)]
      congr 1
    · rw [movedUp_apply, if_neg (by omega), if_pos (by omega)]
      congr 1
  · rw [loadCell, movedUp_apply, movedUp_apply, if_pos (by omega), if_pos (by omega)]
    rfl

/-! ## One character -/

/-- Storing at the position. -/
theorem Shows.store (h : Shows console m u mem cell) (hroom : cell < 2000) (v : UInt16) :
    ∃ mem', ConsolePrinter.store console ⟨mem, cell, true⟩ v = .ok ⟨mem', cell + 1, true⟩ ∧
      Shows console m (u.write v) mem' (cell + 1) := by
  have hlow := h.low
  have hpos := h.pos
  refine ⟨storeCell mem (console + 2 * cell.toNat) v, if_pos ⟨hlow, hroom⟩, ?_, ?_, ?_, by omega,
    by omega, ?_⟩
  · intro i hi
    change _ = Function.update u.cell u.pos v (80 * u.top + i)
    by_cases hcell : i = cell.toNat
    · have hat : 80 * u.top + i = u.pos := by omega
      rw [hat, Function.update_self, hcell, loadCell_storeCell]
    · rw [Function.update_of_ne (by omega), ← h.cells i hi]
      refine loadCell_congr ?_ ?_
      · exact storeCell_of_ne v (by omega) (by omega)
      · exact storeCell_of_ne v (by omega) (by omega)
  · intro j hj
    change 80 * u.top + 2000 ≤ j at hj
    exact (Function.update_of_ne (by omega) _ _).trans (h.below j hj)
  · change ((u.pos + 1 : ℕ) : ℤ) = 80 * u.top + (cell + 1)
    omega
  · intro a ha
    exact (storeCell_of_ne v (by omega) (by omega)).trans (h.frame a ha)

/-- Filling a row whose last `n` cells are left. -/
theorem Shows.fillRow {n : ℕ} (h : Shows console m u mem cell) (color : ℤ)
    (hroom : cell + n ≤ 2000) :
    ∃ mem', ConsolePrinter.fillRow console color n ⟨mem, cell, true⟩ = .ok ⟨mem', cell + n, true⟩ ∧
      Shows console m ((fun u => u.write (cellOf 32 color))^[n] u) mem' (cell + n) := by
  induction n generalizing u mem cell with
  | zero => exact ⟨mem, by simp [ConsolePrinter.fillRow], by simpa using h⟩
  | succ n ih =>
    obtain ⟨mem', hstore, h'⟩ := h.store (by omega) (cellOf 32 color)
    obtain ⟨mem'', hfill, h''⟩ := ih h' (by omega)
    have hcell : cell + 1 + n = cell + (n + 1 : ℕ) := by omega
    rw [hcell] at hfill h''
    exact ⟨mem'', by rw [ConsolePrinter.fillRow, hstore, ok_bind, hfill], h''⟩

/-- Scrolling a console whose position is behind its last cell. -/
theorem Shows.scroll (h : Shows console m u mem 2000) :
    ConsolePrinter.scroll console ⟨mem, 2000, true⟩ = .ok ⟨movedUp mem console, 1920, true⟩ ∧
      Shows console m { u with top := u.top + 1 } (movedUp mem console) 1920 := by
  refine ⟨rfl, ?_, ?_, ?_, by decide, by decide, ?_⟩
  · intro i hi
    change _ = u.cell (80 * (u.top + 1) + i)
    rw [loadCell_movedUp mem console hi]
    split_ifs with hlast
    · have hrow : 80 * (u.top + 1) + i = 80 * u.top + (i + 80) := by ring
      rw [hrow, h.cells (i + 80) (by omega)]
    · exact (h.below _ (by omega)).symm
  · intro j hj
    change 80 * (u.top + 1) + 2000 ≤ j at hj
    exact h.below j (by omega)
  · have hpos := h.pos
    change (u.pos : ℤ) = 80 * ((u.top + 1 : ℕ) : ℤ) + 1920
    omega
  · intro a ha
    rw [movedUp_apply, if_neg (by omega), if_neg (by omega)]
    exact h.frame a ha

/-- The loop at the start of `putc` scrolls by a row where the page does. -/
theorem Shows.scrollLoop (h : Shows console m u mem cell) : ∃ mem' cell',
    ConsolePrinter.scrollLoop console (cell.toNat + 1) ⟨mem, cell, true⟩ =
        .ok ⟨mem', cell', true⟩ ∧
      cell' < 2000 ∧ Shows console m u.scrolled mem' cell' := by
  have hpos := h.pos
  have hhigh := h.high
  rcases lt_or_eq_of_le hhigh with hlt | rfl
  · have hno : u.scrolled = u := by
      rw [Page.scrolled, if_neg (by omega)]
    have hnot : ¬ cell ≥ (CONSOLE_ROWS * CONSOLE_COLUMNS : ℕ) := by
      simp only [CONSOLE_ROWS, CONSOLE_COLUMNS]
      omega
    refine ⟨mem, cell, ?_, hlt, hno.symm ▸ h⟩
    rw [ConsolePrinter.scrollLoop]
    exact if_neg hnot
  · have hyes : u.scrolled = { u with top := u.top + 1 } := by
      rw [Page.scrolled, if_pos (by omega)]
    obtain ⟨hscroll, h'⟩ := h.scroll
    refine ⟨movedUp mem console, 1920, ?_, by decide, hyes.symm ▸ h'⟩
    have hfuel : (2000 : ℤ).toNat + 1 = 1999 + 1 + 1 := rfl
    have hfull : (2000 : ℤ) ≥ CONSOLE_ROWS * CONSOLE_COLUMNS := by decide
    have hroom : ¬ (1920 : ℤ) ≥ CONSOLE_ROWS * CONSOLE_COLUMNS := by decide
    rw [hfuel, ConsolePrinter.scrollLoop, if_pos hfull, hscroll, ok_bind, ConsolePrinter.scrollLoop]
    exact if_neg hroom

/-- A character leaves the console a window on the page. -/
theorem Shows.putc (h : Shows console m u mem cell) (c : UInt8) (color : ℤ) : ∃ mem' cell',
    ConsolePrinter.putc console ⟨mem, cell, true⟩ c color = .ok ⟨mem', cell', true⟩ ∧
      Shows console m (u.put c color) mem' cell' := by
  obtain ⟨mem₁, cell₁, hloop, hroom, h₁⟩ := h.scrollLoop
  unfold ConsolePrinter.putc Page.put
  rw [hloop, ok_bind]
  by_cases hc : c = 10
  · have hlow := h₁.low
    have hpos := h₁.pos
    have hmod : cell₁.tmod 80 = ((u.pos % 80 : ℕ) : ℤ) := by
      have hsame : u.scrolled.pos = u.pos := rfl
      rw [Int.tmod_eq_emod_of_nonneg hlow]
      omega
    have hleft : (80 - ((u.pos % 80 : ℕ) : ℤ)).toNat = 80 - u.pos % 80 := by omega
    have hfit : cell₁ + (80 - u.pos % 80 : ℕ) ≤ 2000 := by
      rw [Int.tmod_eq_emod_of_nonneg hlow] at hmod
      omega
    obtain ⟨mem₂, hfill, h₂⟩ := h₁.fillRow color hfit
    refine ⟨mem₂, _, ?_, by rw [if_pos hc]; exact h₂⟩
    rw [if_pos hc, ← hfill]
    simp only [hmod, hleft]
  · obtain ⟨mem₂, hstore, h₂⟩ := h₁.store hroom (cellOf c color)
    exact ⟨mem₂, cell₁ + 1, by rw [if_neg hc, hstore], by rw [if_neg hc]; exact h₂⟩

/-! ## Strings and calls -/

theorem Shows.puts (h : Shows console m u mem cell) (color : ℤ) (s t : List UInt8) :
    ∃ mem' cell', ConsolePrinter.puts console color (s ++ t) s.length ⟨mem, cell, true⟩ =
        .ok ⟨mem', cell', true⟩ ∧
      Shows console m (u.puts (s.map fun c => (c, color))) mem' cell' := by
  induction s generalizing u mem cell with
  | nil => exact ⟨mem, cell, by cases t <;> rfl, h⟩
  | cons c s ih =>
    obtain ⟨mem₁, cell₁, hput, h₁⟩ := h.putc c color
    obtain ⟨mem₂, cell₂, hputs, h₂⟩ := ih h₁
    refine ⟨mem₂, cell₂, ?_, h₂⟩
    rw [List.cons_append, List.length_cons, ConsolePrinter.puts, hput, ok_bind, hputs]

theorem Shows.consolePuts (h : Shows console m u mem cell) (call : Call) : ∃ mem' cell',
    consolePuts console ⟨mem, cell⟩ call.cpos call.color call.s call.s.length =
        .ok (⟨mem', cell'⟩, cell') ∧
      Shows console m (u.puts call.chars) mem' cell' := by
  obtain ⟨mem', cell', hputs, h'⟩ := h.puts call.color call.s []
  refine ⟨mem', cell', ?_, h'⟩
  rw [List.append_nil] at hputs
  rw [Libc.consolePuts, consolePrinter, if_pos call.neg, decide_eq_true call.neg, hputs, ok_bind]
  simp only [call.neg, if_true]
  rfl

theorem Shows.putsAll (h : Shows console m u mem cell) (calls : List Call) : ∃ mem' cell',
    putsAll console ⟨mem, cell⟩ calls = .ok ⟨mem', cell'⟩ ∧
      Shows console m (u.puts (calls.flatMap Call.chars)) mem' cell' := by
  induction calls generalizing u mem cell with
  | nil => exact ⟨mem, cell, rfl, h⟩
  | cons call calls ih =>
    obtain ⟨mem₁, cell₁, hcall, h₁⟩ := h.consolePuts call
    obtain ⟨mem₂, cell₂, hcalls, h₂⟩ := ih h₁
    refine ⟨mem₂, cell₂, ?_, ?_⟩
    · rw [Libc.putsAll, hcall, ok_bind]
      exact hcalls
    · rw [List.flatMap_cons, Page.puts, List.foldl_append]
      exact h₂

theorem shows_pageOf (scr : Screen) (hlow : 0 ≤ scr.cursorpos) (hhigh : scr.cursorpos ≤ 2000) :
    Shows console scr.mem (pageOf console scr) scr.mem scr.cursorpos where
  cells i hi := by
    have htop : 80 * (pageOf console scr).top + i = i := Nat.zero_add i
    rw [htop]
    exact (if_pos hi).symm
  below j hj := by
    have htop : 80 * (pageOf console scr).top + 2000 = 2000 := rfl
    exact if_neg (by omega)
  pos := by
    change ((scr.cursorpos.toNat : ℕ) : ℤ) = 80 * ((0 : ℕ) : ℤ) + scr.cursorpos
    omega
  low := hlow
  high := hhigh
  frame _ _ := rfl

theorem Page.iterate_write_top (u : Page) (v : UInt16) (n : ℕ) :
    ((fun u => u.write v)^[n] u).top = u.top := by
  induction n generalizing u with
  | zero => rfl
  | succ n ih => exact ih (u.write v)

/-- The window moves down by a row if the character would fall below it, and only then. -/
theorem Page.put_top (u : Page) (c : UInt8) (color : ℤ) :
    (u.put c color).top = if 80 * u.top + 2000 ≤ u.pos then u.top + 1 else u.top := by
  unfold Page.put
  split_ifs with hc hfull
  · exact (Page.iterate_write_top ..).trans (if_pos hfull)
  · exact (Page.iterate_write_top ..).trans (if_neg hfull)
  · rename_i hfull
    exact if_pos hfull
  · rename_i hfull
    exact if_neg hfull

/-- After some calls of `console_puts` and the first characters `s` of one more, the console is the
    window at `top` on the page on which the same characters have been written, the position
    is its cell, and the cursor has stayed on the console.  The stores have all been to cells of the
    console, since another one is a fault. -/
theorem console_shows_page (console : ℕ) (scr : Screen) (hlow : 0 ≤ scr.cursorpos)
    (hhigh : scr.cursorpos ≤ 2000) (calls : List Call) (call : Call) (s t : List UInt8)
    (hs : call.s = s ++ t) : ∃ scr' mem cell,
      putsAll console scr calls = .ok scr' ∧ 0 ≤ scr'.cursorpos ∧ scr'.cursorpos ≤ 2000 ∧
      (consolePrinter scr' call.cpos (call.cpos < 0)).puts console call.color call.s s.length =
        .ok ⟨mem, cell, true⟩ ∧
      Shows console scr.mem ((pageOf console scr).puts
        (calls.flatMap Call.chars ++ s.map fun c => (c, call.color))) mem cell ∧
      ∀ u : Page, ∀ c color, (u.put c color).top = u.top ∨
        ((u.put c color).top = u.top + 1 ∧ 80 * (u.top + 25) ≤ u.pos) := by
  obtain ⟨mem₁, cell₁, hcalls, h₁⟩ := (shows_pageOf scr hlow hhigh).putsAll calls
  obtain ⟨mem₂, cell₂, hputs, h₂⟩ := h₁.puts call.color s t
  refine ⟨⟨mem₁, cell₁⟩, mem₂, cell₂, hcalls, h₁.low, h₁.high, ?_, ?_, fun u c color => ?_⟩
  · rw [consolePrinter, if_pos call.neg, decide_eq_true call.neg, hs]
    exact hputs
  · rw [Page.puts, List.foldl_append]
    exact h₂
  · rw [Page.put_top]
    split_ifs with hfull
    · exact .inr ⟨rfl, by omega⟩
    · exact .inl rfl

/-- `console_puts(-1, 0x0700, "A\n", 2)` on a cleared console with the cursor behind its end. -/
theorem console_shows_page_full : ∃ mem cell,
    ConsolePrinter.puts 0xB8000 0x0700 [65, 10] 2 ⟨fun _ => 0, 2000, true⟩ =
        .ok ⟨mem, cell, true⟩ ∧
      Shows 0xB8000 (fun _ => 0) ((pageOf 0xB8000 ⟨fun _ => 0, 2000⟩).puts
        [(65, 0x0700), (10, 0x0700)]) mem cell := by
  obtain ⟨scr, mem, cell, hcalls, -, -, hputs, hshows, -⟩ :=
    console_shows_page 0xB8000 ⟨fun _ => 0, 2000⟩ (by decide) (by decide) []
      ⟨-1, 0x0700, [65, 10], by decide⟩ [65, 10] [] rfl
  cases hcalls
  exact ⟨mem, cell, hputs, hshows⟩

end CProj.Libc
