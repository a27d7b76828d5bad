/-
  Printing on the console (`console_vprintf` of lib.cc).

  At the cursor the console scrolls and is a window on a page (`Shows`).  At a position of its own a
  text goes on to the console as to a `Sheet`: it is written from the position on, and behind the
  last cell it goes on with the first one.  Either way a call stores the characters that `vprintf`
  gives every printer (`console_vprintf_prints`).
-/
import CProj.Libc.Console
import CProj.Libc.Vsnprintf

namespace CProj.Libc

section
variable (console : ℕ)

/-- The virtual function `putc`, for a printer that has not failed yet. -/
def consolePutc (p : Except Fault ConsolePrinter) (c : UInt8) (color : ℤ) :
    Except Fault ConsolePrinter := do (← p).putc console c color

/-- `console_vprintf`: the screen afterwards, and the result. -/
def consoleVprintf (numbuf : List UInt8) (scr : Screen) (cpos color : ℤ) (format : List UInt8)
    (args : List Arg) : Except Fault (Screen × ℤ) := do
  let cp ← vprintf (consolePutc console) numbuf (.ok (consolePrinter scr cpos (cpos < 0))) color
    format args
  let cp ← cp
  let cursorpos := if cpos < 0 then cp.cell_ else scr.cursorpos
  return (⟨cp.mem, cursorpos⟩, cp.cell_)

end

/-! ## The sheet -/

/-- The cells of a console that does not scroll, and the position of the next character. -/
structure Sheet where
  cell : ℕ → UInt16
  pos : ℕ

/-- A cell written at the position. -/
def Sheet.write (u : Sheet) (v : UInt16) : Sheet := ⟨Function.update u.cell u.pos v, u.pos + 1⟩

/-- Behind the last cell comes the first. -/
def Sheet.wrapped (u : Sheet) : Sheet := if u.pos < 2000 then u else { u with pos := 0 }

/-- A character written; a newline fills the rest of its row with blanks. -/
def Sheet.put (u : Sheet) (c : UInt8) (color : ℤ) : Sheet :=
  if c = 10 then (fun u => u.write (cellOf 32 color))^[80 - u.wrapped.pos % 80] u.wrapped
  else u.wrapped.write (cellOf c color)

def Sheet.puts (u : Sheet) (cs : List (UInt8 × ℤ)) : Sheet := cs.foldl (fun u c => u.put c.1 c.2) u

/-- The console in the memory `mem` is the sheet `u`, whose position is the cell `cell`, and `mem`
    is `m` outside the console. -/
structure IsSheet (console : ℕ) (m : Memory) (u : Sheet) (mem : Memory) (cell : ℤ) : Prop where
  cells : ∀ i < 2000, loadCell mem (console + 2 * i) = u.cell i
  pos : cell = u.pos
  high : u.pos ≤ 2000
  frame : ∀ a, a < console ∨ console + 4000 ≤ a → mem a = m a

/-- The sheet of a console, with the position `pos`. -/
def sheetOf (console : ℕ) (mem : Memory) (pos : ℕ) : Sheet :=
  ⟨fun i => loadCell mem (console + 2 * i), pos⟩

variable {console : ℕ} {m mem : Memory} {u : Sheet} {cell color : ℤ}

theorem isSheet_sheetOf (console : ℕ) (mem : Memory) {pos : ℕ} (hpos : pos ≤ 2000) :
    IsSheet console mem (sheetOf console mem pos) mem pos := ⟨fun _ _ => rfl, rfl, hpos, fun _ _ => rfl⟩

theorem Sheet.wrapped_pos (u : Sheet) : u.wrapped.pos < 2000 := by
  rw [wrapped]
  split_ifs with h
  · exact h
  · exact Nat.zero_lt_succ _

theorem Sheet.iterate_write (u : Sheet) (v : UInt16) (n : ℕ) {i : ℕ} (hi : i < u.pos ∨ u.pos + n ≤ i) :
    ((fun u => u.write v)^[n] u).cell i = u.cell i := by
  induction n generalizing u with
  | zero => rfl
  | succ n ih =>
    have hpos : (u.write v).pos = u.pos + 1 := rfl
    refine (ih (u.write v) (by omega)).trans (Function.update_of_ne (by omega) _ _)

/-- A newline changes the rest of its row. -/
theorem Sheet.put_newline (color : ℤ) (hroom : u.pos < 2000) {i : ℕ}
    (hi : i < u.pos ∨ u.pos + (80 - u.pos % 80) ≤ i) : (u.put 10 color).cell i = u.cell i := by
  have hsame : u.wrapped = u := if_pos hroom
  rw [put, if_pos rfl, hsame]
  exact u.iterate_write _ _ hi

/-- A text without newlines for which there is room. -/
theorem Sheet.puts_plain {cs : List (UInt8 × ℤ)} (hplain : ∀ c ∈ cs, c.1 ≠ 10)
    (hroom : u.pos + cs.length ≤ 2000) : (u.puts cs).pos = u.pos + cs.length ∧
      (∀ i, i < u.pos ∨ u.pos + cs.length ≤ i → (u.puts cs).cell i = u.cell i) ∧
      ∀ j (hj : j < cs.length), (u.puts cs).cell (u.pos + j) = cellOf cs[j].1 cs[j].2 := by
  induction cs generalizing u with
  | nil => exact ⟨rfl, fun _ _ => rfl, fun j hj => absurd hj (Nat.not_lt_zero j)⟩
  | cons c cs ih =>
    rw [List.length_cons] at hroom
    have hsame : u.wrapped = u := if_pos (by omega)
    have hput : u.put c.1 c.2 = u.write (cellOf c.1 c.2) := by
      rw [put, if_neg (hplain c List.mem_cons_self), hsame]
    have hnext : u.puts (c :: cs) = (u.write (cellOf c.1 c.2)).puts cs := by
      rw [← hput]
      rfl
    have hpos : (u.write (cellOf c.1 c.2)).pos = u.pos + 1 := rfl
    obtain ⟨hend, hothers, hcells⟩ := ih (u := u.write (cellOf c.1 c.2))
      (fun x hx => hplain x (List.mem_cons_of_mem _ hx)) (by omega)
    have hlen : (c :: cs).length = cs.length + 1 := rfl
    rw [hnext]
    refine ⟨by omega, fun i hi => ?_, fun j hj => ?_⟩
    · refine (hothers i (by omega)).trans (Function.update_of_ne (by omega) _ _)
    · cases j with
      | zero => exact (hothers u.pos (by omega)).trans (Function.update_self ..)
      | succ j =>
        have hj' : j < cs.length := Nat.lt_of_succ_lt_succ hj
        have hat : u.pos + (j + 1) = (u.write (cellOf c.1 c.2)).pos + j := by omega
        rw [hat]
        exact hcells j hj'

/-! ## One character -/

theorem IsSheet.store (h : IsSheet console m u mem cell) (hroom : u.pos < 2000) (v : UInt16) :
    ∃ mem', ConsolePrinter.store console ⟨mem, cell, false⟩ v = .ok ⟨mem', (u.write v).pos, false⟩ ∧
      IsSheet console m (u.write v) mem' (u.write v).pos := by
  have hpos := h.pos
  refine ⟨storeCell mem (console + 2 * u.pos) v, ?_, fun i hi => ?_, rfl, hroom, fun a ha => ?_⟩
  · subst hpos
    exact if_pos ⟨Int.natCast_nonneg _, Int.ofNat_lt.2 hroom⟩
  · change _ = Function.update u.cell u.pos v i
    by_cases hcell : i = u.pos
    · rw [hcell, Function.update_self, loadCell_storeCell]
    · rw [Function.update_of_ne hcell, ← h.cells i hi]
      refine loadCell_congr ?_ ?_
      · exact storeCell_of_ne v (by omega) (by omega)
      · exact storeCell_of_ne v (by omega) (by omega)
  · exact (storeCell_of_ne v (by omega) (by omega)).trans (h.frame a ha)

theorem IsSheet.fillRow {n : ℕ} (h : IsSheet console m u mem cell) (color : ℤ)
    (hroom : u.pos + n ≤ 2000) : ∃ mem' cell',
      ConsolePrinter.fillRow console color n ⟨mem, cell, false⟩ = .ok ⟨mem', cell', false⟩ ∧
      IsSheet console m ((fun u => u.write (cellOf 32 color))^[n] u) mem' cell' := by
  induction n generalizing u mem cell with
  | zero => exact ⟨mem, cell, rfl, h⟩
  | succ n ih =>
    obtain ⟨mem₁, hstore, h₁⟩ := h.store (by omega) (cellOf 32 color)
    have hpos : (u.write (cellOf 32 color)).pos = u.pos + 1 := rfl
    obtain ⟨mem₂, cell₂, hfill, h₂⟩ := ih h₁ (by omega)
    exact ⟨mem₂, cell₂, by rw [ConsolePrinter.fillRow, hstore, ok_bind, hfill], h₂⟩

/-- The loop at the start of `putc` goes back to the first cell where the sheet does. -/
theorem IsSheet.scrollLoop (h : IsSheet console m u mem cell) :
    ConsolePrinter.scrollLoop console (cell.toNat + 1) ⟨mem, cell, false⟩ =
        .ok ⟨mem, u.wrapped.pos, false⟩ ∧
      IsSheet console m u.wrapped mem u.wrapped.pos := by
  have hpos := h.pos
  have hhigh := h.high
  by_cases hlt : u.pos < 2000
  · have hsame : u.wrapped = u := if_pos hlt
    have hnot : ¬ cell ≥ (CONSOLE_ROWS * CONSOLE_COLUMNS : ℕ) := by
      simp only [CONSOLE_ROWS, CONSOLE_COLUMNS]
      omega
    rw [hsame, ConsolePrinter.scrollLoop, ← hpos]
    exact ⟨if_neg hnot, h⟩
  · have hzero : u.wrapped = { u with pos := 0 } := if_neg hlt
    have hfull : cell = 2000 := by omega
    subst hfull
    rw [hzero]
    refine ⟨rfl, h.cells, rfl, Nat.zero_le _, h.frame⟩

theorem IsSheet.putc (h : IsSheet console m u mem cell) (c : UInt8) (color : ℤ) : ∃ mem' cell',
    ConsolePrinter.putc console ⟨mem, cell, false⟩ c color = .ok ⟨mem', cell', false⟩ ∧
      IsSheet console m (u.put c color) mem' cell' := by
  obtain ⟨hloop, h₁⟩ := h.scrollLoop
  have hroom := u.wrapped_pos
  unfold ConsolePrinter.putc Sheet.put
  rw [hloop, ok_bind]
  by_cases hc : c = 10
  · have hleft : (80 - ((u.wrapped.pos : ℤ)).tmod 80).toNat = 80 - u.wrapped.pos % 80 := by
      rw [Int.tmod_eq_emod_of_nonneg (Int.natCast_nonneg _)]
      omega
    obtain ⟨mem₂, cell₂, hfill, h₂⟩ := h₁.fillRow (n := 80 - u.wrapped.pos % 80) color (by omega)
    refine ⟨mem₂, cell₂, ?_, by rw [if_pos hc]; exact h₂⟩
    rw [if_pos hc, ← hfill]
    simp only [hleft]
  · obtain ⟨mem₂, hstore, h₂⟩ := h₁.store hroom (cellOf c color)
    exact ⟨mem₂, _, by rw [if_neg hc, hstore], by rw [if_neg hc]; exact h₂⟩

/-! ## A text -/

theorem IsSheet.emit (h : IsSheet console m u mem cell) (out : List (UInt8 × ℤ)) : ∃ mem' cell',
    emit (consolePutc console) (.ok ⟨mem, cell, false⟩) out = .ok ⟨mem', cell', false⟩ ∧
      IsSheet console m (u.puts out) mem' cell' := by
  induction out generalizing u mem cell with
  | nil => exact ⟨mem, cell, rfl, h⟩
  | cons x out ih =>
    obtain ⟨mem₁, cell₁, hput, h₁⟩ := h.putc x.1 x.2
    obtain ⟨mem₂, cell₂, hemit, h₂⟩ := ih h₁
    refine ⟨mem₂, cell₂, ?_, h₂⟩
    rw [← hemit, ← hput]
    rfl

theorem Shows.emit {u : Page} (h : Shows console m u mem cell) (out : List (UInt8 × ℤ)) :
    ∃ mem' cell',
      emit (consolePutc console) (.ok ⟨mem, cell, true⟩) out = .ok ⟨mem', cell', true⟩ ∧
      Shows console m (u.puts out) mem' cell' := by
  induction out generalizing u mem cell with
  | nil => exact ⟨mem, cell, rfl, h⟩
  | cons x out ih =>
    obtain ⟨mem₁, cell₁, hput, h₁⟩ := h.putc x.1 x.2
    obtain ⟨mem₂, cell₂, hemit, h₂⟩ := ih h₁
    refine ⟨mem₂, cell₂, ?_, h₂⟩
    rw [← hemit, ← hput]
    rfl

/-- The characters `out` are those that `vprintf` gives every printer. -/
structure Text (format : List UInt8) (args : List Arg) (color : ℤ) (out : List (UInt8 × ℤ)) :
    Prop where
  prints : ∀ {σ : Type} (putc : σ → UInt8 → ℤ → σ) p numbuf, numbuf.length = NUMBUFSIZ →
    vprintf putc numbuf p color format args = .ok (emit putc p out)

/-- A printer that collects its characters. -/
theorem emit_collect (xs out : List (UInt8 × ℤ)) :
    emit (fun l c k => l ++ [(c, k)]) xs out = xs ++ out := by
  induction out generalizing xs with
  | nil => exact (List.append_nil xs).symm
  | cons x out ih =>
    have hnext : emit (fun l c k => l ++ [(c, k)]) xs (x :: out) =
        emit (fun l c k => l ++ [(c, k)]) (xs ++ [x]) out := rfl
    rw [hnext, ih, List.append_assoc, List.singleton_append]

theorem exists_text {t : List UInt8} {args : List Arg} (h0 : 0 ∉ t) (h : Matches (argKinds t) args)
    (color : ℤ) (rest : List UInt8) : ∃ out, Text (t ++ 0 :: rest) args color out := by
  obtain ⟨out, -, hloop⟩ := vprintfLoop_text h0 h color
  refine ⟨out, ⟨fun putc p numbuf hlen => hloop putc p rest numbuf _ hlen ?_⟩⟩
  rw [List.length_append]
  omega

/-- A format that takes no arguments before its rest. -/
theorem argKinds_append {s t : List UInt8} (hs : 37 ∉ s) : argKinds (s ++ t) = argKinds t := by
  induction s with
  | nil => rfl
  | cons c s ih =>
    have hc : c ≠ 37 := fun heq => hs (heq ▸ List.mem_cons_self)
    rw [List.cons_append, argKinds, if_neg hc, ih fun h => hs (List.mem_cons_of_mem _ h)]

theorem argKinds_plain {s : List UInt8} (hs : 37 ∉ s) : argKinds s = [] := by
  rw [← List.append_nil s, argKinds_append hs, argKinds]

/-- A format with one conversion. -/
theorem argKinds_directive {s t : List UInt8} (hs : 37 ∉ s) (hrest : 37 ∉ (atConversion t).drop 1) :
    argKinds (s ++ 37 :: t) = directiveKinds t := by
  rw [argKinds_append hs, argKinds, if_pos rfl, argKinds_plain hrest, List.append_nil]

/-- The text of a format, computed with a printer that collects it. -/
theorem text_of_run {t numbuf : List UInt8} {args : List Arg} {color : ℤ}
    {out : List (UInt8 × ℤ)} (h0 : 0 ∉ t) (h : Matches (argKinds t) args)
    (hlen : numbuf.length = NUMBUFSIZ)
    (hrun : vprintf (fun l c k => l ++ [(c, k)]) numbuf [] color (t ++ [0]) args = .ok out) :
    Text (t ++ [0]) args color out := by
  obtain ⟨out', htext⟩ := exists_text h0 h color []
  have hsame := htext.prints (fun l c k => l ++ [(c, k)]) [] numbuf hlen
  rw [emit_collect, List.nil_append] at hsame
  cases hsame.symm.trans hrun
  exact htext

section
variable {numbuf format : List UInt8} {args : List Arg} {out : List (UInt8 × ℤ)}
  {cpos : ℤ}

/-- A text at a position of its own. -/
theorem consoleVprintf_at (console : ℕ) (scr : Screen) (h : Text format args color out)
    (hlen : numbuf.length = NUMBUFSIZ) (hlow : 0 ≤ cpos) : ∃ mem' cell',
      consoleVprintf console numbuf scr cpos color format args =
        .ok (⟨mem', scr.cursorpos⟩, cell') ∧
      IsSheet console scr.mem ((sheetOf console scr.mem
        (if cpos ≤ 2000 then cpos.toNat else 0)).puts out) mem' cell' := by
  have hstart : consolePrinter scr cpos (cpos < 0) =
      ⟨scr.mem, ((if cpos ≤ 2000 then cpos.toNat else 0 : ℕ) : ℤ), false⟩ := by
    have hsize : (CONSOLE_ROWS : ℤ) * CONSOLE_COLUMNS = 2000 := rfl
    rw [consolePrinter, if_neg (not_lt.2 hlow), decide_eq_false (not_lt.2 hlow), hsize]
    congr 1
    split_ifs
    · exact (Int.toNat_of_nonneg hlow).symm
    · rfl
  have hpos : (if cpos ≤ 2000 then cpos.toNat else 0) ≤ 2000 := by
    split_ifs <;> omega
  obtain ⟨mem', cell', hemit, h'⟩ := (isSheet_sheetOf console scr.mem hpos).emit out
  refine ⟨mem', cell', ?_, h'⟩
  rw [consoleVprintf, h.prints _ _ _ hlen, ok_bind, hstart, hemit, ok_bind, if_neg (not_lt.2 hlow)]
  rfl

/-- A text at the cursor. -/
theorem consoleVprintf_cursor (console : ℕ) (scr : Screen) (h : Text format args color out)
    (hlen : numbuf.length = NUMBUFSIZ) (hneg : cpos < 0) (hlow : 0 ≤ scr.cursorpos)
    (hhigh : scr.cursorpos ≤ 2000) : ∃ mem' cell',
      consoleVprintf console numbuf scr cpos color format args = .ok (⟨mem', cell'⟩, cell') ∧
      Shows console scr.mem ((pageOf console scr).puts out) mem' cell' := by
  obtain ⟨mem', cell', hemit, h'⟩ := (@shows_pageOf console scr hlow hhigh).emit out
  refine ⟨mem', cell', ?_, h'⟩
  rw [consoleVprintf, h.prints _ _ _ hlen, ok_bind, consolePrinter, if_pos hneg, decide_eq_true hneg, hemit,
    ok_bind, if_pos hneg]
  rfl

end

/-- **`console_printf` on every format.**  A call ends without a store outside the console.  It
    stores the characters that every printer is given: at a position of its own as on a sheet, and
    the cursor stays; at the cursor as on the page of the console, and the cursor follows. -/
theorem console_vprintf_prints (console : ℕ) {t : List UInt8} {args : List Arg} (h0 : 0 ∉ t)
    (h : Matches (argKinds t) args) (color : ℤ) (rest : List UInt8) : ∃ out,
      Text (t ++ 0 :: rest) args color out ∧
      ∀ (numbuf : List UInt8) (scr : Screen) (cpos : ℤ), numbuf.length = NUMBUFSIZ →
        (0 ≤ cpos → ∃ mem' cell',
          consoleVprintf console numbuf scr cpos color (t ++ 0 :: rest) args =
            .ok (⟨mem', scr.cursorpos⟩, cell') ∧
          IsSheet console scr.mem ((sheetOf console scr.mem
            (if cpos ≤ 2000 then cpos.toNat else 0)).puts out) mem' cell') ∧
        (cpos < 0 → 0 ≤ scr.cursorpos → scr.cursorpos ≤ 2000 → ∃ mem' cell',
          consoleVprintf console numbuf scr cpos color (t ++ 0 :: rest) args =
            .ok (⟨mem', cell'⟩, cell') ∧
          Shows console scr.mem ((pageOf console scr).puts out) mem' cell') := by
  obtain ⟨out, htext⟩ := exists_text h0 h color rest
  refine ⟨out, htext, fun numbuf scr cpos hlen => ⟨fun hlow => ?_, fun hneg hlow hhigh => ?_⟩⟩
  · exact consoleVprintf_at console scr htext hlen hlow
  · exact consoleVprintf_cursor console scr htext hlen hneg hlow hhigh

/-- `console_printf(CPOS(24, 79), 0x0700, "ab")` goes on with the first cell. -/
theorem console_vprintf_prints_wrapped : ∃ mem' cell',
    consoleVprintf 0xB8000 (List.replicate 24 7) ⟨fun _ => 0, 0⟩ 1999 0x0700 (bytes "ab" ++ [0]) [] =
      .ok (⟨mem', 0⟩, cell') ∧
    IsSheet 0xB8000 (fun _ => 0) ((sheetOf 0xB8000 (fun _ => 0) 1999).puts
      [(97, 0x0700), (98, 0x0700)]) mem' cell' := by
  have hkinds : argKinds (bytes "ab") = [] := argKinds_plain (by decide)
  obtain ⟨out, htext, hprint⟩ := console_vprintf_prints 0xB8000 (t := bytes "ab")
    (by decide) (show Matches (argKinds (bytes "ab")) [] by rw [hkinds]; trivial) 0x0700 []
  obtain ⟨mem', cell', hcall, hsheet⟩ :=
    (hprint (List.replicate 24 7) ⟨fun _ => 0, 0⟩ 1999 rfl).1 (by decide)
  have hout : emit (fun l c k => l ++ [(c, k)]) [] out = [(97, 0x0700), (98, 0x0700)] := by
    have hrun := htext.prints (fun l c k => l ++ [(c, k)]) [] (List.replicate 24 7) rfl
    exact Except.ok.inj (hrun.symm.trans (by decide +kernel))
  rw [emit_collect, List.nil_append] at hout
  subst hout
  exact ⟨mem', cell', hcall, hsheet⟩

end CProj.Libc
