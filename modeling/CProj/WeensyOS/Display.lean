/-
  The picture of the memory (`console_memviewer` of `weensyos/k-memviewer.cc`, and `memshow` of
  `weensyos/kernel.cc`).

  The picture has a cell for each page of physical memory, and one for each page of the address space
  of a process; every row begins with the address of its first page.  `run_displays`: in every run of
  the kernel in which no fork overflows a count, the cell of a page shows what the page is used for,
  and no error about a page table is printed.

  `memshow` of `Kernel` allocates and clears the page of the map; here it draws, too.  What is drawn
  does not matter to the kernel, which never reads the console.
-/
import CProj.Libc.ConsolePrintf
import CProj.WeensyOS.Liveness
import CProj.WeensyOS.MemoryMap

namespace CProj.WeensyOS

/-! ## Drawing -/

def COLOR_ERROR : ℤ := 0xC000

/-- `CPOS(row, col)` -/
def CPOS (row col : ℕ) : ℕ := row * 80 + col

/-- How the kernel stops when the library does. -/
def ofLibc : Libc.Fault → Fault
  | .outOfBounds | .noArgument => .outOfBounds
  | .assertion => .assertion
  | .running => .running

/-- `console[i] = ch` -/
def setCell (scr : Libc.Screen) (i : ℕ) (ch : UInt16) : Libc.Screen :=
  { scr with mem := Libc.storeCell scr.mem (CONSOLE_ADDR + 2 * i) ch }

section
variable (numbuf : List UInt8)

/-- `console_printf(cpos, color, format, ...)` -/
def consolePrintf (scr : Libc.Screen) (cpos : ℕ) (color : ℤ) (format : String)
    (args : List Libc.Arg) : Except Fault Libc.Screen :=
  match Libc.consoleVprintf CONSOLE_ADDR numbuf scr cpos color (Libc.bytes format ++ [0]) args with
  | .ok (scr, _) => .ok scr
  | .error e => .error (ofLibc e)

/-- `memusage::page_error`, without the log. -/
def pageError (e : PageError) (scr : Libc.Screen) : Except Fault Libc.Screen :=
  let fmt := if e.pid ≥ 0 then "PAGE TABLE ERROR: %lx: %s (pid %d)\n"
    else "PAGE TABLE ERROR: %lx: %s\n"
  consolePrintf numbuf scr (CPOS 22 0) COLOR_ERROR fmt
    [⟨BitVec.ofNat 64 e.pa, []⟩, ⟨0, Libc.bytes e.desc ++ [0]⟩, ⟨BitVec.ofInt 64 e.pid, []⟩]

/-- The page `pn` of a picture whose first row is `row`: the address at the start of a row, the error
    of `symbol_at`, and the cell. -/
def drawPage (row pn : ℕ) (ch : UInt16) (e : Option PageError) (scr : Libc.Screen) :
    Except Fault Libc.Screen := do
  let scr ← if pn % 64 = 0 then
      consolePrintf numbuf scr (CPOS (row + pn / 64) 3) 0x0F00 "0x%06X "
        [⟨BitVec.ofNat 64 (pn * PAGESIZE), []⟩]
    else pure scr
  let scr ← match e with
    | some e => pageError numbuf e scr
    | none => pure scr
  return setCell scr (CPOS (row + pn / 64) (12 + pn % 64)) ch

def maxViewPa : ℕ := 512 * PAGESIZE
def maxViewVa : ℕ := 768 * PAGESIZE

/-- The loop of `console_memviewer`. -/
def drawPhysical (L : Layout) (m : Mem) (v : ℕ) : ℕ → ℕ → Libc.Screen → Except Fault Libc.Screen
  | 0, _, _ => .error .running
  | fuel + 1, pn, scr =>
    if pn * PAGESIZE < maxViewPa then do
      let (ch, e) := symbolAt L m v (pn * PAGESIZE)
      drawPhysical L m v fuel (pn + 1) (← drawPage numbuf 1 pn ch e scr)
    else .ok scr

/-- The colours of the character and of its background exchanged. -/
def exchanged (ch : UInt16) : UInt16 :=
  let z : UInt16 := (ch &&& (0x0F00 : UInt16)) ^^^ ((ch &&& (0xF000 : UInt16)) >>> (4 : UInt16))
  ch ^^^ (z ||| (z <<< (4 : UInt16)))

/-- The symbol for the page under the iterator. -/
def symbolUnder (L : Layout) (m : Mem) (v : ℕ) (it : Vmiter) : UInt16 × Option PageError :=
  if it.present m then
    let (ch, e) := symbolAt L m v (it.pa m)
    (if it.user m then exchanged ch else ch, e)
  else (symbol ' ' 0, none)

/-- The loop of `console_memviewer_virtual`. -/
def drawVirtual (L : Layout) (m : Mem) (v : ℕ) :
    ℕ → Vmiter → Libc.Screen → Except Fault Libc.Screen
  | 0, _, _ => .error .running
  | fuel + 1, it, scr =>
    if it.va < maxViewVa then do
      let (ch, e) := symbolUnder L m v it
      let scr ← drawPage numbuf 11 (it.va / PAGESIZE) ch e scr
      drawVirtual L m v fuel (← it.advance m PAGESIZE) scr
    else .ok scr

/-- `console_memviewer_virtual`, for the process in the slot `vmp`. -/
def consoleMemviewerVirtual (L : Layout) (s : State) (vmp : ℕ) (scr : Libc.Screen) :
    Except Fault Libc.Screen := do
  let scr ← consolePrintf numbuf scr (CPOS 10 26) 0x0F00 "VIRTUAL ADDRESS SPACE FOR %d\n"
    [⟨BitVec.ofNat 64 (s.ptable vmp).pid, []⟩]
  let it ← Vmiter.create s.mem (s.ptable vmp).pagetable 0
  drawVirtual numbuf L s.mem s.viewer (maxViewVa / PAGESIZE + 1) it scr

/-- `console_memviewer(vmp)` -/
def consoleMemviewer (L : Layout) (s : State) (vmp : Option ℕ) (scr : Libc.Screen) :
    Except Fault (State × Libc.Screen) := do
  assert ((s.ptable 0).state = .free)
  let s ← refresh L s
  let scr ← consolePrintf numbuf scr (CPOS 0 32) 0x0F00 "PHYSICAL MEMORY\n" []
  let scr ← drawPhysical numbuf L s.mem s.viewer (maxViewPa / PAGESIZE + 1) 0 scr
  let clear := consolePrintf numbuf scr (CPOS 10 0) 0x0F00 "\n\n\n\n\n\n\n\n\n\n\n\n\n" []
  let scr ← match vmp with
    | some p =>
      if (s.ptable p).pagetable ≠ 0 then consoleMemviewerVirtual numbuf L s p scr else clear
    | none => clear
  return (s, scr)

def HZ : ℕ := 100

/-- The static variables of `memshow`. -/
structure Showing where
  lastTicks : ℕ
  showing : ℕ
  deriving DecidableEq, Repr

/-- Every half second another process is shown. -/
def Showing.tick (st : Showing) (ticks : ℕ) : Showing :=
  if st.lastTicks = 0 ∨ vaSub ticks st.lastTicks ≥ HZ / 2 then
    ⟨ticks % 2 ^ 32, (st.showing + 1) % NPROC⟩
  else st

/-- The search of `memshow` for a process, from `showing` on. -/
def searchShown (s : State) : ℕ → ℕ → Option ℕ × ℕ
  | 0, showing => (none, showing)
  | n + 1, showing =>
    if (s.ptable showing).state ≠ .free ∧ (s.ptable showing).pagetable ≠ 0 then
      (some showing, showing)
    else searchShown s n ((showing + 1) % NPROC)

/-- `memshow()`, after `ticks` timer interrupts. -/
def memshowDraw (L : Layout) (ticks : ℕ) (st : Showing) (s : State) (scr : Libc.Screen) :
    Except Fault (State × Showing × Libc.Screen) := do
  let st := st.tick ticks
  let (p, showing) := searchShown s NPROC st.showing
  let (s, scr) ← consoleMemviewer numbuf L s p scr
  return (s, ⟨st.lastTicks, showing⟩, scr)

end

/-! ## What a page of the picture changes -/

/-- The cell of the page `pn` in a picture whose first row is `row`. -/
def pageCell (m : Libc.Memory) (row pn : ℕ) : UInt16 :=
  Libc.loadCell m (CONSOLE_ADDR + 2 * CPOS (row + pn / 64) (12 + pn % 64))

/-- The label of a row: the address of its first page in six hexadecimal digits. -/
def rowLabel (r : ℕ) : List UInt8 := Libc.bytes "0x" ++
  (List.range 6).map (fun j => Libc.upperDigits.getD (r * 0x40000 / 16 ^ (5 - j) % 16) 0) ++
  Libc.bytes " "

/-- The memory `m'` is `m` with the rows from `row` on drawn for the pages below `k`: their cells are
    those of `f`. -/
structure Painted (row k : ℕ) (f : ℕ → UInt16) (m m' : Libc.Memory) : Prop where
  pages : ∀ n < k, pageCell m' row n = f n
  labels : ∀ r, 64 * r < k → ∀ j (hj : j < (rowLabel r).length),
    Libc.loadCell m' (CONSOLE_ADDR + 2 * CPOS (row + r) (3 + j)) = Libc.cellOf (rowLabel r)[j] 0x0F00
  others : ∀ i < 2000, i < 80 * row ∨ 80 * row + 80 * ((k + 63) / 64) ≤ i →
    Libc.loadCell m' (CONSOLE_ADDR + 2 * i) = Libc.loadCell m (CONSOLE_ADDR + 2 * i)
  frame : ∀ a, a < CONSOLE_ADDR ∨ CONSOLE_ADDR + 4000 ≤ a → m' a = m a

section
variable {numbuf : List UInt8} (scr : Libc.Screen) {args : List Libc.Arg} {fmt : String} {color : ℤ}
  {row k pn cpos : ℕ} {f : ℕ → UInt16} {m m' m'' : Libc.Memory}

/-! ### Texts -/

/-- The memory `m'` is `m` but for the cells from `lo` to `hi` of the console. -/
structure Within (lo hi : ℕ) (m m' : Libc.Memory) : Prop where
  others : ∀ i < 2000, i < lo ∨ hi ≤ i →
    Libc.loadCell m' (CONSOLE_ADDR + 2 * i) = Libc.loadCell m (CONSOLE_ADDR + 2 * i)
  frame : ∀ a, a < CONSOLE_ADDR ∨ CONSOLE_ADDR + 4000 ≤ a → m' a = m a

theorem within_setCell {i : ℕ} (hi : i < 2000) (ch : UInt16) :
    Within i (i + 1) scr.mem (setCell scr i ch).mem := by
  refine ⟨fun j hj hne => Libc.loadCell_congr ?_ ?_, fun a ha => ?_⟩
  · exact Libc.storeCell_of_ne ch (by omega) (by omega)
  · exact Libc.storeCell_of_ne ch (by omega) (by omega)
  · exact Libc.storeCell_of_ne ch (by omega) (by omega)

/-- A text at a position of its own is put on the sheet from there. -/
theorem consolePrintf_at {out : List (UInt8 × ℤ)}
    (htext : Libc.Text (Libc.bytes fmt ++ [0]) args color out) (hlen : numbuf.length = Libc.NUMBUFSIZ)
    (hpos : cpos ≤ 2000) : ∃ m' cell,
      consolePrintf numbuf scr cpos color fmt args = .ok ⟨m', scr.cursorpos⟩ ∧
      Libc.IsSheet CONSOLE_ADDR scr.mem ((Libc.sheetOf CONSOLE_ADDR scr.mem cpos).puts out) m' cell := by
  obtain ⟨m', cell, hcall, hsheet⟩ := Libc.consoleVprintf_at CONSOLE_ADDR scr htext hlen
    (Int.natCast_nonneg cpos)
  have hstart : (if (cpos : ℤ) ≤ 2000 then (cpos : ℤ).toNat else 0) = cpos :=
    if_pos (by omega)
  rw [hstart] at hsheet
  exact ⟨m', cell, by rw [consolePrintf, hcall], hsheet⟩

/-- A text without newlines. -/
theorem consolePrintf_plain {out : List (UInt8 × ℤ)}
    (htext : Libc.Text (Libc.bytes fmt ++ [0]) args color out) (hlen : numbuf.length = Libc.NUMBUFSIZ)
    (hplain : ∀ c ∈ out, c.1 ≠ 10) (hroom : cpos + out.length ≤ 2000) : ∃ m',
      consolePrintf numbuf scr cpos color fmt args = .ok ⟨m', scr.cursorpos⟩ ∧
      Within cpos (cpos + out.length) scr.mem m' ∧
      ∀ j (hj : j < out.length), Libc.loadCell m' (CONSOLE_ADDR + 2 * (cpos + j)) =
        Libc.cellOf out[j].1 out[j].2 := by
  obtain ⟨m', cell, hcall, hsheet⟩ :=
    consolePrintf_at scr htext hlen (show cpos ≤ 2000 by omega)
  obtain ⟨-, hothers, hcells⟩ := Libc.Sheet.puts_plain
    (u := Libc.sheetOf CONSOLE_ADDR scr.mem cpos) hplain hroom
  refine ⟨m', hcall, ⟨fun i hi hout => ?_, hsheet.frame⟩, fun j hj => ?_⟩
  · exact (hsheet.cells i hi).trans (hothers i hout)
  · exact (hsheet.cells _ (by omega)).trans (hcells j hj)

/-- A text that ends with its only newline, within a row. -/
theorem consolePrintf_line {out : List (UInt8 × ℤ)} {k : ℤ}
    (htext : Libc.Text (Libc.bytes fmt ++ [0]) args color (out ++ [(10, k)]))
    (hlen : numbuf.length = Libc.NUMBUFSIZ) (hplain : ∀ c ∈ out, c.1 ≠ 10) (hrow : row < 25)
    (hlow : 80 * row ≤ cpos) (hhigh : cpos + out.length < 80 * (row + 1)) : ∃ m',
      consolePrintf numbuf scr cpos color fmt args = .ok ⟨m', scr.cursorpos⟩ ∧
      Within cpos (80 * (row + 1)) scr.mem m' := by
  obtain ⟨m', cell, hcall, hsheet⟩ :=
    consolePrintf_at scr htext hlen (show cpos ≤ 2000 by omega)
  rw [Libc.Sheet.puts, List.foldl_append] at hsheet
  obtain ⟨hend, hothers, -⟩ := Libc.Sheet.puts_plain
    (u := Libc.sheetOf CONSOLE_ADDR scr.mem cpos) hplain (show cpos + out.length ≤ 2000 by omega)
  have hpos : (Libc.sheetOf CONSOLE_ADDR scr.mem cpos).pos = cpos := rfl
  rw [hpos] at hend hothers
  refine ⟨m', hcall, fun i hi hout => ?_, hsheet.frame⟩
  refine (hsheet.cells i hi).trans ((Libc.Sheet.put_newline k ?_ ?_).trans (hothers i (by omega)))
  · change (Libc.Sheet.puts _ out).pos < 2000
    omega
  · change i < (Libc.Sheet.puts _ out).pos ∨
      (Libc.Sheet.puts _ out).pos + (80 - (Libc.Sheet.puts _ out).pos % 80) ≤ i
    omega

theorem length_rowLabel (r : ℕ) : (rowLabel r).length = 9 := by
  simp [rowLabel, Libc.bytes]

theorem rowLabel_plain (r : ℕ) : ∀ c ∈ rowLabel r, c ≠ 10 := by
  rintro c hc rfl
  have hdigits : ∀ d < 16, Libc.upperDigits.getD d 0 ≠ 10 := by decide
  rw [rowLabel, List.mem_append, List.mem_append, List.mem_map] at hc
  rcases hc with (hc | ⟨j, -, hj⟩) | hc
  · exact absurd hc (by decide)
  · exact hdigits _ (Nat.mod_lt _ (by decide)) hj
  · exact absurd hc (by decide)

theorem text_rowLabel {r : ℕ} (hr : r < 12) :
    Libc.Text (Libc.bytes "0x%06X " ++ [0]) [⟨BitVec.ofNat 64 (64 * r * PAGESIZE), []⟩] 0x0F00
      ((rowLabel r).map fun c => (c, 0x0F00)) := by
  have hkinds : Libc.argKinds (Libc.bytes "0x%06X ") = [.word] := by
    have hbytes : Libc.bytes "0x%06X " = [48, 120] ++ 37 :: [48, 54, 88, 32] := by decide
    rw [hbytes, Libc.argKinds_directive (by decide) (by decide)]
    decide
  have hrun : ∀ r < 12, Libc.vprintf (fun l c k => l ++ [(c, k)]) (List.replicate 24 0) [] 0x0F00
      (Libc.bytes "0x%06X " ++ [0]) [⟨BitVec.ofNat 64 (64 * r * PAGESIZE), []⟩] =
      .ok ((rowLabel r).map fun c => (c, 0x0F00)) := by
    decide +kernel
  refine Libc.text_of_run (by decide) ?_ (by rfl) (hrun r hr)
  rw [hkinds]
  exact ⟨trivial, trivial⟩

/-- The title of the second picture. -/
def virtualTitle (pid : ℕ) : List UInt8 := Libc.bytes "VIRTUAL ADDRESS SPACE FOR " ++
  (if pid < 10 then [] else [49]) ++ [UInt8.ofNat (48 + pid % 10)]

theorem text_physical : Libc.Text (Libc.bytes "PHYSICAL MEMORY\n" ++ [0]) [] 0x0F00
    ((Libc.bytes "PHYSICAL MEMORY").map (fun c => (c, 0x0F00)) ++ [(10, 0x0F00)]) := by
  have hkinds : Libc.argKinds (Libc.bytes "PHYSICAL MEMORY\n") = [] :=
    Libc.argKinds_plain (by decide)
  have hrun : Libc.vprintf (fun l c k => l ++ [(c, k)]) (List.replicate 24 0) [] 0x0F00
      (Libc.bytes "PHYSICAL MEMORY\n" ++ [0]) [] =
      .ok ((Libc.bytes "PHYSICAL MEMORY").map (fun c => (c, 0x0F00)) ++ [(10, 0x0F00)]) := by
    decide +kernel
  refine Libc.text_of_run (by decide) ?_ rfl hrun
  rw [hkinds]
  trivial

theorem text_virtual {pid : ℕ} (hpid : pid < NPROC) :
    Libc.Text (Libc.bytes "VIRTUAL ADDRESS SPACE FOR %d\n" ++ [0]) [⟨BitVec.ofNat 64 pid, []⟩] 0x0F00
      ((virtualTitle pid).map (fun c => (c, 0x0F00)) ++ [(10, 0x0F00)]) := by
  have hkinds : Libc.argKinds (Libc.bytes "VIRTUAL ADDRESS SPACE FOR %d\n") = [.word] := by
    have hbytes : Libc.bytes "VIRTUAL ADDRESS SPACE FOR %d\n" =
        Libc.bytes "VIRTUAL ADDRESS SPACE FOR " ++ 37 :: [100, 10] := by decide
    rw [hbytes, Libc.argKinds_directive (by decide) (by decide)]
    decide
  have hrun : ∀ pid < NPROC, Libc.vprintf (fun l c k => l ++ [(c, k)]) (List.replicate 24 0) [] 0x0F00
      (Libc.bytes "VIRTUAL ADDRESS SPACE FOR %d\n" ++ [0]) [⟨BitVec.ofNat 64 pid, []⟩] =
      .ok ((virtualTitle pid).map (fun c => (c, 0x0F00)) ++ [(10, 0x0F00)]) := by
    decide +kernel
  refine Libc.text_of_run (by decide) ?_ rfl (hrun pid hpid)
  rw [hkinds]
  exact ⟨trivial, trivial⟩

theorem virtualTitle_plain {pid : ℕ} (hpid : pid < NPROC) :
    ∀ c ∈ (virtualTitle pid).map fun c => (c, (0x0F00 : ℤ)), c.1 ≠ 10 := by
  have hall : ∀ pid < NPROC, ∀ c ∈ (virtualTitle pid).map fun c => (c, (0x0F00 : ℤ)), c.1 ≠ 10 := by
    decide +kernel
  exact hall pid hpid

theorem length_virtualTitle {pid : ℕ} (hpid : pid < NPROC) :
    CPOS 10 26 + ((virtualTitle pid).map fun c => (c, (0x0F00 : ℤ))).length < 80 * (10 + 1) := by
  have hall : ∀ pid < NPROC,
      CPOS 10 26 + ((virtualTitle pid).map fun c => (c, (0x0F00 : ℤ))).length < 80 * (10 + 1) := by
    decide +kernel
  exact hall pid hpid

/-! ### A page -/

/-- A page without an error: its cell, and the label of a row that begins with it. -/
theorem drawPage_spec (hlen : numbuf.length = Libc.NUMBUFSIZ) (hpn : pn < 768) (hrow : row ≤ 11)
    (ch : UInt16) : ∃ m',
      drawPage numbuf row pn ch none scr = .ok ⟨m', scr.cursorpos⟩ ∧ pageCell m' row pn = ch ∧
      (pn % 64 = 0 → ∀ j (hj : j < (rowLabel (pn / 64)).length),
        Libc.loadCell m' (CONSOLE_ADDR + 2 * CPOS (row + pn / 64) (3 + j)) =
          Libc.cellOf (rowLabel (pn / 64))[j] 0x0F00) ∧
      (∀ i < 2000, i ≠ CPOS (row + pn / 64) (12 + pn % 64) →
        (pn % 64 = 0 → i < CPOS (row + pn / 64) 3 ∨ CPOS (row + pn / 64) 12 ≤ i) →
        Libc.loadCell m' (CONSOLE_ADDR + 2 * i) = Libc.loadCell scr.mem (CONSOLE_ADDR + 2 * i)) ∧
      ∀ a, a < CONSOLE_ADDR ∨ CONSOLE_ADDR + 4000 ≤ a → m' a = scr.mem a := by
  simp only [CPOS]
  have hcell : (row + pn / 64) * 80 + (12 + pn % 64) < 2000 := by omega
  by_cases hstart : pn % 64 = 0
  swap
  · -- in the middle of a row
    have hset := within_setCell scr hcell ch
    refine ⟨_, ?_, Libc.loadCell_storeCell _ _ ch, fun h => absurd h hstart, fun i hi hne _ => ?_,
      hset.frame⟩
    · rw [drawPage, if_neg hstart]
      rfl
    · exact hset.others i hi (by omega)
  · have hpage : 64 * (pn / 64) = pn := by omega
    have htext := text_rowLabel (show pn / 64 < 12 by omega)
    rw [hpage] at htext
    have hplain : ∀ c ∈ (rowLabel (pn / 64)).map fun c => (c, (0x0F00 : ℤ)), c.1 ≠ 10 := by
      intro c hc
      obtain ⟨x, hx, rfl⟩ := List.mem_map.1 hc
      exact rowLabel_plain _ x hx
    have hlabel := length_rowLabel (pn / 64)
    have hroom : CPOS (row + pn / 64) 3 + ((rowLabel (pn / 64)).map fun c => (c, (0x0F00 : ℤ))).length ≤
        2000 := by
      rw [List.length_map, hlabel, CPOS]
      omega
    obtain ⟨m₁, hprint, hwithin, hcells⟩ := consolePrintf_plain scr htext hlen hplain hroom
    rw [List.length_map, hlabel, CPOS] at hwithin
    have hset := within_setCell ⟨m₁, scr.cursorpos⟩ hcell ch
    refine ⟨_, ?_, Libc.loadCell_storeCell _ _ ch, fun _ j hj => ?_, fun i hi hne hout => ?_,
      fun a ha => (hset.frame a ha).trans (hwithin.frame a ha)⟩
    · rw [drawPage, if_pos hstart, hprint]
      rfl
    · rw [← Nat.add_assoc]
      refine (hset.others _ (by omega) (by omega)).trans ((hcells j ?_).trans ?_)
      · rwa [List.length_map]
      · rw [List.getElem_map]
    · exact (hset.others i hi (by omega)).trans (hwithin.others i hi (hout hstart))

/-- Nothing drawn yet. -/
theorem painted_zero : Painted row 0 f m m :=
  ⟨fun _ h => absurd h (Nat.not_lt_zero _), fun _ h => absurd h (Nat.not_lt_zero _), fun _ _ _ => rfl,
    fun _ _ => rfl⟩

/-- One more page is drawn. -/
theorem Painted.step (h : Painted row pn f m scr.mem) (hlen : numbuf.length = Libc.NUMBUFSIZ)
    (hpn : pn < 768) (hrow : row ≤ 11) : ∃ m',
      drawPage numbuf row pn (f pn) none scr = .ok ⟨m', scr.cursorpos⟩ ∧
      Painted row (pn + 1) f m m' := by
  obtain ⟨m', hdraw, hcell, hlabel, hothers, hframe⟩ :=
    drawPage_spec scr hlen hpn hrow (f pn)
  simp only [CPOS] at hlabel hothers
  refine ⟨m', hdraw, fun n hn => ?_, fun r hr j hj => ?_, fun i hi hout => ?_,
    fun a ha => (hframe a ha).trans (h.frame a ha)⟩
  · rcases Nat.eq_or_lt_of_le (Nat.le_of_lt_succ hn) with rfl | hlt
    · exact hcell
    · rw [← h.pages n hlt, pageCell, pageCell, CPOS]
      exact hothers _ (by omega) (by omega) fun _ => by omega
  · have hj9 := hj
    rw [length_rowLabel] at hj9
    rcases Nat.eq_or_lt_of_le (Nat.le_of_lt_succ hr) with hr | hlt
    · obtain rfl : pn / 64 = r := by omega
      exact hlabel (by omega) j hj
    · rw [← h.labels r hlt j hj, CPOS]
      exact hothers _ (by omega) (by omega) fun _ => by omega
  · exact (hothers i hi (by omega) fun _ => by omega).trans (h.others i hi (by omega))

end

/-! ### The loops -/

section
variable {L : Layout} {numbuf : List UInt8} {mem : Mem} {v r : ℕ} {m : Libc.Memory}

/-- **The loop over physical memory**, as long as there is no error. -/
theorem drawPhysical_spec (hlen : numbuf.length = Libc.NUMBUFSIZ)
    (hno : ∀ n < 512, (symbolAt L mem v (n * PAGESIZE)).2 = none) (k : ℕ) {pn : ℕ}
    (hk : pn + k = 512) (scr : Libc.Screen)
    (h : Painted 1 pn (fun n => (symbolAt L mem v (n * PAGESIZE)).1) m scr.mem) : ∃ m',
      drawPhysical numbuf L mem v (k + 1) pn scr = .ok ⟨m', scr.cursorpos⟩ ∧
      Painted 1 512 (fun n => (symbolAt L mem v (n * PAGESIZE)).1) m m' := by
  induction k generalizing pn scr with
  | zero =>
    obtain rfl : pn = 512 := hk
    exact ⟨scr.mem, by rw [drawPhysical, if_neg (by decide)], h⟩
  | succ k ih =>
    obtain ⟨m₁, hdraw, h₁⟩ := h.step scr hlen (by omega) (by decide)
    obtain ⟨m₂, hloop, h₂⟩ := ih (by omega) ⟨m₁, scr.cursorpos⟩ h₁
    have hlt : pn * PAGESIZE < maxViewPa := by
      rw [maxViewPa, PAGESIZE]
      omega
    refine ⟨m₂, ?_, h₂⟩
    rw [drawPhysical, if_pos hlt, ← hloop]
    simp only
    rw [hno pn (by omega), hdraw, ok_bind]

/-- **The loop over an address space**, as long as there is no error. -/
theorem drawVirtual_spec (hlen : numbuf.length = Libc.NUMBUFSIZ) (hs : Shaped mem r)
    (hno : ∀ w < 768, (symbolUnder L mem v (vmiterAt mem r (w * 4096))).2 = none) (k : ℕ) {w : ℕ}
    (hk : w + k = 768) (scr : Libc.Screen)
    (h : Painted 11 w (fun w => (symbolUnder L mem v (vmiterAt mem r (w * 4096))).1) m scr.mem) :
    ∃ m', drawVirtual numbuf L mem v (k + 1) (vmiterAt mem r (w * 4096)) scr =
        .ok ⟨m', scr.cursorpos⟩ ∧
      Painted 11 768 (fun w => (symbolUnder L mem v (vmiterAt mem r (w * 4096))).1) m m' := by
  induction k generalizing w scr with
  | zero =>
    obtain rfl : w = 768 := hk
    exact ⟨scr.mem, by rw [drawVirtual, vmiterAt_va, if_neg (by decide)], h⟩
  | succ k ih =>
    obtain ⟨m₁, hdraw, h₁⟩ := h.step scr hlen (by omega) le_rfl
    obtain ⟨m₂, hloop, h₂⟩ := ih (by omega) ⟨m₁, scr.cursorpos⟩ h₁
    have hlt : w * 4096 < maxViewVa := by
      rw [maxViewVa, PAGESIZE]
      omega
    have hpage : w * 4096 / PAGESIZE = w := page_div w
    refine ⟨m₂, ?_, h₂⟩
    rw [drawVirtual, vmiterAt_va, if_pos hlt, ← hloop]
    simp only
    rw [hno w (by omega), hpage, hdraw, ok_bind, advance_eq hs (by omega), ok_bind]

/-! ### The symbols of an address space -/

theorem vmiterAt_present {va : ℕ} :
    (vmiterAt mem r va).present mem = true ↔ translate mem r (va / 4096) ≠ none := by
  rw [Vmiter.present, decide_eq_true_iff, translate]
  change mem (stop mem r (va / 4096)).page (stop mem r (va / 4096)).idx &&& 1 ≠ 0 ↔ _
  rw [Nat.and_one_is_mod]
  by_cases he : mem (stop mem r (va / 4096)).page (stop mem r (va / 4096)).idx % 2 = 1
  · rw [if_pos he]
    exact iff_of_true (by omega) (Option.some_ne_none _)
  · rw [if_neg he]
    exact iff_of_false (by omega) fun h => h rfl

theorem symbolUnder_absent {w : ℕ} (htr : translate mem r w = none) :
    symbolUnder L mem v (vmiterAt mem r (w * 4096)) = (symbol ' ' 0, none) := by
  have hdiv : w * 4096 / 4096 = w := Nat.mul_div_cancel _ (by decide)
  have habsent : ¬ (vmiterAt mem r (w * 4096)).present mem = true := by
    rw [vmiterAt_present, hdiv]
    exact fun h => h htr
  rw [symbolUnder, if_neg habsent]

theorem symbolUnder_mapped {w n q : ℕ} (htr : translate mem r w = some (n, q)) :
    symbolUnder L mem v (vmiterAt mem r (w * 4096)) =
      (if IsUser q then exchanged (symbolAt L mem v (n * PAGESIZE)).1
        else (symbolAt L mem v (n * PAGESIZE)).1, (symbolAt L mem v (n * PAGESIZE)).2) := by
  have hdiv : w * 4096 / 4096 = w := Nat.mul_div_cancel _ (by decide)
  have htr' : translate mem r (w * 4096 / 4096) = some (n, q) := by rw [hdiv, htr]
  have hpresent : (vmiterAt mem r (w * 4096)).present mem = true := by
    rw [vmiterAt_present, htr']
    exact Option.some_ne_none _
  have hpa : (vmiterAt mem r (w * 4096)).pa mem = n * PAGESIZE := by
    rw [vmiterAt_pa htr', Nat.mul_mod_left, Nat.add_zero, PAGESIZE]
  have huser : (vmiterAt mem r (w * 4096)).user mem = true ↔ IsUser q := by
    rw [vmiterAt_user, htr']
    constructor
    · rintro ⟨n', q', heq, hq⟩
      cases heq
      exact hq
    · exact fun hq => ⟨n, q, rfl, hq⟩
  rw [symbolUnder, if_pos hpresent, hpa]
  simp only [huser]

end

/-! ## The picture of a state -/

section
variable {L : Layout} {d : ℕ → ℕ} {s t : State} {mem : Mem} {i k n p : ℕ}

/-- The map has the marks of the state `t` that `memshow` leaves. -/
structure Mapped (L : Layout) (t : State) (mem : Mem) : Prop where
  others : ∀ p, p ≠ t.viewer / PAGESIZE → mem p = t.mem p
  marks : ∀ n < 1024, ∀ b < 32, (usageAt mem t.viewer n).testBit b = true ↔
    RefreshMarks L t (t.viewer / PAGESIZE) n b

/-- The marks do not depend on the page of the map. -/
theorem refreshMarks_congr {b : ℕ} (h : Viewable L s) (hk : usagePage L s = some k)
    (hptable : t.ptable = s.ptable) (hmem : ∀ p, p ≠ k → t.mem p = s.mem p) :
    RefreshMarks L t k n b ↔ RefreshMarks L s k n b := by
  obtain ⟨hkernel, hprocs⟩ := h.apart k hk
  have hagree : ∀ {ps : List ℕ}, k ∉ ps → Agree s.mem t.mem ps := fun hout p hp i => by
    rw [hmem p fun heq => hout (heq ▸ hp)]
  have hviewed : ∀ pid, t.Viewed L pid ↔ s.Viewed L pid := fun pid => by
    rw [State.Viewed, State.Viewed, State.OwnTable, State.OwnTable, hptable]
  have hroot : ∀ pid, t.root pid = s.root pid := fun pid => by rw [State.root, State.root, hptable]
  rw [RefreshMarks, RefreshMarks, (hagree hkernel).tables]
  refine or_congr_right (exists_congr fun pid => ?_)
  rw [hviewed, hroot]
  exact and_congr_right fun hv => (hagree (hprocs pid hv)).procMarks

/-- `refresh` leaves what `memshow` does, with the marks in the map. -/
theorem Inv.refresh_mapped (h : Inv L d s) (hlive : s.Live i) (hshow : WeensyOS.memshow L s = .ok t) :
    ∃ mem, refresh L s = .ok { t with mem := mem } ∧ Mapped L t mem := by
  rw [memshow_eq h.slot0] at hshow
  cases hk : usagePage L s with
  | none =>
    rw [allocMap_none hk] at hshow
    cases hshow
  | some k =>
    obtain ⟨s₁, mem, halloc, hview, hrefresh, hothers, hmarks⟩ :=
      refresh_marks h.viewable ⟨i, h.viewed_iff.2 hlive⟩ hk
    obtain ⟨s₂, halloc', -, hptable, hmem⟩ := allocMap_some hk
    cases halloc.symm.trans halloc'
    rw [halloc, ok_bind, hview] at hshow
    have ht : t = { s₁ with mem := s₁.mem.fill k 0 } := (Except.ok.inj hshow).symm
    have hviewer : t.viewer = s₁.viewer := by rw [ht]
    have hfill : ∀ p, p ≠ k → t.mem p = s₁.mem p := fun p hp => by
      rw [ht]
      exact funext (fill_of_ne hp)
    refine ⟨mem, by rw [hrefresh, ht], ?_, ?_⟩
    · rw [hviewer, hview]
      exact fun p hp => (hothers p hp).trans (hfill p hp).symm
    · rw [hviewer, hview]
      intro n hn b hb
      rw [hmarks n hn b hb]
      refine (refreshMarks_congr h.viewable hk (by rw [ht, hptable]) fun p hp => ?_).symm
      exact (hfill p hp).trans (hmem p hp)

/-- The symbol of the page `n` that is put to the use `u`: the map ends at `maxpa`. -/
def shownSymbol (n : ℕ) (u : Use) : UInt16 := if n < 1024 then u.symbol else symbol 'K' 0x4000

/-- The picture in the memory `m'` shows the state `t`, and the address space of the process in the
    slot `p`.  Only cells of the console have changed. -/
structure Displayed (L : Layout) (t : State) (p : ℕ) (m m' : Libc.Memory) : Prop where
  physical : ∀ n < NPAGES, ∀ u, t.UsedFor L n u → pageCell m' 1 n = u.symbol
  absent : ∀ w < 768, translate t.mem (t.root p) w = none → pageCell m' 11 w = symbol ' ' 0
  mapped : ∀ w < 768, ∀ n q u, translate t.mem (t.root p) w = some (n, q) → t.UsedFor L n u →
    pageCell m' 11 w = if IsUser q then exchanged (shownSymbol n u) else shownSymbol n u
  labels : ∀ row r, row = 1 ∧ r < 8 ∨ row = 11 ∧ r < 12 → ∀ j (hj : j < (rowLabel r).length),
    Libc.loadCell m' (CONSOLE_ADDR + 2 * CPOS (row + r) (3 + j)) = Libc.cellOf (rowLabel r)[j] 0x0F00
  frame : ∀ a, a < CONSOLE_ADDR ∨ CONSOLE_ADDR + 4000 ≤ a → m' a = m a

variable {numbuf : List UInt8} {u : Use}

theorem symbolAt_beyond {v : ℕ} (hn : 1024 ≤ n) :
    symbolAt L mem v (n * PAGESIZE) = (symbol 'K' 0x4000, none) := by
  have hge : n * PAGESIZE ≥ maxpa := Nat.mul_le_mul_right _ hn
  have hres : reservedPhysicalAddress (n * PAGESIZE) = false := by
    rw [reservedPhysicalAddress, PAGESIZE, IOPHYSMEM, EXTPHYSMEM]
    simp only [ge_iff_le, Bool.or_eq_false_iff, Bool.and_eq_false_iff, decide_eq_false_iff_not]
    omega
  have halloc : allocatablePhysicalAddress L (n * PAGESIZE) = false := by
    refine Bool.eq_false_of_not_eq_true fun halloc => ?_
    have hlt : n < NPAGES := Alloc.lt halloc
    exact absurd (hlt.trans (by decide)) (Nat.not_lt.2 hn)
  simp only [symbolAt, if_pos hge, hres, halloc, Bool.not_false, Bool.and_self, if_true]

/-- Every page is shown with the symbol of its use, and without an error. -/
theorem Inv.symbolAt_shown (h : Inv L d t) (hk : t.viewerPages = [t.viewer / PAGESIZE])
    (hmap : Mapped L t mem) (hu : t.UsedFor L n u) :
    symbolAt L mem t.viewer (n * PAGESIZE) = (shownSymbol n u, none) := by
  rw [shownSymbol]
  by_cases hn : n < 1024
  · rw [if_pos hn, h.symbolAt_use hk hn (hmap.marks n hn) hu]
  · rw [if_neg hn, symbolAt_beyond (Nat.le_of_not_lt hn)]

theorem Inv.symbolAt_no_error (h : Inv L d t) (hk : t.viewerPages = [t.viewer / PAGESIZE])
    (hmap : Mapped L t mem) (n : ℕ) : (symbolAt L mem t.viewer (n * PAGESIZE)).2 = none := by
  obtain ⟨u, hu⟩ := State.use_exists (L := L) (s := t) n
  rw [h.symbolAt_shown hk hmap hu]

theorem Inv.viewerPages_memshow (h : Inv L d s) (hshow : WeensyOS.memshow L s = .ok t) :
    t.viewerPages = [t.viewer / PAGESIZE] := by
  obtain ⟨hne, heq⟩ := h.viewer_memshow hshow
  rw [State.viewerPages, if_neg (heq ▸ hne)]

/-- The page table of a process does not lie in the map. -/
theorem Inv.agree_map (h : Inv L d t) (hk : t.viewerPages = [t.viewer / PAGESIZE])
    (hmap : Mapped L t mem) (hp : t.Live p) : Agree t.mem mem (tables t.mem 3 (t.root p)) := by
  intro q hq j
  rw [hmap.others q]
  rintro rfl
  refine (h.viewer_apart ?_ hp).1 hq
  rw [hk]
  exact List.mem_singleton_self _

theorem Inv.symbolUnder_no_error {r : ℕ} (h : Inv L d t)
    (hk : t.viewerPages = [t.viewer / PAGESIZE]) (hmap : Mapped L t mem) (w : ℕ) :
    (symbolUnder L mem t.viewer (vmiterAt mem r (w * 4096))).2 = none := by
  cases htr : translate mem r w with
  | none => rw [symbolUnder_absent htr]
  | some x => rw [symbolUnder_mapped htr, h.symbolAt_no_error hk hmap]

theorem Inv.use_named (h : Inv L d t) (hu : t.UsedFor L n u) : u.Named := by
  cases hu with
  | table hpid _ => exact ⟨Nat.pos_of_ne_zero (h.ne_zero hpid), hpid.1⟩
  | process _ hpid _ => exact ⟨Nat.pos_of_ne_zero (h.ne_zero hpid.1), hpid.1.1⟩
  | _ => trivial

/-- **The memory viewer shows the memory.** -/
theorem Inv.consoleMemviewer_displays (h : Inv L d s) (hp : s.Live p)
    (hshow : WeensyOS.memshow L s = .ok t) (hlen : numbuf.length = Libc.NUMBUFSIZ)
    (scr : Libc.Screen) : ∃ mem m',
      consoleMemviewer numbuf L s (some p) scr = .ok ({ t with mem := mem }, ⟨m', scr.cursorpos⟩) ∧
      Mapped L t mem ∧ Displayed L t p scr.mem m' := by
  obtain ⟨mem, hrefresh, hmap⟩ := h.refresh_mapped hp hshow
  obtain ⟨ht, hquiet⟩ := h.memshow hshow
  have hview := h.viewerPages_memshow hshow
  have hno := ht.symbolAt_no_error hview hmap
  have hpt : t.Live p := by
    rw [State.Live, hquiet.ptable]
    exact hp
  have hagree := ht.agree_map hview hmap hpt
  have hs := hagree.shaped (ht.procs p hpt).shaped
  -- the title and the pages of the physical memory
  obtain ⟨m₁, htitle, hm₁⟩ := consolePrintf_line scr text_physical hlen (by decide) (by decide)
    (show 80 * 0 ≤ CPOS 0 32 by decide) (by decide)
  obtain ⟨m₂, hphysical, hm₂⟩ := drawPhysical_spec hlen (fun n _ => hno n) 512 rfl
    ⟨m₁, scr.cursorpos⟩ painted_zero
  -- the title and the pages of the address space
  have hpid : (t.ptable p).pid = p := ht.pid p hpt
  obtain ⟨m₃, htitle', hm₃⟩ := consolePrintf_line ⟨m₂, scr.cursorpos⟩ (text_virtual hpt.1) hlen
    (virtualTitle_plain hpt.1) (by decide) (show 80 * 10 ≤ CPOS 10 26 by decide)
    (length_virtualTitle hpt.1)
  have hcreate : Vmiter.create mem (t.ptable p).pagetable 0 = .ok (vmiterAt mem (t.root p) 0) := by
    rw [ht.treeShaped.pagetable hpt]
    exact create_eq hs (canonical_of_lt (by decide)) (by decide)
  obtain ⟨m₄, hvirtual, hm₄⟩ := drawVirtual_spec hlen hs
    (fun w _ => ht.symbolUnder_no_error hview hmap w) 768 (Nat.zero_add 768)
    ⟨m₃, scr.cursorpos⟩ painted_zero
  rw [Nat.zero_mul] at hvirtual
  have hpt0 : (t.ptable p).pagetable ≠ 0 := (ht.viewed_iff.2 hpt).2.2.2.1
  -- the second picture leaves the first as it is
  have hkeep : ∀ i < 800, Libc.loadCell m₄ (CONSOLE_ADDR + 2 * i) =
      Libc.loadCell m₂ (CONSOLE_ADDR + 2 * i) := by
    intro i hi
    refine (hm₄.others i (by omega) (Or.inl (by omega))).trans (hm₃.others i (by omega) (Or.inl ?_))
    rw [CPOS]
    omega
  refine ⟨mem, m₄, ?_, hmap, fun n hn u hu => ?_, fun w hw htr => ?_, fun w hw n q u htr hu => ?_,
    ?_, fun a ha => ?_⟩
  · rw [consoleMemviewer, assert_ok h.slot0, ok_bind, hrefresh, ok_bind, htitle, ok_bind]
    simp only
    rw [show maxViewPa / PAGESIZE = 512 by decide, hphysical, ok_bind, if_pos hpt0,
      consoleMemviewerVirtual]
    simp only
    rw [hpid, htitle', ok_bind, hcreate, ok_bind, show maxViewVa / PAGESIZE = 768 by decide, hvirtual]
    rfl
  · have hcell : pageCell m₂ 1 n = u.symbol := by
      rw [hm₂.pages n hn, ht.symbolAt_shown hview hmap hu, shownSymbol,
        if_pos (hn.trans (by decide))]
    rw [NPAGES, MEMSIZE_PHYSICAL, PAGESIZE] at hn
    rw [← hcell, pageCell, pageCell]
    refine hkeep _ ?_
    rw [CPOS]
    omega
  · rw [hm₄.pages w hw, symbolUnder_absent (by rw [hagree.translate, htr])]
  · rw [hm₄.pages w hw, symbolUnder_mapped (by rw [hagree.translate, htr]),
      ht.symbolAt_shown hview hmap hu]
  · rintro row r (⟨rfl, hr⟩ | ⟨rfl, hr⟩) j hj
    · rw [← hm₂.labels r (by omega) j hj]
      refine hkeep _ ?_
      rw [length_rowLabel] at hj
      rw [CPOS]
      omega
    · exact hm₄.labels r (by omega) j hj
  · exact (hm₄.frame a ha).trans ((hm₃.frame a ha).trans ((hm₂.frame a ha).trans (hm₁.frame a ha)))

/-! ## The process that is shown -/

theorem searchShown_cases (s : State) (k : ℕ) {showing : ℕ} (hlt : showing < NPROC) :
    (∃ p, searchShown s k showing = (some p, p) ∧ p < NPROC ∧ (s.ptable p).state ≠ .free) ∨
      ∀ j < k, ¬ ((s.ptable ((showing + j) % NPROC)).state ≠ .free ∧
        (s.ptable ((showing + j) % NPROC)).pagetable ≠ 0) := by
  induction k generalizing showing with
  | zero => exact Or.inr fun j hj => absurd hj (Nat.not_lt_zero j)
  | succ k ih =>
    rw [searchShown]
    by_cases hhere : (s.ptable showing).state ≠ .free ∧ (s.ptable showing).pagetable ≠ 0
    · rw [if_pos hhere]
      exact Or.inl ⟨showing, rfl, hlt, hhere.1⟩
    · rw [if_neg hhere]
      refine (ih (Nat.mod_lt _ (by decide))).imp_right fun hnone j hj => ?_
      cases j with
      | zero => rwa [Nat.add_zero, Nat.mod_eq_of_lt hlt]
      | succ j =>
        have hat : ((showing + 1) % NPROC + j) % NPROC = (showing + (j + 1)) % NPROC := by
          rw [Nat.mod_add_mod, Nat.add_right_comm, Nat.add_assoc]
        rw [← hat]
        exact hnone j (Nat.lt_of_succ_lt_succ hj)

/-- The search finds a process, if there is one. -/
theorem Inv.searchShown_live (h : Inv L d s) (hi : s.Live i) {showing : ℕ} (hlt : showing < NPROC) :
    ∃ p, searchShown s NPROC showing = (some p, p) ∧ s.Live p := by
  rcases searchShown_cases s NPROC hlt with ⟨p, hsearch, hp, hstate⟩ | hnone
  · exact ⟨p, hsearch, hp, hstate⟩
  · have hat : (showing + (i + NPROC - showing) % NPROC) % NPROC = i := by
      have hi' := hi.1
      rw [NPROC] at hi' hlt ⊢
      omega
    refine absurd ?_ (hnone ((i + NPROC - showing) % NPROC) (Nat.mod_lt _ (by decide)))
    rw [hat]
    exact ⟨hi.2, (h.viewed_iff.2 hi).2.2.2.1⟩

theorem Showing.tick_lt {st : Showing} (h : st.showing < NPROC) (ticks : ℕ) :
    (st.tick ticks).showing < NPROC := by
  rw [tick]
  split_ifs
  · exact Nat.mod_lt _ (by decide)
  · exact h

variable {s₀ : State} {evs : List Event} {regs : Regs}

/-- **The picture of the memory.**  In every run in which no fork overflows a count, if there is a page
    for the viewer, an entry into the kernel with the registers `regs` draws the state `t` that
    `memshow` leaves, and the address space of a process.  No page has an error, and the picture
    tells what each page is used for: only the map of the viewer looks like the kernel. -/
theorem run_displays (hboot : Boot L s₀) (hforks : Meets (step L) SafeFork s₀ evs)
    (hrun : run (step L) s₀ evs = .ok s) (hspin : s.spinning = false) (hview : shown L s ≠ 0)
    (hlen : numbuf.length = Libc.NUMBUFSIZ) (ticks : ℕ) (st : Showing) (hst : st.showing < NPROC)
    (scr : Libc.Screen) :
    ∃ t mem p st' m', memshow L (saveRegs s regs) = .ok t ∧
      memshowDraw numbuf L ticks st (saveRegs s regs) scr =
        .ok ({ t with mem := mem }, st', ⟨m', scr.cursorpos⟩) ∧
      (∀ q, q ≠ t.viewer / PAGESIZE → mem q = t.mem q) ∧ t.Live p ∧ st'.showing = p ∧
      Displayed L t p scr.mem m' ∧
      (∀ n, (symbolAt L mem t.viewer (n * PAGESIZE)).2 = none ∧ ∃ u, t.UsedFor L n u) ∧
      ∀ n < NPAGES, ∀ n' < NPAGES, ∀ u u', t.UsedFor L n u → t.UsedFor L n' u' →
        pageCell m' 1 n = pageCell m' 1 n' →
        u = u' ∨ u ∈ [Use.kernel, Use.viewer] ∧ u' ∈ [Use.kernel, Use.viewer] := by
  obtain ⟨d, hgood⟩ := run_safe hboot hforks hrun
  have h := hgood.inv.saveRegs regs
  obtain ⟨t, hshow, -, -⟩ := h.memshow_ok hview
  have hlive : (saveRegs s regs).Live s.current := saveRegs_live.2 (hgood.running hspin)
  obtain ⟨p, hsearch, hp⟩ := h.searchShown_live hlive (Showing.tick_lt hst ticks)
  obtain ⟨mem, m', hdraw, hmap, hpicture⟩ := h.consoleMemviewer_displays hp hshow hlen scr
  obtain ⟨ht, hquiet⟩ := h.memshow hshow
  refine ⟨t, mem, p, ⟨(st.tick ticks).lastTicks, p⟩, m', hshow, ?_, hmap.others, ?_, rfl, hpicture,
    fun n => ⟨ht.symbolAt_no_error (h.viewerPages_memshow hshow) hmap n, t.use_exists n⟩, ?_⟩
  · rw [memshowDraw]
    simp only
    rw [hsearch]
    simp only
    rw [hdraw]
    rfl
  · rw [State.Live, hquiet.ptable]
    exact hp
  · intro n hn n' hn' u u' hu hu' hcell
    rw [hpicture.physical n hn u hu, hpicture.physical n' hn' u' hu'] at hcell
    exact Use.eq_of_symbol (ht.use_named hu) (ht.use_named hu') hcell

/-- The first entry after a fork. -/
theorem run_displays_fork : ∃ s t mem p st' m',
    run (step smallKernel) fourProcesses (orphan ++ [call SYSCALL_FORK 0]) = .ok s ∧
    memshowDraw (List.replicate 24 7) smallKernel 1 ⟨0, 0⟩ (saveRegs s (s.ptable s.current).regs)
        ⟨fun _ => 0, 0⟩ = .ok ({ t with mem := mem }, st', ⟨m', 0⟩) ∧
      Displayed smallKernel t p (fun _ => 0) m' := by
  obtain ⟨s, hrun, hspin, hviewer⟩ := fourProcesses_fork
  have hview : shown smallKernel s ≠ 0 := by
    rw [shown, hviewer, if_neg (by decide)]
    decide
  obtain ⟨t, mem, p, st', m', -, hdraw, -, -, -, hpicture, -⟩ := run_displays fourProcesses_boot
    fork_safeFork hrun hspin hview List.length_replicate 1 ⟨0, 0⟩ (by decide) ⟨fun _ => 0, 0⟩
  exact ⟨s, t, mem, p, st', m', hrun, hdraw, hpicture⟩

end

end CProj.WeensyOS
