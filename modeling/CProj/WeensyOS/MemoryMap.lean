/-
  The symbols of the memory viewer (`memusage::symbol_at` of `weensyos/k-memviewer.cc`).

  What the viewer is for: every page of physical memory is put to one `Use`, and the viewer has a
  character and a colour for each.  In a state that the kernel's invariant describes, `symbol_at`
  gives each page the symbol of its use, without an error about a page table (`symbolAt_use`), and
  the symbol tells the use (`Use.eq_of_symbol`).
-/
import Mathlib.Tactic.IntervalCases
import CProj.WeensyOS.UsageMap

namespace CProj.WeensyOS

/-! ## `symbol_at` -/

/-- `lsb(x)`: the index of the least significant bit of an `unsigned`, plus one. -/
def lsb (x : ℕ) : ℕ := ((List.range 32).find? fun i => x.testBit i).elim 0 (· + 1)

/-- One of the processes set in a mark. -/
def markedPid (v : ℕ) : ℕ := lsb (v >>> 2)

/-- A call of `page_error(pa, desc, pid)`. -/
structure PageError where
  pa : ℕ
  desc : String
  pid : ℤ
  deriving DecidableEq, Repr

/-- `c | color`. -/
def symbol (c : Char) (color : UInt16) : UInt16 := UInt16.ofNat c.toNat ||| color

/-- `colors[pid % 5] << 8`. -/
def processColor (pid : ℕ) : UInt16 := [0xF00, 0xC00, 0xA00, 0x900, 0xE00].getD (pid % 5) 0

/-- `names[pid]`. -/
def processName (pid : ℕ) : Char := "K123456789ABCDEFGHIJKLMNOPQRST??".toList.getD pid '\x00'

/-- The last part of `symbol_at`, for an allocatable page with the mark `x`. -/
def pageSymbol (pa x : ℕ) : UInt16 × Option PageError :=
  if x = 0 then (symbol '.' 0x0700, none)
  else if x = fKernel then (symbol 'K' 0x0D00, none)
  else if x = fUser then (symbol '.' 0x0700, none)
  else if x &&& fKernel ≠ 0 ∧ x &&& fUser ≠ 0 then
    (symbol '*' 0xF400, some ⟨pa, "kernel allocated page mapped for user", markedPid x⟩)
  else
    -- the lowest process involved with this page
    let pid := markedPid x
    let ch := processColor pid
    let ch := if x &&& fKernel ≠ 0 then ch ||| 0x4000 else ch
    if x > (fProcess pid ||| fKernel ||| fUser) then (symbol 'S' 0x0F00, none)
    else (symbol (processName pid) ch, none)

/-- `memusage::symbol_at(pa)`, for the map in the page of the address `v`: the symbol, and the error
    that is printed. -/
def symbolAt (L : Layout) (m : Mem) (v pa : ℕ) : UInt16 × Option PageError :=
  let isReserved := reservedPhysicalAddress pa
  let isKernel := !isReserved && !allocatablePhysicalAddress L pa
  if pa ≥ maxpa then
    if isKernel then (symbol 'K' 0x4000, none)
    else if isReserved then (symbol '?' 0x4000, none)
    else (symbol '?' 0xF000, none)
  else
    let x := usageAt m v (pa / PAGESIZE)
    if pa ≥ CONSOLE_ADDR ∧ pa < CONSOLE_ADDR + PAGESIZE then (symbol 'C' 0x0700, none)
    else if isReserved ∧ x > (fKernel ||| fUser) then
      (symbol 'R' 0x0C00, some ⟨pa, "reserved page mapped for user", markedPid x⟩)
    else if isReserved then (symbol 'R' 0x0700, none)
    else if isKernel ∧ x > (fKernel ||| fUser) then
      (symbol 'K' 0xCD00, some ⟨pa, "kernel data page mapped for user", markedPid x⟩)
    else if isKernel then (symbol 'K' 0x0D00, none)
    else if pa ≥ MEMSIZE_PHYSICAL then (symbol ' ' 0x0700, none)
    else pageSymbol pa x

/-! ## What a page is used for -/

/-- The uses of a page of physical memory. -/
inductive Use where
  | console
  | reserved
  /-- the kernel image and its stack -/
  | kernel
  | free
  /-- the map of the viewer -/
  | viewer
  /-- a page of the page table of a process -/
  | table (pid : ℕ)
  /-- a page that one process has access to -/
  | process (pid : ℕ)
  | shared
  deriving DecidableEq, Repr

/-- The name of the process of a use is that of a slot of the process table. -/
def Use.Named : Use → Prop
  | .table pid | .process pid => 1 ≤ pid ∧ pid < NPROC
  | _ => True

/-- The symbol for a use. -/
def Use.symbol : Use → UInt16
  | .console => WeensyOS.symbol 'C' 0x0700
  | .reserved => WeensyOS.symbol 'R' 0x0700
  | .kernel | .viewer => WeensyOS.symbol 'K' 0x0D00
  | .free => WeensyOS.symbol '.' 0x0700
  | .table pid => WeensyOS.symbol (processName pid) (processColor pid ||| 0x4000)
  | .process pid => WeensyOS.symbol (processName pid) (processColor pid)
  | .shared => WeensyOS.symbol 'S' 0x0F00

/-- The process in the slot `i` has access to the page `n`. -/
def State.Accesses (s : State) (i n : ℕ) : Prop := s.Live i ∧ UserMaps s.mem (s.root i) n

/-- The use of the page `n` in the state `s`. -/
inductive State.UsedFor (L : Layout) (s : State) : ℕ → Use → Prop
  | console : UsedFor L s CONSOLE_PAGE .console
  | reserved {n} (hn : reservedPhysicalAddress (n * PAGESIZE) = true) (hcon : n ≠ CONSOLE_PAGE) :
    UsedFor L s n .reserved
  | kernel {n} (hn : reservedPhysicalAddress (n * PAGESIZE) = false) (halloc : ¬ Alloc L n) :
    UsedFor L s n .kernel
  | free {n} (halloc : Alloc L n) (hn : n ∉ s.uses) : UsedFor L s n .free
  | viewer {n} (hn : n ∈ s.viewerPages) : UsedFor L s n .viewer
  | table {n pid} (hpid : s.Live pid) (hn : n ∈ tables s.mem 3 (s.root pid)) :
    UsedFor L s n (.table pid)
  | process {n pid} (hcon : n ≠ CONSOLE_PAGE) (hpid : s.Accesses pid n)
    (hone : ∀ j, s.Accesses j n → j = pid) : UsedFor L s n (.process pid)
  | shared {n i j} (hcon : n ≠ CONSOLE_PAGE) (hi : s.Accesses i n) (hj : s.Accesses j n)
    (hij : i ≠ j) : UsedFor L s n .shared

variable {L : Layout} {d : ℕ → ℕ} {s : State} {m : Mem} {u u' : Use} {b i j k n v x pid : ℕ}

/-! ## Uses and references -/

section
variable (h : Inv L d s)
include h

theorem Inv.viewed_iff : s.Viewed L i ↔ s.Live i := by
  refine ⟨fun hv => ⟨hv.2.1, hv.2.2.1⟩, fun hi => ?_⟩
  have hroot : Alloc L (s.root i) := (h.procs i hi).alloc _ (mem_owned.2 (Or.inr List.mem_cons_self))
  refine ⟨Nat.pos_of_ne_zero (h.ne_zero hi), hi.1, hi.2, fun h0 => ?_, fun hkernel => ?_⟩
  · have hpos := hroot.pos
    rw [State.root, h0, Nat.zero_div] at hpos
    exact Nat.lt_irrefl 0 hpos
  · rw [State.root, hkernel] at hroot
    exact (h.kernel.image _ List.mem_cons_self).1 hroot

/-- A process has access to the console and to pages that it refers to. -/
theorem Inv.accesses_holds (ha : s.Accesses i n) (hcon : n ≠ CONSOLE_PAGE) :
    n ∈ procPages s.mem (s.root i) := by
  obtain ⟨hi, w, hw, hpage⟩ := ha
  obtain ⟨q, htr, huser⟩ := userPage_eq_some.1 hpage
  have hok := h.procs i hi
  by_cases hlow : w < 256
  · exact absurd (hok.low w hlow n q htr huser).2.1 hcon
  by_cases hhigh : w < 768
  · exact mem_procPages.2 ⟨w, by omega, hhigh, hpage⟩
  · rw [hok.high w (Or.inl hw) (by omega)] at htr
    cases htr

theorem Inv.alloc_of_access (ha : s.Accesses i n) (hcon : n ≠ CONSOLE_PAGE) : Alloc L n :=
  (h.procs i ha.1).alloc n (mem_owned.2 (Or.inl (h.accesses_holds ha hcon)))

theorem Inv.alloc_of_table (hi : s.Live i) (hn : n ∈ tables s.mem 3 (s.root i)) : Alloc L n :=
  (h.procs i hi).alloc n (mem_owned.2 (Or.inr hn))

/-- The page of the viewer belongs to no process. -/
theorem Inv.viewer_apart (hn : n ∈ s.viewerPages) (hi : s.Live i) :
    n ∉ tables s.mem 3 (s.root i) ∧ ¬ s.Accesses i n := by
  have hout : n ∉ owned s.mem (s.root i) := by
    intro hmem
    rw [← holds_of_live hi] at hmem
    have hone := h.exclusive n (Or.inl hn)
    have htwo := two_le_count hi.1 hmem (Or.inl hn)
    omega
  refine ⟨fun htable => hout (mem_owned.2 (Or.inr htable)), fun ha => hout ?_⟩
  exact mem_owned.2 (Or.inl (h.accesses_holds ha (h.viewer n hn).ne_console))

/-- A page table belongs to one process, and no process has access to it. -/
theorem Inv.table_apart (hi : s.Live i) (hn : n ∈ tables s.mem 3 (s.root i)) :
    (∀ j, s.Live j → n ∈ tables s.mem 3 (s.root j) → j = i) ∧ ∀ j, ¬ s.Accesses j n := by
  have hout : ∀ j, s.Live j → j ≠ i → n ∉ owned s.mem (s.root j) := by
    intro j hj hji hmem
    rw [← holds_of_live hj] at hmem
    have hone := h.exclusive n (Or.inr ⟨i, hi, Or.inl hn⟩)
    have htwo := two_le_count hj.1 hmem (Or.inr ⟨i, hi, hji.symm, Or.inl hn⟩)
    omega
  refine ⟨fun j hj htable => ?_, fun j ha => ?_⟩
  · by_contra hji
    exact hout j hj hji (mem_owned.2 (Or.inr htable))
  · have hpage := h.accesses_holds ha (h.alloc_of_table hi hn).ne_console
    by_cases hji : j = i
    · subst hji
      have hnodup := (h.procs j hi).single
      rw [owned, List.append_assoc] at hnodup
      refine (List.nodup_append.1 hnodup).2.2 n hpage n ?_ rfl
      rw [tables, List.mem_cons, or_comm, ← List.mem_singleton] at hn
      exact List.mem_append.2 hn
    · exact hout j ha.1 hji (mem_owned.2 (Or.inl hpage))

/-- What `refresh` marks, in a state that the invariant describes. -/
theorem Inv.refreshMarks_iff : RefreshMarks L s k n b ↔
    (n ∈ tables s.mem 3 (kernelRoot L) ∨ n = k) ∧ b = 0 ∨
      (∃ i, s.Live i ∧ n ∈ tables s.mem 3 (s.root i) ∧ (b = 0 ∨ b = i + 1)) ∨
        ∃ i, s.Accesses i n ∧ (b = 1 ∨ b = i + 1) := by
  rw [RefreshMarks]
  refine or_congr_right ⟨?_, ?_⟩
  · rintro ⟨i, hv, ⟨hn, hb⟩ | ⟨hn, hb⟩⟩
    · exact Or.inl ⟨i, h.viewed_iff.1 hv, hn, (testBit_kernel hv.1 hv.2.1).1 hb⟩
    · exact Or.inr ⟨i, ⟨h.viewed_iff.1 hv, hn⟩, (testBit_user hv.1 hv.2.1).1 hb⟩
  · rintro (⟨i, hi, hn, hb⟩ | ⟨i, ⟨hi, hn⟩, hb⟩)
    · have hv := h.viewed_iff.2 hi
      exact ⟨i, hv, Or.inl ⟨hn, (testBit_kernel hv.1 hv.2.1).2 hb⟩⟩
    · have hv := h.viewed_iff.2 hi
      exact ⟨i, hv, Or.inr ⟨hn, (testBit_user hv.1 hv.2.1).2 hb⟩⟩

end

/-- Every page of physical memory has a use. -/
theorem State.use_exists (n : ℕ) : ∃ u, s.UsedFor L n u := by
  by_cases hcon : n = CONSOLE_PAGE
  · exact ⟨.console, hcon ▸ .console⟩
  by_cases hn : reservedPhysicalAddress (n * PAGESIZE) = true
  · exact ⟨_, .reserved hn hcon⟩
  by_cases halloc : Alloc L n
  swap
  · exact ⟨_, .kernel (Bool.eq_false_of_not_eq_true hn) halloc⟩
  by_cases huses : n ∈ s.uses
  swap
  · exact ⟨_, .free halloc huses⟩
  rcases mem_uses.1 huses with hview | ⟨i, hi, hmem⟩
  · exact ⟨_, .viewer hview⟩
  rcases mem_owned.1 hmem with hpage | htable
  swap
  · exact ⟨_, .table hi htable⟩
  obtain ⟨w, -, hw, hpage⟩ := mem_procPages.1 hpage
  have ha : s.Accesses i n := ⟨hi, w, by omega, hpage⟩
  by_cases hone : ∀ j, s.Accesses j n → j = i
  · exact ⟨_, .process hcon ha hone⟩
  · push Not at hone
    obtain ⟨j, hj, hji⟩ := hone
    exact ⟨_, .shared hcon hj ha hji⟩

/-! ## Symbols -/

/-- The uses by the processes of the process table, and the others. -/
def Use.all : List Use := [console, reserved, kernel, free, viewer, shared] ++
  (List.range' 1 (NPROC - 1)).flatMap fun pid => [table pid, process pid]

theorem Use.Named.mem_all (hu : u.Named) : u ∈ Use.all := by
  rw [Use.all, List.mem_append, List.mem_flatMap]
  cases u with
  | table pid => exact Or.inr ⟨pid, mem_pids.2 hu, List.mem_cons_self⟩
  | process pid => exact Or.inr ⟨pid, mem_pids.2 hu, List.mem_cons_of_mem _ List.mem_cons_self⟩
  | _ => exact Or.inl (by decide)

/-- **The symbol tells the use**, except that the map of the viewer looks like the kernel. -/
theorem Use.eq_of_symbol (hu : u.Named) (hu' : u'.Named) (h : u.symbol = u'.symbol) :
    u = u' ∨ u ∈ [kernel, viewer] ∧ u' ∈ [kernel, viewer] := by
  have hall : ∀ u ∈ Use.all, ∀ u' ∈ Use.all, u.symbol = u'.symbol →
      u = u' ∨ u ∈ [kernel, viewer] ∧ u' ∈ [kernel, viewer] := by
    decide +kernel
  exact hall u hu.mem_all u' hu'.mem_all h

/-! ## The symbol of a page -/

theorem usageAt_lt : usageAt m v n < 2 ^ 32 := Nat.mod_lt _ (by decide)

theorem eq_of_bits {y : ℕ} (hx : x < 2 ^ 32) (hy : y < 2 ^ 32)
    (h : ∀ b < 32, x.testBit b = true ↔ y.testBit b = true) : x = y := by
  refine Nat.eq_of_testBit_eq fun b => ?_
  by_cases hb : b < 32
  · exact Bool.eq_iff_iff.2 (h b hb)
  · have hle : 2 ^ 32 ≤ 2 ^ b := Nat.pow_le_pow_right (by decide) (by omega)
    rw [Nat.testBit_lt_two_pow (hx.trans_le hle), Nat.testBit_lt_two_pow (hy.trans_le hle)]

theorem pageSymbol_table {pa : ℕ} (h1 : 1 ≤ pid) (hlt : pid < NPROC) :
    pageSymbol pa (fKernel ||| fProcess pid) = ((Use.table pid).symbol, none) := by
  rw [NPROC] at hlt
  interval_cases pid <;> rfl

theorem pageSymbol_process {pa : ℕ} (h1 : 1 ≤ pid) (hlt : pid < NPROC) :
    pageSymbol pa (fUser ||| fProcess pid) = ((Use.process pid).symbol, none) := by
  rw [NPROC] at hlt
  interval_cases pid <;> rfl

/-- The mark names a process that is marked, and none before it is. -/
theorem markedPid_le (hbit : x.testBit (i + 1) = true) (h1 : 1 ≤ i) (hi : i < 31) :
    1 ≤ markedPid x ∧ markedPid x ≤ i := by
  have hshift : (x >>> 2).testBit (i - 1) = true := by
    rw [Nat.testBit_shiftRight, ← hbit]
    congr 1
    omega
  rw [markedPid, lsb]
  cases hfind : (List.range 32).find? fun k => (x >>> 2).testBit k with
  | none =>
    rw [List.find?_eq_none] at hfind
    exact absurd hshift (hfind (i - 1) (List.mem_range.2 (by omega)))
  | some p =>
    obtain ⟨-, -, hmin⟩ := List.find?_range_eq_some.1 hfind
    have hle : p ≤ i - 1 := by
      by_contra hlt
      have hnot := hmin (i - 1) (by omega)
      rw [hshift] at hnot
      cases hnot
    change 1 ≤ p + 1 ∧ p + 1 ≤ i
    omega

/-- A page that two processes are marked in. -/
theorem pageSymbol_shared {pa : ℕ} (h0 : x.testBit 0 = false) (hi : x.testBit (i + 1) = true)
    (hj : x.testBit (j + 1) = true) (h1 : 1 ≤ i) (hij : i < j) (hlt : j < NPROC) :
    pageSymbol pa x = (Use.shared.symbol, none) := by
  have hpid := markedPid_le hi h1 (by rw [NPROC] at hlt; omega)
  have hge : 2 ^ (j + 1) ≤ x := Nat.ge_two_pow_of_testBit hj
  have hmany : x > (fProcess (markedPid x) ||| fKernel ||| fUser) := by
    rw [fProcess_eq hpid.1 (by omega)]
    have hpow : 2 ^ (markedPid x + 1) < 2 ^ (j + 1) := Nat.pow_lt_pow_right (by decide) (by omega)
    have h4 : 2 ^ 2 ≤ 2 ^ (j + 1) := Nat.pow_le_pow_right (by decide) (by omega)
    refine lt_of_lt_of_le (Nat.or_lt_two_pow (Nat.or_lt_two_pow hpow ?_) ?_) hge
    · exact lt_of_lt_of_le (by decide) h4
    · exact lt_of_lt_of_le (by decide) h4
  have hlarge : 4 ≤ x := (Nat.pow_le_pow_right (show 0 < 2 by decide) (by omega : 2 ≤ j + 1)).trans hge
  have hkernel : ¬ x &&& fKernel ≠ 0 := by
    have hk : fKernel = 2 ^ 0 := rfl
    rw [hk, and_flag, h0]
    decide
  rw [pageSymbol, if_neg (by omega), if_neg (by rw [fKernel]; omega), if_neg (by rw [fUser]; omega),
    if_neg fun hboth => hkernel hboth.1]
  simp only [if_pos hmany]
  rfl

theorem symbolAt_console : symbolAt L m v (CONSOLE_PAGE * PAGESIZE) = (Use.console.symbol, none) := by
  rw [symbolAt, if_neg (by decide), if_pos (by decide)]
  rfl

section
variable (hn : n < 1024) (hcon : n ≠ CONSOLE_PAGE)
include hn hcon

theorem symbolAt_low : ¬ n * PAGESIZE ≥ maxpa ∧
    ¬ (n * PAGESIZE ≥ CONSOLE_ADDR ∧ n * PAGESIZE < CONSOLE_ADDR + PAGESIZE) := by
  rw [CONSOLE_PAGE, CONSOLE_ADDR, PAGESIZE] at hcon
  rw [maxpa, CONSOLE_ADDR, PAGESIZE]
  omega

theorem symbolAt_reserved (hres : reservedPhysicalAddress (n * PAGESIZE) = true)
    (hx : usageAt m v n ≤ 3) :
    symbolAt L m v (n * PAGESIZE) = (Use.reserved.symbol, none) := by
  obtain ⟨hmax, hc⟩ := symbolAt_low hn hcon
  have hx' : ¬ usageAt m v n > (fKernel ||| fUser) := Nat.not_lt.2 hx
  have hpage : n * PAGESIZE / PAGESIZE = n := page_div n
  simp only [symbolAt, if_neg hmax, if_neg hc, hpage, hres, hx', and_false, if_false, if_true]
  rfl

theorem symbolAt_kernel (hres : reservedPhysicalAddress (n * PAGESIZE) = false)
    (halloc : ¬ Alloc L n) (hx : usageAt m v n ≤ 3) :
    symbolAt L m v (n * PAGESIZE) = (Use.kernel.symbol, none) := by
  obtain ⟨hmax, hc⟩ := symbolAt_low hn hcon
  have hx' : ¬ usageAt m v n > (fKernel ||| fUser) := Nat.not_lt.2 hx
  have hpage : n * PAGESIZE / PAGESIZE = n := page_div n
  have hfalse : allocatablePhysicalAddress L (n * PAGESIZE) = false :=
    Bool.eq_false_of_not_eq_true halloc
  simp only [symbolAt, if_neg hmax, if_neg hc, hpage, hres, hfalse, hx', and_false,
    Bool.false_eq_true, if_false, Bool.not_false, Bool.and_self, if_true]
  rfl

end

theorem symbolAt_alloc (halloc : Alloc L n) :
    symbolAt L m v (n * PAGESIZE) = pageSymbol (n * PAGESIZE) (usageAt m v n) := by
  obtain ⟨hmax, hc⟩ := symbolAt_low (halloc.lt.trans (by decide)) halloc.ne_console
  have hres : reservedPhysicalAddress (n * PAGESIZE) = false := by
    rw [Alloc, allocatablePhysicalAddress] at halloc
    simp only [Bool.and_eq_true] at halloc
    exact Bool.not_eq_true' _ ▸ halloc.1.1.1
  have hphys : ¬ n * PAGESIZE ≥ MEMSIZE_PHYSICAL := by
    have hlt := halloc.lt
    rw [NPAGES, MEMSIZE_PHYSICAL, PAGESIZE] at hlt
    rw [MEMSIZE_PHYSICAL, PAGESIZE]
    omega
  have hpage : n * PAGESIZE / PAGESIZE = n := page_div n
  have htrue : allocatablePhysicalAddress L (n * PAGESIZE) = true := halloc
  simp only [symbolAt, if_neg hmax, if_neg hc, hpage, hres, htrue, Bool.false_eq_true, false_and,
    if_false, Bool.not_false, Bool.not_true, Bool.and_false, if_neg hphys]

/-! ## The picture -/

/-- A page that is not allocatable may be marked as the kernel's only. -/
theorem Inv.usageAt_le (h : Inv L d s) (hcon : n ≠ CONSOLE_PAGE) (halloc : ¬ Alloc L n)
    (hmarks : ∀ b < 32, (usageAt m v n).testBit b = true ↔ RefreshMarks L s k n b) :
    usageAt m v n ≤ 3 := by
  refine Nat.le_of_lt_succ (Nat.lt_pow_two_of_testBit (n := 2) _ fun b hb => ?_)
  by_cases hlt : b < 32
  swap
  · refine Nat.testBit_lt_two_pow (usageAt_lt.trans_le ?_)
    exact Nat.pow_le_pow_right (by decide) (by omega)
  rw [← Bool.not_eq_true, hmarks b hlt, h.refreshMarks_iff]
  rintro (⟨-, h0⟩ | ⟨i, hi, htable, -⟩ | ⟨i, ha, -⟩)
  · omega
  · exact halloc (h.alloc_of_table hi htable)
  · exact halloc (h.alloc_of_access ha hcon)

/-- **A page is shown as what it is**, without an error, if the map in the memory `m` has the
    marks of `refresh` in the state `s`. -/
theorem Inv.symbolAt_use (h : Inv L d s) (hk : s.viewerPages = [k]) (hn : n < 1024)
    (hmarks : ∀ b < 32, (usageAt m v n).testBit b = true ↔ RefreshMarks L s k n b)
    (hu : s.UsedFor L n u) : symbolAt L m v (n * PAGESIZE) = (u.symbol, none) := by
  have hview : ∀ {p}, p ∈ s.viewerPages ↔ p = k := fun {p} => by rw [hk, List.mem_singleton]
  have hkernel : Alloc L n → n ∉ tables s.mem 3 (kernelRoot L) :=
    fun halloc htable => (h.kernel.image n htable).1 halloc
  cases hu with
  | console => exact symbolAt_console
  | reserved hres hcon =>
    refine symbolAt_reserved hn hcon hres (h.usageAt_le hcon (fun halloc => ?_) hmarks)
    rw [Alloc, allocatablePhysicalAddress, hres] at halloc
    cases halloc
  | kernel hres halloc =>
    have hcon : n ≠ CONSOLE_PAGE := by
      rintro rfl
      exact absurd hres (by decide)
    exact symbolAt_kernel hn hcon hres halloc (h.usageAt_le hcon halloc hmarks)
  | free halloc hfree =>
    have hzero : usageAt m v n = 0 := by
      refine eq_of_bits usageAt_lt (by decide) fun b hb => ?_
      rw [hmarks b hb, h.refreshMarks_iff, Nat.zero_testBit]
      refine iff_of_false ?_ (by decide)
      rintro (⟨htable | rfl, -⟩ | ⟨i, hi, htable, -⟩ | ⟨i, ha, -⟩)
      · exact hkernel halloc htable
      · exact hfree (mem_uses.2 (Or.inl (hview.2 rfl)))
      · exact hfree (mem_uses.2 (Or.inr ⟨i, hi, mem_owned.2 (Or.inr htable)⟩))
      · exact hfree (mem_uses.2 (Or.inr ⟨i, ha.1,
          mem_owned.2 (Or.inl (h.accesses_holds ha halloc.ne_console))⟩))
    rw [symbolAt_alloc halloc, hzero]
    rfl
  | viewer hmem =>
    have hone : usageAt m v n = fKernel := by
      refine eq_of_bits usageAt_lt (by decide) fun b hb => ?_
      rw [hmarks b hb, h.refreshMarks_iff, testBit_fKernel]
      constructor
      · rintro (⟨-, hb⟩ | ⟨i, hi, htable, -⟩ | ⟨i, ha, -⟩)
        · exact hb
        · exact absurd htable (h.viewer_apart hmem hi).1
        · exact absurd ha (h.viewer_apart hmem ha.1).2
      · exact fun hb => Or.inl ⟨Or.inr (hview.1 hmem), hb⟩
    rw [symbolAt_alloc (h.viewer n hmem), hone]
    rfl
  | @table _ pid hpid htable =>
    have halloc := h.alloc_of_table hpid htable
    have h1 := Nat.pos_of_ne_zero (h.ne_zero hpid)
    obtain ⟨hsame, hnone⟩ := h.table_apart hpid htable
    have hmark : usageAt m v n = fKernel ||| fProcess pid := by
      refine eq_of_bits usageAt_lt (flags_lt (by decide) h1 hpid.1) fun b hb => ?_
      rw [hmarks b hb, h.refreshMarks_iff, testBit_kernel h1 hpid.1]
      constructor
      · rintro (⟨-, hb⟩ | ⟨i, hi, hmem, hb⟩ | ⟨i, ha, -⟩)
        · exact Or.inl hb
        · rwa [hsame i hi hmem] at hb
        · exact absurd ha (hnone i)
      · exact fun hb => Or.inr (Or.inl ⟨pid, hpid, htable, hb⟩)
    rw [symbolAt_alloc halloc, hmark, pageSymbol_table h1 hpid.1]
  | @process _ pid hcon hpid hone =>
    have halloc := h.alloc_of_access hpid hcon
    have h1 := Nat.pos_of_ne_zero (h.ne_zero hpid.1)
    have hmark : usageAt m v n = fUser ||| fProcess pid := by
      refine eq_of_bits usageAt_lt (flags_lt (by decide) h1 hpid.1.1) fun b hb => ?_
      rw [hmarks b hb, h.refreshMarks_iff, testBit_user h1 hpid.1.1]
      constructor
      · rintro (⟨htable | rfl, -⟩ | ⟨i, hi, htable, -⟩ | ⟨i, ha, hb⟩)
        · exact absurd htable (hkernel halloc)
        · exact absurd hpid (h.viewer_apart (hview.2 rfl) hpid.1).2
        · exact absurd hpid ((h.table_apart hi htable).2 pid)
        · rwa [hone i ha] at hb
      · exact fun hb => Or.inr (Or.inr ⟨pid, hpid, hb⟩)
    rw [symbolAt_alloc halloc, hmark, pageSymbol_process h1 hpid.1.1]
  | @shared _ i j hcon hi hj hij =>
    have halloc := h.alloc_of_access hi hcon
    have hbit : ∀ {i}, s.Accesses i n → (usageAt m v n).testBit (i + 1) = true := by
      intro i ha
      have hlt := ha.1.1
      rw [NPROC] at hlt
      rw [hmarks _ (by omega), h.refreshMarks_iff]
      exact Or.inr (Or.inr ⟨i, ha, Or.inr rfl⟩)
    have h0 : (usageAt m v n).testBit 0 = false := by
      rw [← Bool.not_eq_true, hmarks 0 (by decide), h.refreshMarks_iff]
      rintro (⟨htable | rfl, -⟩ | ⟨p, hp, htable, -⟩ | ⟨p, -, hb⟩)
      · exact hkernel halloc htable
      · exact (h.viewer_apart (hview.2 rfl) hi.1).2 hi
      · exact (h.table_apart hp htable).2 i hi
      · omega
    rw [symbolAt_alloc halloc]
    rcases Nat.lt_or_gt_of_ne hij with hlt | hgt
    · exact pageSymbol_shared h0 (hbit hi) (hbit hj) (Nat.pos_of_ne_zero (h.ne_zero hi.1)) hlt hj.1.1
    · exact pageSymbol_shared h0 (hbit hj) (hbit hi) (Nat.pos_of_ne_zero (h.ne_zero hj.1)) hgt hi.1.1

end CProj.WeensyOS
