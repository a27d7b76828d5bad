/-
  The entries into the kernel and the way back (`weensyos/k-exception.S`), on a processor with the
  registers of `struct regstate`.

  * A processor is a register file, the words of the kernel's memory, and `%cr3`.  The kernel's own
    memory is mapped to itself in every page table, so the words are given by their addresses.
  * The routines are lists of instructions.  A call of C code ends a list; what the C code does is
    said where the routines are put together.
  * `deliver` and `syscallInstr` are what the processor does on an exception and on `syscall`.  Its
    instruction pointer is followed only as far as the processor saves and restores it.
-/
import CProj.Lib.Run
import CProj.Lib.Stack
import CProj.WeensyOS.Setup

namespace CProj.WeensyOS

/-- The registers of `struct regstate`. -/
inductive Reg where
  | rax | rcx | rdx | rbx | rbp | rsi | rdi | r8 | r9 | r10 | r11 | r12 | r13 | r14 | r15 | fs | gs
  | rip | cs | rflags | rsp | ss
  deriving DecidableEq, Repr

/-- The position of a register in `struct regstate`; `reg_intno` (with `reg_swapgs`) and
    `reg_errcode` have the positions 17 and 18. -/
def Reg.index : Reg → ℕ
  | .rax => 0 | .rcx => 1 | .rdx => 2 | .rbx => 3 | .rbp => 4 | .rsi => 5 | .rdi => 6 | .r8 => 7
  | .r9 => 8 | .r10 => 9 | .r11 => 10 | .r12 => 11 | .r13 => 12 | .r14 => 13 | .r15 => 14
  | .fs => 15 | .gs => 16 | .rip => 19 | .cs => 20 | .rflags => 21 | .rsp => 22 | .ss => 23

/-- What a register keeps of a word: a segment register has 16 bits. -/
def Reg.fit : Reg → ℕ → ℕ
  | .fs, w | .gs, w | .cs, w | .ss, w => w % 2 ^ 16
  | _, w => w

structure Cpu extends Words Reg where
  cr3 : ℕ

/-! ## Instructions -/

inductive Instr where
  | push (r : Reg)
  | pushImm (w : ℕ)
  | pop (r : Reg)
  | subRsp (n : ℕ)
  | addRsp (n : ℕ)
  | mov (src dst : Reg)
  | movImm (w : ℕ) (dst : Reg)
  /-- `movq %src, a` -/
  | store (src : Reg) (a : ℕ)
  /-- `movq off(%base), %dst` -/
  | load (off : ℕ) (base dst : Reg)
  /-- `movl off(%base), %dst`, with the lower half of `dst` -/
  | loadl (off : ℕ) (base dst : Reg)
  /-- `movq a, %dst` -/
  | loadFrom (a : ℕ) (dst : Reg)
  | lea (off : ℕ) (base dst : Reg)
  | movCr3 (src : Reg)
  /-- `cmpl $w, %r; jne proc_runnable_fail` -/
  | check (w : ℕ) (r : Reg)
  | iretq
  deriving DecidableEq, Repr

/-- The 32-bit value at an address. -/
def Cpu.long (c : Cpu) (a : ℕ) : ℕ := if a % 8 = 0 then c.mem a % 2 ^ 32 else c.mem (a - 4) / 2 ^ 32

def Cpu.set (c : Cpu) (r : Reg) (w : ℕ) : Cpu := { c with reg := Function.update c.reg r w }

/-- `iretq`: the words are `%rip`, `%cs`, `%rflags`, `%rsp` and `%ss`. -/
def Cpu.iretq (c : Cpu) : Cpu :=
  let word := fun (r : Reg) k => r.fit (c.mem (c.reg .rsp + k))
  ((((c.set .rip (word .rip 0)).set .cs (word .cs 8)).set .rflags (word .rflags 16)).set .rsp
    (word .rsp 24)).set .ss (word .ss 32)

def Instr.exec (c : Cpu) : Instr → Except Fault Cpu
  | .push r => .ok { c with toWords := Pushed.push .rsp c.toWords (.reg r) }
  | .pushImm w => .ok { c with toWords := Pushed.push .rsp c.toWords (.imm w) }
  | .pop r => .ok { c with toWords := CProj.pop .rsp Reg.fit c.toWords r }
  | .subRsp n => .ok (c.set .rsp (c.reg .rsp - n))
  | .addRsp n => .ok (c.set .rsp (c.reg .rsp + n))
  | .mov src dst => .ok (c.set dst (c.reg src))
  | .movImm w dst => .ok (c.set dst w)
  | .store src a => .ok { c with mem := Function.update c.mem a (c.reg src) }
  | .load off base dst => .ok (c.set dst (c.mem (c.reg base + off)))
  | .loadl off base dst => .ok (c.set dst (c.long (c.reg base + off)))
  | .loadFrom a dst => .ok (c.set dst (c.mem a))
  | .lea off base dst => .ok (c.set dst (c.reg base + off))
  | .movCr3 src => .ok { c with cr3 := c.reg src }
  | .check w r => if c.reg r % 2 ^ 32 = w then .ok c else .error .assertion
  | .iretq => .ok c.iretq

/-- A list of instructions in turn. -/
abbrev exec (is : List Instr) (c : Cpu) : Except Fault Cpu := run Instr.exec c is

/-! ## `k-exception.S` -/

def INT_DF : ℕ := 8
def INT_TS : ℕ := 10
def INT_AC : ℕ := 17
def P_RUNNABLE : ℕ := 1
def SEGSEL_KERN_CODE : ℕ := 0x8

/-- The labels that the routines use. -/
structure Labels where
  /-- `ptable` -/
  ptable : ℕ
  /-- `&current` -/
  current : ℕ
  ptable_aligned : ptable % 8 = 0
  ptable_below : ptable + 208 * NPROC ≤ KERNEL_STACK_TOP - PAGESIZE
  current_below : current < KERNEL_STACK_TOP - PAGESIZE

/-- `exception_entry_num`, up to its jump. -/
def exceptionEntryNum (num : ℕ) : List Instr :=
  (if num ≠ INT_DF ∧ (num < INT_TS ∨ num > INT_PF) ∧ num ≠ INT_AC then [.pushImm 0] else []) ++
  [.pushImm num]

/-- `exception_entry`, up to the call of `exception`. -/
def exceptionEntry (L : Layout) : List Instr :=
  [.push .gs, .push .fs, .push .r15, .push .r14, .push .r13, .push .r12, .push .r11, .push .r10,
    .push .r9, .push .r8, .push .rdi, .push .rsi, .push .rbp, .push .rbx, .push .rdx, .push .rcx,
    .push .rax,
    .mov .rsp .rdi,
    -- load kernel page table
    .movImm L.kernelPagetable .rax,
    .movCr3 .rax]

def exceptionReturn : List Instr :=
  -- check process state
  [.loadl 12 .rdi .rax,
    .check P_RUNNABLE .rax,
    -- load process page table
    .load 0 .rdi .rax,
    .movCr3 .rax,
    -- restore registers
    .lea 16 .rdi .rsp,
    .pop .rax, .pop .rcx, .pop .rdx, .pop .rbx, .pop .rbp, .pop .rsi, .pop .rdi, .pop .r8, .pop .r9,
    .pop .r10, .pop .r11, .pop .r12, .pop .r13, .pop .r14, .pop .r15, .pop .fs, .pop .gs,
    .addRsp 16,
    .iretq]

/-- `syscall_entry`, up to the call of `syscall`. -/
def syscallEnter (L : Layout) : List Instr :=
  [.store .rsp (KERNEL_STACK_TOP - 16),
    .movImm KERNEL_STACK_TOP .rsp,
    -- structure used by `iret`
    .pushImm (SEGSEL_APP_DATA + 3), .subRsp 8, .push .r11, .pushImm (SEGSEL_APP_CODE + 3), .push .rcx,
    -- error code, `reg_intno`
    .subRsp 8, .pushImm (2 ^ 64 - 1),
    .push .gs, .push .fs, .push .r15, .push .r14, .push .r13, .push .r12, .subRsp 8, .push .r10,
    .push .r9, .push .r8, .push .rdi, .push .rsi, .push .rbp, .push .rbx, .push .rdx, .subRsp 8,
    .push .rax,
    -- load kernel page table
    .movImm L.kernelPagetable .rax,
    .movCr3 .rax,
    .mov .rsp .rdi]

/-- `syscall_entry`, after the call of `syscall`. -/
def syscallLeave (A : Labels) : List Instr :=
  -- check process state
  [.loadFrom A.current .rcx,
    .loadl 12 .rcx .rcx,
    .check P_RUNNABLE .rcx,
    -- load process page table
    .loadFrom A.current .rcx,
    .load 0 .rcx .rcx,
    .movCr3 .rcx,
    -- skip over other registers
    .addRsp (8 * 19),
    .iretq]

/-! ## The processor -/

/-- The exceptions with which the processor pushes an error code. -/
def hasErrorCode (num : ℕ) : Bool := num ∈ [8, 10, 11, 12, 13, 14, 17]

/-- `EFLAGS_TF`, `EFLAGS_IF`, `EFLAGS_NT`, `EFLAGS_RF` and `EFLAGS_VM`, which an interrupt gate clears. -/
def INTERRUPT_CLEARS : ℕ := 0x34300

/-- `MSR_IA32_FMASK`: `EFLAGS_TF`, `EFLAGS_DF`, `EFLAGS_IF`, `EFLAGS_IOPL_MASK`, `EFLAGS_AC` and
    `EFLAGS_NT`. -/
def FMASK : ℕ := 0x47700

/-- `flags & ~mask`, for 64 bits. -/
def clearFlags (mask flags : ℕ) : ℕ := flags &&& (mask ^^^ (2 ^ 64 - 1))

/-- The processor takes the exception `num` while it runs a process: the stack is that of the task
    state, and the handler is the one at `handler`. -/
def deliver (num errcode handler : ℕ) (c : Cpu) : Cpu :=
  let frame := [.imm (c.reg .ss), .imm (c.reg .rsp), .imm (c.reg .rflags), .imm (c.reg .cs),
    .imm (c.reg .rip)] ++ if hasErrorCode num then [Pushed.imm errcode] else []
  let c₁ : Cpu := { c with toWords := build .rsp frame (c.set .rsp KERNEL_STACK_TOP).toWords }
  (((c₁.set .cs SEGSEL_KERN_CODE).set .ss 0).set .rip handler).set .rflags
    (clearFlags INTERRUPT_CLEARS (c.reg .rflags))

/-- `syscall`, where `%rip` is already that of the next instruction. -/
def syscallInstr (entry : ℕ) (c : Cpu) : Cpu :=
  (((((c.set .rcx (c.reg .rip)).set .r11 (c.reg .rflags)).set .rip entry).set .cs SEGSEL_KERN_CODE).set
    .ss (SEGSEL_KERN_CODE + 8)).set .rflags (clearFlags FMASK (c.reg .rflags))

/-! ## Blocks of instructions -/

variable {L : Layout} {A : Labels} {c c₁ : Cpu} {num errcode handler a : ℕ} {r : Reg}

/-- The instruction that stores a word to the stack. -/
def pushInstr : Pushed Reg → Instr
  | .reg r => .push r
  | .imm w => .pushImm w
  | .skip => .subRsp 8

theorem exec_pushes (xs : List (Pushed Reg)) :
    exec (xs.map pushInstr) c = .ok { c with toWords := build .rsp xs c.toWords } := by
  induction xs generalizing c with
  | nil => rfl
  | cons x xs ih =>
    rw [List.map_cons]
    refine run_cons.2 ⟨{ c with toWords := Pushed.push .rsp c.toWords x }, ?_, ih⟩
    cases x <;> rfl

theorem exec_pops (rs : List Reg) :
    exec (rs.map Instr.pop) c = .ok { c with toWords := unload .rsp Reg.fit rs c.toWords } := by
  induction rs generalizing c with
  | nil => rfl
  | cons r rs ih =>
    rw [List.map_cons]
    exact run_cons.2 ⟨{ c with toWords := CProj.pop .rsp Reg.fit c.toWords r }, rfl, ih⟩

/-- The registers that the kernel's routines push and pop, in the order of `struct regstate`. -/
def general : List Reg :=
  [.rax, .rcx, .rdx, .rbx, .rbp, .rsi, .rdi, .r8, .r9, .r10, .r11, .r12, .r13, .r14, .r15, .fs, .gs]

/-- The registers that `iretq` pops. -/
def special : List Reg := [.rip, .cs, .rflags, .rsp, .ss]

theorem general_not_special : ∀ r ∈ general, r ∉ special := by decide

/-! ## The way in -/

/-- The registers saved by an entry from the processor `c`: `struct regstate` on the kernel stack. -/
def REGSTATE : ℕ := KERNEL_STACK_TOP - 192

theorem top_eq : KERNEL_STACK_TOP = REGSTATE + 192 := by decide

/-- After an entry from `c`, the C code is called with `c₁`; the words of `lost` mean nothing. -/
structure Saved (L : Layout) (lost : List Reg) (c c₁ : Cpu) : Prop where
  argument : c₁.reg .rdi = REGSTATE
  stack : c₁.reg .rsp = REGSTATE
  cr3 : c₁.cr3 = L.kernelPagetable
  words : ∀ r ∉ lost, c₁.mem (REGSTATE + 8 * r.index) = c.reg r
  registers : ∀ r, r ∉ special → r ∉ [.rax, .rcx, .rdi, .r11] → c₁.reg r = c.reg r
  memory : ∀ y, y < REGSTATE ∨ KERNEL_STACK_TOP ≤ y → c₁.mem y = c.mem y

/-- The stub of an exception pushes an error code if and only if the processor does not. -/
theorem exceptionEntryNum_eq : exceptionEntryNum num =
    (if hasErrorCode num then [] else [.pushImm 0]) ++ [.pushImm num] := by
  have hiff : (num ≠ INT_DF ∧ (num < INT_TS ∨ num > INT_PF) ∧ num ≠ INT_AC) ↔
      ¬ hasErrorCode num = true := by
    simp only [hasErrorCode, decide_eq_true_eq, List.mem_cons, List.not_mem_nil, or_false, INT_DF,
      INT_TS, INT_PF, INT_AC]
    omega
  rw [exceptionEntryNum, if_congr hiff rfl rfl, ite_not]

/-- The words that the stubs and `exception_entry` push. -/
def stubWords (num : ℕ) : List (Pushed Reg) :=
  (if hasErrorCode num then [] else [.imm 0]) ++ [.imm num] ++ general.reverse.map .reg

theorem length_stubWords : (stubWords num).length = if hasErrorCode num then 18 else 19 := by
  rw [stubWords]
  split_ifs <;> rfl

theorem reg_set_of_ne {q : Reg} {w : ℕ} (h : r ≠ q) : (c.set q w).reg r = c.reg r :=
  Function.update_of_ne h _ _

theorem reg_set_self {w : ℕ} : (c.set r w).reg r = w := Function.update_self _ _ _

/-- What the processor leaves of an interrupted process. -/
theorem deliver_spec (num errcode handler : ℕ) (c : Cpu)
    (ha : a = REGSTATE + 8 * (stubWords num).length) :
    (deliver num errcode handler c).reg .rsp = a ∧
      WordsAt (deliver num errcode handler c).mem a
        ((if hasErrorCode num then [some errcode] else []) ++ special.map fun r => some (c.reg r)) ∧
      (∀ r ∉ special, (deliver num errcode handler c).reg r = c.reg r) ∧
      ∀ y, y < REGSTATE ∨ KERNEL_STACK_TOP ≤ y →
        (deliver num errcode handler c).mem y = c.mem y := by
  rw [length_stubWords] at ha
  obtain ⟨frame, hframe⟩ : ∃ frame : List (Pushed Reg), frame = [.imm (c.reg .ss), .imm (c.reg .rsp),
    .imm (c.reg .rflags), .imm (c.reg .cs), .imm (c.reg .rip)] ++
    if hasErrorCode num then [.imm errcode] else [] := ⟨_, rfl⟩
  have hlen : frame.length = if hasErrorCode num then 6 else 5 := by
    rw [hframe]
    split_ifs <;> rfl
  have htop : KERNEL_STACK_TOP = a + 8 * frame.length := by
    rw [ha, hlen, top_eq]
    split_ifs <;> omega
  have himm : Pushed.reg .rsp ∉ frame := by
    rw [hframe]
    split_ifs <;> simp
  obtain ⟨hreg, hwords, hmem⟩ := build_spec (c := (c.set .rsp KERNEL_STACK_TOP).toWords) himm
    (reg_set_self.trans htop)
  have hvalues : frame.reverse.map (Pushed.value (c.set .rsp KERNEL_STACK_TOP).reg) =
      (if hasErrorCode num then [some errcode] else []) ++ special.map fun r => some (c.reg r) := by
    rw [hframe]
    split_ifs <;> rfl
  rw [hvalues] at hwords hmem
  have hdeliver : deliver num errcode handler c =
      ((((({ c with toWords := build .rsp frame (c.set .rsp KERNEL_STACK_TOP).toWords } : Cpu).set .cs
        SEGSEL_KERN_CODE).set .ss 0).set .rip handler).set .rflags
        (clearFlags INTERRUPT_CLEARS (c.reg .rflags))) := by
    rw [hframe]
    rfl
  rw [hdeliver]
  have hkeep : ∀ r, r ∉ special → r ≠ .rsp →
      (build .rsp frame (c.set .rsp KERNEL_STACK_TOP).toWords).reg r = c.reg r := by
    intro r _ hrsp
    rw [hreg, Function.update_of_ne hrsp]
    exact reg_set_of_ne hrsp
  refine ⟨?_, hwords, fun r hr => ?_, fun y hy => hmem y (spared_of_outside ?_)⟩
  · rw [reg_set_of_ne (by decide), reg_set_of_ne (by decide), reg_set_of_ne (by decide),
      reg_set_of_ne (by decide)]
    change (build .rsp frame _).reg .rsp = a
    rw [hreg, Function.update_self]
  · have hr' := hr
    simp only [special, List.mem_cons, List.not_mem_nil, or_false, not_or] at hr'
    rw [reg_set_of_ne hr'.2.2.1, reg_set_of_ne hr'.1, reg_set_of_ne hr'.2.2.2.2, reg_set_of_ne hr'.2.1]
    exact hkeep r hr hr'.2.2.2.1
  · rw [← hvalues, List.length_map, List.length_reverse, ← htop]
    refine hy.imp_left fun hlt => hlt.trans_le ?_
    rw [ha]
    omega

/-- The words of `struct regstate`, when the registers of `lost` mean nothing. -/
def regWords (lost : List Reg) (f : Reg → ℕ) (intno errcode : Option ℕ) : List (Option ℕ) :=
  (general.map fun r => if r ∈ lost then none else some (f r)) ++ [intno, errcode] ++
    special.map fun r => some (f r)

theorem regWords_index {lost : List Reg} {f : Reg → ℕ} {intno errcode : Option ℕ} (h : r ∉ lost) :
    (regWords lost f intno errcode)[r.index]? = some (some (f r)) := by
  cases r <;> simp [regWords, general, special, Reg.index, h]

/-- **`exception_entry`** saves the interrupted process, whatever the exception. -/
theorem exceptionEntry_spec : ∃ c₁,
    exec (exceptionEntryNum num ++ exceptionEntry L) (deliver num errcode handler c) = .ok c₁ ∧
      Saved L [] c c₁ ∧ c₁.mem (REGSTATE + 8 * 17) = num ∧
      c₁.mem (REGSTATE + 8 * 18) = if hasErrorCode num then errcode else 0 := by
  obtain ⟨hsp, hframe, hkeep, hbelow⟩ :=
    deliver_spec num errcode handler c rfl
  obtain ⟨c₀, hc₀⟩ : ∃ c₀, deliver num errcode handler c = c₀ := ⟨_, rfl⟩
  rw [hc₀] at hsp hframe hkeep hbelow ⊢
  have hsps : Pushed.reg .rsp ∉ stubWords num := by
    rw [stubWords]
    split_ifs <;> simp [general]
  obtain ⟨hreg, hwords, hmem⟩ := build_spec (c := c₀.toWords) hsps hsp
  have hlen : ((stubWords num).reverse.map (Pushed.value c₀.reg)).length = (stubWords num).length := by
    rw [List.length_map, List.length_reverse]
  have hlow : REGSTATE + 8 * (stubWords num).length ≤ KERNEL_STACK_TOP := by
    rw [length_stubWords, top_eq]
    split_ifs <;> omega
  have hcode : exceptionEntryNum num ++ exceptionEntry L = (stubWords num).map pushInstr ++
      [.mov .rsp .rdi, .movImm L.kernelPagetable .rax, .movCr3 .rax] := by
    rw [exceptionEntryNum_eq, stubWords]
    split_ifs <;> rfl
  have hvalues : (stubWords num).reverse.map (Pushed.value c₀.reg) ++
      ((if hasErrorCode num then [some errcode] else []) ++ special.map fun r => some (c.reg r)) =
      regWords [] c.reg (some num) (some (if hasErrorCode num then errcode else 0)) := by
    have hgen : general.map (fun r => some (c₀.reg r)) = general.map fun r => some (c.reg r) :=
      List.map_congr_left fun r hr => congrArg some (hkeep r (general_not_special r hr))
    have hpushed : (stubWords num).reverse.map (Pushed.value c₀.reg) =
        general.map (fun r => some (c₀.reg r)) ++
          some num :: if hasErrorCode num then [] else [some 0] := by
      rw [stubWords]
      split_ifs <;> rfl
    rw [hpushed, hgen]
    split_ifs <;> rfl
  -- the frame of the processor stays above the words of the stub
  have hall := wordsAt_append.2 ⟨hwords, hlen.symm ▸ hframe.congr fun k _ =>
    hmem _ (spared_of_outside (.inr (by rw [hlen]; omega)))⟩
  rw [hvalues] at hall
  have hexec := exec_pushes (c := c₀) (stubWords num)
  generalize build .rsp (stubWords num) c₀.toWords = b at hreg hmem hall hexec
  have hrsp : b.reg .rsp = REGSTATE := by rw [hreg, Function.update_self]
  have hrun : exec (exceptionEntryNum num ++ exceptionEntry L) c₀ =
      .ok { (({ toWords := b, cr3 := c₀.cr3 } : Cpu).set .rdi (b.reg .rsp)).set .rax
        L.kernelPagetable with cr3 := L.kernelPagetable } := by
    rw [hcode]
    exact run_append.2 ⟨_, hexec, rfl⟩
  refine ⟨_, hrun, ⟨hrsp, hrsp, rfl, fun r _ => ?_, fun r hr hrest => ?_, fun y hy => ?_⟩, ?_, ?_⟩
  · exact hall r.index _ (regWords_index List.not_mem_nil)
  · simp only [List.mem_cons, List.not_mem_nil, or_false, not_or] at hrest
    have hne : r ≠ .rsp := fun heq => hr (heq ▸ by decide)
    refine (reg_set_of_ne hrest.1).trans ((reg_set_of_ne hrest.2.2.1).trans ?_)
    change b.reg r = c.reg r
    rw [hreg, Function.update_of_ne hne, hkeep r hr]
  · exact (hmem y (spared_of_outside (by rw [hlen]; omega))).trans (hbelow y hy)
  · exact hall 17 _ rfl
  · exact hall 18 _ rfl

/-- The registers of a process: the code and stack segments are its own, and the others fit. -/
structure UserMode (f : Reg → ℕ) : Prop where
  cs : f .cs = SEGSEL_APP_CODE + 3
  ss : f .ss = SEGSEL_APP_DATA + 3
  fs : f .fs < 2 ^ 16
  gs : f .gs < 2 ^ 16

theorem UserMode.fit {f : Reg → ℕ} (h : UserMode f) (r : Reg) : r.fit (f r) = f r := by
  cases r with
  | cs => rw [h.cs]; rfl
  | ss => rw [h.ss]; rfl
  | fs => exact Nat.mod_eq_of_lt h.fs
  | gs => exact Nat.mod_eq_of_lt h.gs
  | _ => rfl

/-- The words that `syscall_entry` pushes. -/
def syscallWords : List (Pushed Reg) :=
  [.imm (SEGSEL_APP_DATA + 3), .skip, .reg .r11, .imm (SEGSEL_APP_CODE + 3), .reg .rcx, .skip,
    .imm (2 ^ 64 - 1), .reg .gs, .reg .fs, .reg .r15, .reg .r14, .reg .r13, .reg .r12, .skip,
    .reg .r10, .reg .r9, .reg .r8, .reg .rdi, .reg .rsi, .reg .rbp, .reg .rbx, .reg .rdx, .skip,
    .reg .rax]

/-- **`syscall_entry`** saves the process that has executed `syscall`, but for `%rcx` and `%r11`. -/
theorem syscallEnter_spec {entry : ℕ} (h : UserMode c.reg) : ∃ c₁,
    exec (syscallEnter L) (syscallInstr entry c) = .ok c₁ ∧ Saved L [.rcx, .r11] c c₁ := by
  obtain ⟨c₀, hc₀⟩ : ∃ c₀ : Cpu, c₀ =
    { syscallInstr entry c with mem := Function.update c.mem (KERNEL_STACK_TOP - 16) (c.reg .rsp) } :=
      ⟨_, rfl⟩
  have hmem₀ : c₀.mem = Function.update c.mem (KERNEL_STACK_TOP - 16) (c.reg .rsp) := by rw [hc₀]
  have hstart : exec [.store .rsp (KERNEL_STACK_TOP - 16), .movImm KERNEL_STACK_TOP .rsp]
      (syscallInstr entry c) = .ok (c₀.set .rsp KERNEL_STACK_TOP) := by
    rw [hc₀]
    rfl
  have hregs : ∀ r, r ∉ special → r ∉ [.rcx, .r11] → c₀.reg r = c.reg r := by
    rw [hc₀]
    intro r hr hr'
    cases r <;> first | rfl | exact absurd (by decide) hr | exact absurd (by decide) hr'
  have hsp : Pushed.reg .rsp ∉ syscallWords := by decide
  obtain ⟨hreg, hwords, hmem⟩ := build_spec (c := (c₀.set .rsp KERNEL_STACK_TOP).toWords) hsp
    (reg_set_self.trans top_eq)
  have hvalue : ∀ r ∉ [.rcx, .r11, .rsp], (syscallWords.reverse.map
      (Pushed.value (c₀.set .rsp KERNEL_STACK_TOP).reg))[r.index]? = some (some (c.reg r)) := by
    rw [hc₀]
    intro r hr
    cases r with
    | cs => rw [h.cs]; rfl
    | ss => rw [h.ss]; rfl
    | rcx | r11 | rsp => exact absurd (by decide) hr
    | _ => rfl
  have hspare : ∀ y, y < REGSTATE ∨ KERNEL_STACK_TOP ≤ y ∨ y = KERNEL_STACK_TOP - 16 →
      Spared REGSTATE (syscallWords.reverse.map
        (Pushed.value (c₀.set .rsp KERNEL_STACK_TOP).reg)) y := by
    intro y hy k w hk
    have hlt : k < 24 := (List.getElem?_eq_some_iff.1 hk).1
    have h22 : k ≠ 22 := by
      rintro rfl
      cases hk
    rw [top_eq] at hy
    omega
  have hexec := exec_pushes (c := c₀.set .rsp KERNEL_STACK_TOP) syscallWords
  generalize build .rsp syscallWords (c₀.set .rsp KERNEL_STACK_TOP).toWords = b at *
  have hrsp : b.reg .rsp = REGSTATE := by rw [hreg, Function.update_self]
  have hrun : exec (syscallEnter L) (syscallInstr entry c) = .ok
      ({ ({ toWords := b, cr3 := c₀.cr3 } : Cpu).set .rax L.kernelPagetable with
        cr3 := L.kernelPagetable }.set .rdi (b.reg .rsp)) := by
    change exec ([.store .rsp (KERNEL_STACK_TOP - 16), .movImm KERNEL_STACK_TOP .rsp] ++
      (syscallWords.map pushInstr ++ [.movImm L.kernelPagetable .rax, .movCr3 .rax, .mov .rsp .rdi]))
      _ = _
    exact run_append.2 ⟨_, hstart, run_append.2 ⟨_, hexec, rfl⟩⟩
  refine ⟨_, hrun, hrsp, hrsp, rfl, fun r hr => ?_, fun r hr hrest => ?_, fun y hy => ?_⟩
  · by_cases hr' : r = .rsp
    · -- the stack pointer has been stored before
      rw [hr']
      refine (hmem _ (hspare _ (.inr (.inr (by decide))))).trans ?_
      change c₀.mem _ = _
      rw [hmem₀, show REGSTATE + 8 * Reg.index .rsp = KERNEL_STACK_TOP - 16 by decide,
        Function.update_self]
    · refine hwords r.index _ (hvalue r ?_)
      simp only [List.mem_cons, List.not_mem_nil, or_false, not_or] at hr ⊢
      exact ⟨hr.1, hr.2, hr'⟩
  · simp only [List.mem_cons, List.not_mem_nil, or_false, not_or] at hrest
    have hne : r ≠ .rsp := fun heq => hr (heq ▸ by decide)
    refine (reg_set_of_ne hrest.2.2.1).trans ((reg_set_of_ne hrest.1).trans ?_)
    change b.reg r = c.reg r
    rw [hreg, Function.update_of_ne hne, reg_set_of_ne hne, hregs r hr (by simp [hrest])]
  · refine (hmem y (hspare y (hy.imp_right .inl))).trans ?_
    change c₀.mem y = _
    have hne : y ≠ KERNEL_STACK_TOP - 16 := by
      rw [top_eq] at hy ⊢
      omega
    rw [hmem₀, Function.update_of_ne hne]

/-! ## The way back -/

/-- `struct regstate` at an address; the others are in the order of `initRegs`. -/
def Regs.at (m : ℕ → ℕ) (a : ℕ) : Regs where
  rax := m (a + 8 * 0)
  rdi := m (a + 8 * 6)
  rip := m (a + 8 * 19)
  rsp := m (a + 8 * 22)
  intno := m (a + 8 * 17) % 2 ^ 32
  errcode := m (a + 8 * 18)
  others := ([1, 2, 3, 4, 5, 7, 8, 9, 10, 11, 12, 13, 14, 15, 16].map fun k => m (a + 8 * k)) ++
    [m (a + 8 * 17) / 2 ^ 32, m (a + 8 * 20), m (a + 8 * 21), m (a + 8 * 23)]

/-- The value of a register in `struct regstate`. -/
def Regs.reg (regs : Regs) : Reg → ℕ
  | .rax => regs.rax
  | .rdi => regs.rdi
  | .rip => regs.rip
  | .rsp => regs.rsp
  | .rcx => regs.others.getD 0 0
  | .rdx => regs.others.getD 1 0
  | .rbx => regs.others.getD 2 0
  | .rbp => regs.others.getD 3 0
  | .rsi => regs.others.getD 4 0
  | .r8 => regs.others.getD 5 0
  | .r9 => regs.others.getD 6 0
  | .r10 => regs.others.getD 7 0
  | .r11 => regs.others.getD 8 0
  | .r12 => regs.others.getD 9 0
  | .r13 => regs.others.getD 10 0
  | .r14 => regs.others.getD 11 0
  | .r15 => regs.others.getD 12 0
  | .fs => regs.others.getD 13 0
  | .gs => regs.others.getD 14 0
  | .cs => regs.others.getD 16 0
  | .rflags => regs.others.getD 17 0
  | .ss => regs.others.getD 18 0

theorem Regs.reg_at (m : ℕ → ℕ) (a : ℕ) (r : Reg) : (Regs.at m a).reg r = m (a + 8 * r.index) := by
  cases r <;> rfl

theorem Saved.reg_at {lost : List Reg} (h : Saved L lost c c₁) (hr : r ∉ lost) :
    (Regs.at c₁.mem (c₁.reg .rdi)).reg r = c.reg r := by
  rw [h.argument, Regs.reg_at, h.words r hr]

/-- The value of `proc::state`. -/
def stateCode : ProcState → ℕ
  | .free => 0
  | .runnable => P_RUNNABLE
  | .blocked => 2
  | .broken => 3

theorem stateCode_eq {q : ProcState} : stateCode q = P_RUNNABLE ↔ q = .runnable := by
  cases q <;> simp [stateCode, P_RUNNABLE]

/-- `struct proc` at an address; of a free slot only the state has a meaning. -/
structure ProcAt (m : ℕ → ℕ) (p : ℕ) (q : Proc) : Prop where
  state : m (p + 8) / 2 ^ 32 = stateCode q.state
  pagetable : q.state ≠ .free → m (p + 0) = q.pagetable
  pid : q.state ≠ .free → m (p + 8) % 2 ^ 32 = q.pid
  regs : q.state ≠ .free → Regs.at m (p + 16) = q.regs

/-- `&ptable[i]`. -/
def Labels.proc (A : Labels) (i : ℕ) : ℕ := A.ptable + 208 * i

theorem Labels.proc_aligned (i : ℕ) : A.proc i % 8 = 0 := by
  have := A.ptable_aligned
  rw [Labels.proc]
  omega

variable {p : ℕ} {q : Proc}

theorem ProcAt.long_state (h : ProcAt c.mem p q) (hp : p % 8 = 0) :
    c.long (p + 12) % 2 ^ 32 = stateCode q.state := by
  rw [Cpu.long, if_neg (by omega), show p + 12 - 4 = p + 8 by omega, h.state]
  cases q.state <;> rfl

theorem iretq_special (hr : r ∈ special) (ha : c.reg .rsp = a + 8 * 19) :
    c.iretq.reg r = r.fit (c.mem (a + 8 * r.index)) := by
  simp only [special, List.mem_cons, List.not_mem_nil, or_false] at hr
  rcases hr with rfl | rfl | rfl | rfl | rfl
  · change Reg.fit .rip (c.mem (c.reg .rsp + 0)) = _
    rw [ha]
    rfl
  · change Reg.fit .cs (c.mem (c.reg .rsp + 8)) = _
    rw [ha]
    rfl
  · change Reg.fit .rflags (c.mem (c.reg .rsp + 16)) = _
    rw [ha]
    rfl
  · change Reg.fit .rsp (c.mem (c.reg .rsp + 24)) = _
    rw [ha]
    rfl
  · change Reg.fit .ss (c.mem (c.reg .rsp + 32)) = _
    rw [ha]
    rfl

theorem iretq_rest (hr : r ∉ special) : c.iretq.reg r = c.reg r := by
  simp only [special, List.mem_cons, List.not_mem_nil, or_false, not_or] at hr
  rw [Cpu.iretq, reg_set_of_ne hr.2.2.2.2, reg_set_of_ne hr.2.2.2.1, reg_set_of_ne hr.2.2.1,
    reg_set_of_ne hr.2.1, reg_set_of_ne hr.1]

/-- The check of the state of a process. -/
theorem exec_check (base dst : Reg) (h : ProcAt c.mem p q) (hp : p % 8 = 0) (hbase : c.reg base = p)
    (is : List Instr) : exec (.loadl 12 base dst :: .check P_RUNNABLE dst :: is) c =
      if q.state = .runnable then exec is (c.set dst (c.long (p + 12))) else .error .assertion := by
  have hlong := h.long_state hp
  have hload : exec (.loadl 12 base dst :: .check P_RUNNABLE dst :: is) c =
      (Instr.exec (c.set dst (c.long (p + 12))) (.check P_RUNNABLE dst) >>= exec is) := by
    rw [← hbase]
    rfl
  rw [hload, Instr.exec, reg_set_self, hlong]
  by_cases hstate : q.state = .runnable
  · rw [if_pos (stateCode_eq.2 hstate), if_pos hstate, ok_bind]
  · rw [if_neg fun heq => hstate (stateCode_eq.1 heq), if_neg hstate, error_bind]

/-- **`exception_return`** to a process that can run restores all its registers. -/
theorem exceptionReturn_spec (h : ProcAt c.mem p q) (hp : p % 8 = 0) (hrdi : c.reg .rdi = p)
    (hstate : q.state = .runnable) : ∃ c', exec exceptionReturn c = .ok c' ∧
      c'.cr3 = q.pagetable ∧ c'.mem = c.mem ∧ ∀ r, c'.reg r = r.fit (q.regs.reg r) := by
  obtain ⟨c₁, hc₁⟩ : ∃ c₁, c.set .rax (c.long (p + 12)) = c₁ := ⟨_, rfl⟩
  have hlive : q.state ≠ .free := by
    rw [hstate]
    exact ProcState.noConfusion
  have hmem₁ : c₁.mem = c.mem := by
    rw [← hc₁]
    rfl
  have hrdi₁ : c₁.reg .rdi = p := by
    rw [← hc₁, reg_set_of_ne (by decide), hrdi]
  obtain ⟨c₂, hc₂⟩ : ∃ c₂ : Cpu, c₂ = { (c₁.set .rax q.pagetable) with cr3 := q.pagetable }.set .rsp
    (p + 16) := ⟨_, rfl⟩
  have hstart : exec [.load 0 .rdi .rax, .movCr3 .rax, .lea 16 .rdi .rsp] c₁ = .ok c₂ := by
    rw [hc₂, ← h.pagetable hlive, ← hmem₁, ← hrdi₁]
    rfl
  have hrsp : c₂.reg .rsp = p + 16 := by
    rw [hc₂, reg_set_self]
  have hmem₂ : c₂.mem = c.mem := by
    rw [hc₂, ← hmem₁]
    rfl
  obtain ⟨b, hb⟩ : ∃ b, unload .rsp Reg.fit general c₂.toWords = b := ⟨_, rfl⟩
  obtain ⟨hmem, hsp, hload, -⟩ := unload_spec Reg.fit (show general.Nodup by decide)
    (show Reg.rsp ∉ general by decide) hrsp
  have hexec := exec_pops (c := c₂) general
  rw [hb] at hmem hsp hload hexec
  refine ⟨(({ toWords := b, cr3 := c₂.cr3 } : Cpu).set .rsp (b.reg .rsp + 16)).iretq, ?_, ?_, ?_,
    fun r => ?_⟩
  · change exec (.loadl 12 .rdi .rax :: .check P_RUNNABLE .rax :: ([.load 0 .rdi .rax, .movCr3 .rax,
      .lea 16 .rdi .rsp] ++ (general.map .pop ++ [.addRsp 16, .iretq]))) c = _
    rw [exec_check .rdi .rax h hp hrdi, if_pos hstate, hc₁]
    exact run_append.2 ⟨_, hstart, run_append.2 ⟨_, hexec, rfl⟩⟩
  · change c₂.cr3 = _
    rw [hc₂]
    rfl
  · exact hmem.trans hmem₂
  · rw [← h.regs hlive, Regs.reg_at]
    by_cases hr : r ∈ special
    · rw [iretq_special hr (a := p + 16)]
      · change r.fit (b.mem _) = _
        rw [hmem, hmem₂]
      · rw [reg_set_self, hsp]
        rfl
    · have hne : r ≠ .rsp := fun heq => hr (heq ▸ by decide)
      have hindex : general[r.index]? = some r := by
        cases r <;> first | rfl | exact absurd (by decide) hr
      rw [iretq_rest hr, reg_set_of_ne hne]
      change b.reg r = _
      rw [hload _ r hindex, hmem₂]

/-- **`exception_return`** stops the kernel for any other process. -/
theorem exceptionReturn_fails (h : ProcAt c.mem p q) (hp : p % 8 = 0) (hrdi : c.reg .rdi = p)
    (hstate : q.state ≠ .runnable) : exec exceptionReturn c = .error .assertion := by
  rw [exceptionReturn, exec_check .rdi .rax h hp hrdi, if_neg hstate]

/-- **`syscall_entry`** returns to a process that can run: the words that it has saved of `special`
    are restored, the other registers are those of the C code. -/
theorem syscallLeave_spec (h : ProcAt c.mem p q) (hp : p % 8 = 0) (hcur : c.mem A.current = p)
    (hrsp : c.reg .rsp = REGSTATE) (hstate : q.state = .runnable) :
    ∃ c', exec (syscallLeave A) c = .ok c' ∧ c'.cr3 = q.pagetable ∧ c'.mem = c.mem ∧
      (∀ r ∈ special, c'.reg r = r.fit (c.mem (REGSTATE + 8 * r.index))) ∧
      ∀ r, r ∉ special → r ≠ .rcx → c'.reg r = c.reg r := by
  obtain ⟨c₁, hc₁⟩ : ∃ c₁, (c.set .rcx p).set .rcx ((c.set .rcx p).long (p + 12)) = c₁ := ⟨_, rfl⟩
  have hlive : q.state ≠ .free := by
    rw [hstate]
    exact ProcState.noConfusion
  have hmem₁ : c₁.mem = c.mem := by
    rw [← hc₁]
    rfl
  have hreg₁ : ∀ r, r ≠ .rcx → c₁.reg r = c.reg r := by
    intro r hr
    rw [← hc₁, reg_set_of_ne hr, reg_set_of_ne hr]
  obtain ⟨c₂, hc₂⟩ : ∃ c₂ : Cpu, c₂ = { ((c₁.set .rcx p).set .rcx q.pagetable) with
    cr3 := q.pagetable }.set .rsp (REGSTATE + 8 * 19) := ⟨_, rfl⟩
  have htail : exec [.loadFrom A.current .rcx, .load 0 .rcx .rcx, .movCr3 .rcx, .addRsp (8 * 19)] c₁ =
      .ok c₂ := by
    rw [hc₂, ← h.pagetable hlive, ← hrsp, ← hreg₁ .rsp (by decide), ← hcur, ← hmem₁]
    rfl
  refine ⟨c₂.iretq, ?_, ?_, ?_, fun r hr => ?_, fun r hr hrcx => ?_⟩
  · change exec (.loadFrom A.current .rcx :: .loadl 12 .rcx .rcx :: .check P_RUNNABLE .rcx ::
      ([.loadFrom A.current .rcx, .load 0 .rcx .rcx, .movCr3 .rcx, .addRsp (8 * 19)] ++ [.iretq])) c = _
    refine run_cons.2 ⟨c.set .rcx p, by rw [← hcur]; rfl, ?_⟩
    have hcheck := exec_check (c := c.set .rcx p) .rcx .rcx h hp reg_set_self
      ([.loadFrom A.current .rcx, .load 0 .rcx .rcx, .movCr3 .rcx, .addRsp (8 * 19)] ++ [.iretq])
    rw [if_pos hstate, hc₁] at hcheck
    exact hcheck.trans (run_append.2 ⟨_, htail, rfl⟩)
  · change c₂.cr3 = _
    rw [hc₂]
    rfl
  · rw [← hmem₁, hc₂]
    rfl
  · rw [iretq_special hr (a := REGSTATE) (by rw [hc₂, reg_set_self]), ← hmem₁, hc₂]
    rfl
  · have hne : r ≠ .rsp := fun heq => hr (heq ▸ by decide)
    rw [iretq_rest hr, hc₂, reg_set_of_ne hne]
    exact (reg_set_of_ne hrcx).trans ((reg_set_of_ne hrcx).trans (hreg₁ r hrcx))

theorem syscallLeave_fails (h : ProcAt c.mem p q) (hp : p % 8 = 0) (hcur : c.mem A.current = p)
    (hstate : q.state ≠ .runnable) : exec (syscallLeave A) c = .error .assertion := by
  have hcheck := exec_check (c := c.set .rcx p) .rcx .rcx h hp reg_set_self
    [.loadFrom A.current .rcx, .load 0 .rcx .rcx, .movCr3 .rcx, .addRsp (8 * 19), .iretq]
  rw [if_neg hstate, ← hcur] at hcheck
  exact hcheck

end CProj.WeensyOS
