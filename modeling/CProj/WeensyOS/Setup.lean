/-
  What the kernel does before the first process runs (`kernel`, `process_setup` of
  `weensyos/kernel.cc`; `init_kernel_memory`, `init_process` and `program_loader` of
  `k-hardware.cc`; `elf.h`).

  A program is an image in the kernel's own memory.  Its headers are given decoded, its bytes as a
  function of the offset; the images are what the build puts into `ramimages`.  The rest of
  `init_hardware` (segments, interrupts, devices), the timer and the console are left out.
-/
import CProj.WeensyOS.Kernel

namespace CProj.WeensyOS

/-! ## Bytes of memory -/

/-- The byte at a physical address. -/
def Mem.byte (m : Mem) (a : ℕ) : ℕ := m (a / PAGESIZE) (a % PAGESIZE / 8) / 256 ^ (a % 8) % 256

/-- The word with the bytes `b 0`, …, `b 7`. -/
def wordOf (b : ℕ → ℕ) : ℕ := (List.range 8).foldr (fun k w => b k + 256 * w) 0

/-- The memory after the bytes `b 0`, …, `b (n - 1)` have been stored from the address `dst` on. -/
def Mem.write (m : Mem) (dst n : ℕ) (b : ℕ → UInt8) : Mem := fun p i =>
  let a := p * PAGESIZE + i * 8
  if i < 512 ∧ dst < a + 8 ∧ a < dst + n then
    wordOf fun k => if dst ≤ a + k ∧ a + k < dst + n then (b (a + k - dst)).toNat else m.byte (a + k)
  else m p i

/-- A store of the kernel: outside physical memory it faults, but for the devices above 1 GiB. -/
def State.write (s : State) (dst n : ℕ) (b : ℕ → UInt8) : Except Fault State :=
  if n = 0 then .ok s
  else if dst + n ≤ MEMSIZE_PHYSICAL then .ok { s with mem := s.mem.write dst n b }
  else .error .panic

def memset (s : State) (v : ℕ) (c : UInt8) (n : ℕ) : Except Fault State := s.write v n fun _ => c

/-- `memcpy` from the bytes `src`. -/
def memcpy (s : State) (dst : ℕ) (src : ℕ → UInt8) (n : ℕ) : Except Fault State := s.write dst n src

/-! ## Programs -/

def ELF_MAGIC : ℕ := 0x464C457F
def ELF_PTYPE_LOAD : ℕ := 1
def ELF_PFLAG_WRITE : ℕ := 2

/-- `struct elf_program`. -/
structure ElfProgram where
  type : ℕ
  flags : ℕ
  offset : ℕ
  va : ℕ
  filesz : ℕ
  memsz : ℕ
  deriving DecidableEq, Repr

/-- An executable: its header, its program headers, and the bytes from the header on. -/
structure Elf where
  magic : ℕ
  entry : ℕ
  programs : List ElfProgram
  byte : ℕ → UInt8

def ElfProgram.writable (ph : ElfProgram) : Bool := ph.flags &&& ELF_PFLAG_WRITE ≠ 0

/-- The segments that `program_loader` visits, from `reset` on; there are none without a program. -/
def programLoader : Option Elf → Except Fault (List ElfProgram)
  | none => .ok []
  | some elf => do
    assert (elf.magic = ELF_MAGIC)
    return elf.programs.filter fun ph => ph.type = ELF_PTYPE_LOAD

/-- `entry()`. -/
def programEntry : Option Elf → ℕ
  | none => 0
  | some elf => elf.entry

/-- The bytes that `data()` points to. -/
def programData (elf : Option Elf) (ph : ElfProgram) : ℕ → UInt8 :=
  match elf with
  | none => fun _ => 0
  | some elf => fun i => elf.byte (ph.offset + i)

/-! ## Registers -/

def SEGSEL_APP_CODE : ℕ := 0x18
def SEGSEL_APP_DATA : ℕ := 0x20
def EFLAGS_IF : ℕ := 0x200

/-- The registers after `init_process(p, 0)`; the others are `rcx`, `rdx`, `rbx`, `rbp`, `rsi`, `r8`
    to `r15`, `fs`, `gs`, `swapgs`, `cs`, `rflags` and `ss`. -/
def initRegs : Regs where
  rax := 0
  rdi := 0
  rip := 0
  rsp := 0
  intno := 0
  errcode := 0
  others := List.replicate 13 0 ++ [SEGSEL_APP_DATA ||| 3, SEGSEL_APP_DATA ||| 3, 0,
    SEGSEL_APP_CODE ||| 3, EFLAGS_IF, SEGSEL_APP_DATA ||| 3]

def initProcess (p : Proc) : Proc := { p with regs := initRegs }

section
variable (L : Layout)

/-! ## The kernel's page table -/

/-- Map a page to itself; `perm va` are the permissions, unless the page is left as it is. -/
def mapPage (perm : ℕ → Option ℕ) (it : Vmiter) (s : State) : Except Fault (Vmiter × State) :=
  match perm it.va with
  | some q => it.map L s it.va q
  | none => .ok (it, s)

/-- A loop over physical memory that maps the pages to themselves. -/
def mapPhysical (perm : ℕ → Option ℕ) : ℕ → Vmiter → State → Except Fault State
  | 0, _, _ => .error .running
  | fuel + 1, it, s =>
    if it.va < MEMSIZE_PHYSICAL then do
      let (it, s) ← mapPage L perm it s
      let it ← it.advance s.mem PAGESIZE
      mapPhysical perm fuel it s
    else .ok s

/-- The memory in which `kernel_pagetable` has its links and the large pages of the devices. -/
def kernelLinks (m : Mem) : Mem :=
  let k := L.kernelPagetable / PAGESIZE
  let m := (List.range 5).foldl (fun m i => m.fill (k + i) 0) m
  let m := m.set k 0 ((k + 1) * PAGESIZE ||| PTE_P ||| PTE_W ||| PTE_U)
  let m := m.set (k + 1) 0 ((k + 2) * PAGESIZE ||| PTE_P ||| PTE_W ||| PTE_U)
  let m := m.set (k + 2) 0 ((k + 3) * PAGESIZE ||| PTE_P ||| PTE_W ||| PTE_U)
  let m := m.set (k + 2) 1 ((k + 4) * PAGESIZE ||| PTE_P ||| PTE_W ||| PTE_U)
  let m := m.set (k + 1) 1 (1 <<< 30 ||| PTE_P ||| PTE_W ||| PTE_PS)
  let m := m.set (k + 1) 2 (2 <<< 30 ||| PTE_P ||| PTE_W ||| PTE_PS)
  m.set (k + 1) 3 (3 <<< 30 ||| PTE_P ||| PTE_W ||| PTE_PS)

/-- The permissions that `init_kernel_memory` maps an address with. -/
def initPerm (va : ℕ) : Option ℕ := if va ≠ 0 then some (PTE_P ||| PTE_W ||| PTE_U) else none

def initKernelMemory (s : State) : Except Fault State := do
  let s := { s with mem := kernelLinks L s.mem }
  let it ← Vmiter.create s.mem L.kernelPagetable 0
  mapPhysical L initPerm (NPAGES + 1) it s

/-- The permissions that `kernel` maps an address with. -/
def kernelPagePerm (va : ℕ) : Option ℕ :=
  if va < PROC_START_ADDR ∧ va ≠ CONSOLE_ADDR then some (PTE_P ||| PTE_W) -- kernel memory
  else if va ≠ 0 then some (PTE_P ||| PTE_W ||| PTE_U) -- userspace memory
  else some 0 -- `nullptr` is inaccessible even to the kernel

/-- The part of `kernel` in front of the process descriptors. -/
def kernelMemory (s : State) : Except Fault State := do
  let s ← initKernelMemory L s
  let it ← Vmiter.create s.mem L.kernelPagetable 0
  mapPhysical L kernelPagePerm (NPAGES + 1) it s

/-! ## `process_setup` -/

/-- The loop of `process_setup` over the kernel's mappings. -/
def copyKernel : ℕ → Vmiter → Vmiter → State → Except Fault (Vmiter × State)
  | 0, _, _, _ => .error .running
  | fuel + 1, kit, pit, s =>
    if kit.va < PROC_START_ADDR then do
      let (pit, s) ← pit.map L s (kit.pa s.mem) (kit.permissions s.mem)
      let pit ← pit.advance s.mem PAGESIZE
      let kit ← kit.advance s.mem PAGESIZE
      copyKernel fuel kit pit s
    else .ok (pit, s)

def segmentFlags (ph : ElfProgram) : ℕ :=
  if ph.writable then PTE_P ||| PTE_W ||| PTE_U else PTE_P ||| PTE_U

/-- The loop over the pages of a segment. -/
def allocPages (ph : ElfProgram) : ℕ → ℕ → Vmiter → State → Except Fault (Vmiter × State)
  | 0, _, _, _ => .error .running
  | fuel + 1, a, pit, s =>
    if a < vaAdd ph.va ph.memsz then do
      let (pa, s) := kalloc L s PAGESIZE
      let pit ← pit.find s.mem a
      let (pit, s) ← pit.map L s pa (segmentFlags ph)
      allocPages ph fuel (vaAdd a PAGESIZE) pit s
    else .ok (pit, s)

def roundDown (x n : ℕ) : ℕ := x - x % n

/-- The first loop over the segments. -/
def allocSegments : List ElfProgram → Vmiter → State → Except Fault (Vmiter × State)
  | [], pit, s => .ok (pit, s)
  | ph :: phs, pit, s => do
    let (pit, s) ← allocPages L ph (ph.memsz / PAGESIZE + 3) (roundDown ph.va PAGESIZE) pit s
    allocSegments phs pit s

end

/-- The second loop over the segments. -/
def loadSegments (elf : Option Elf) : List ElfProgram → Vmiter → State → Except Fault (Vmiter × State)
  | [], pit, s => .ok (pit, s)
  | ph :: phs, pit, s => do
    let pit ← pit.find s.mem ph.va
    let s ← memset s (pit.pa s.mem) 0 ph.memsz
    let s ← memcpy s (pit.pa s.mem) (programData elf ph) ph.filesz
    loadSegments elf phs pit s

section
variable (L : Layout)

/-- `process_setup`, from the loading of the segments on. -/
def finishSetup (pid : ℕ) (elf : Option Elf) (phs : List ElfProgram) (pit : Vmiter) (s : State) :
    Except Fault State := do
  let (pit, s) ← loadSegments elf phs pit s
  let s := s.setProc pid { s.ptable pid with
    regs := { (s.ptable pid).regs with rip := programEntry elf } }
  let (stackPa, s) := kalloc L s PAGESIZE
  let pit ← pit.find s.mem (MEMSIZE_VIRTUAL - PAGESIZE)
  let (_, s) ← pit.map L s stackPa (PTE_P ||| PTE_W ||| PTE_U)
  return s.setProc pid { s.ptable pid with
    regs := { (s.ptable pid).regs with rsp := MEMSIZE_VIRTUAL }
    state := .runnable }

/-- `process_setup(pid, program_name)` for the program with the given image. -/
def processSetup (s : State) (pid : ℕ) (elf : Option Elf) : Except Fault State := do
  let s := s.setProc pid (initProcess (s.ptable pid))
  let (pt, s) := kalloc L s PAGESIZE
  let s := s.setProc pid { s.ptable pid with pagetable := pt }
  let s := if pt ≠ 0 then { s with mem := s.mem.fill (pt / PAGESIZE) 0 } else s
  let pit ← Vmiter.create s.mem pt 0
  let kit ← Vmiter.create s.mem L.kernelPagetable 0
  let (pit, s) ← copyKernel L (PROC_START_ADDR / PAGESIZE + 1) kit pit s
  let phs ← programLoader elf
  let (pit, s) ← allocSegments L phs pit s
  finishSetup L pid elf phs pit s

/-! ## `kernel` -/

/-- The process descriptors after their initialisation. -/
def initPtable (s : State) : State :=
  { s with ptable := fun i => if i < NPROC then { s.ptable i with pid := i, state := .free } else s.ptable i }

/-- `kernel(command)`, with the images that the build has put into the kernel. -/
def kernel (ramimages : String → Option Elf) (command : Option String) (s : State) :
    Except Fault State := do
  let s ← kernelMemory L s
  let s := initPtable s
  let phs ← match command with
    | some name => programLoader (ramimages name)
    | none => .ok []
  let s ← match command, phs with
    | some name, _ :: _ => processSetup L s 1 (ramimages name)
    | _, _ => do
      let s ← processSetup L s 1 (ramimages "allocator")
      let s ← processSetup L s 2 (ramimages "allocator2")
      let s ← processSetup L s 3 (ramimages "allocator3")
      processSetup L s 4 (ramimages "allocator4")
  runProc L s 1

end

end CProj.WeensyOS
