/-
  The system calls, interrupts and faults of WeensyOS (`weensyos/kernel.cc`, with
  `check_pagetable` of `k-hardware.cc` and the allocation of `memusage::refresh` of
  `k-memviewer.cc`).

  A process runs between two entries into the kernel, which it makes by a system call, by an
  exception, or because the timer interrupts it; in between it may store into its own writable
  pages.  `step` is one such event.  What the memory viewer draws on the console and into its page
  is left out, and so are the bits that the processor sets in an entry it uses.
-/
import CProj.WeensyOS.Translate

namespace CProj.WeensyOS

/-! ## Freeing a page table -/

/-- The first loop of `pfree`, over the virtual addresses of a process. -/
def pfreePages : ℕ → Vmiter → State → Except Fault State
  | 0, _, _ => .error .running
  | fuel + 1, it, s =>
    if it.va < MEMSIZE_VIRTUAL then do
      let s ← if it.user s.mem ∧ it.pa s.mem ≠ CONSOLE_ADDR then kfree s (it.pa s.mem) else .ok s
      let it ← it.advance s.mem PAGESIZE
      pfreePages fuel it s
    else .ok s

/-- The second loop of `pfree`, over the page table pages below the root. -/
def pfreeTables : ℕ → Ptiter → State → Except Fault State
  | 0, _, _ => .error .running
  | fuel + 1, it, s =>
    if it.active then do
      let s ← if it.addr ≠ CONSOLE_ADDR then kfree s (it.pa s.mem) else .ok s
      let it ← it.next s.mem
      pfreeTables fuel it s
    else .ok s

def pfree (s : State) (pt : ℕ) : Except Fault State := do
  let it ← Vmiter.create s.mem pt PROC_START_ADDR
  let s ← pfreePages (MEMSIZE_VIRTUAL / PAGESIZE) it s
  let it ← Ptiter.create s.mem pt 0
  let s ← pfreeTables Ptiter.fuel it s
  kfree s pt

/-! ## System calls -/

/-- Change the slot `i` of the process table. -/
def State.setProc (s : State) (i : ℕ) (p : Proc) : State :=
  { s with ptable := Function.update s.ptable i p }

section
variable (L : Layout)

def syscallPageAlloc (s : State) (addr : ℕ) : Except Fault (ℤ × State) := do
  if addr % PAGESIZE ≠ 0 ∨ addr < PROC_START_ADDR ∨ addr ≥ MEMSIZE_VIRTUAL then return (-1, s)
  let (pa, s) := kalloc L s PAGESIZE
  if pa = 0 then return (-1, s)
  let s := { s with mem := s.mem.fill (pa / PAGESIZE) 0 }
  let it ← Vmiter.create s.mem (s.ptable s.current).pagetable addr
  let (r, s) ← it.tryMap L s pa (PTE_P ||| PTE_W ||| PTE_U)
  if r < 0 then
    let s ← kfree s pa
    return (-1, s)
  return (0, s)

/-- `pages[pa / PAGESIZE].refcount++`. -/
def refcountIncr (s : State) (pa : ℕ) : Except Fault State := do
  let refcount ← pageinfo s pa
  return { s with pages := Function.update s.pages (pa / PAGESIZE) (refcount + 1) }

/-- The body of the loop of `syscall_fork`, for the address under the iterator.  The flag is
    `false` if there is no memory; the child's pages are then free again. -/
def forkPage (childPt : ℕ) (it : Vmiter) (s : State) : Except Fault (Bool × State) := do
  if it.user s.mem ∧ it.va ≠ CONSOLE_ADDR ∧ it.writable s.mem then
    let (pa, s) := kalloc L s PAGESIZE
    if pa = 0 then
      let s ← pfree s childPt
      return (false, s)
    let s := { s with mem := s.mem.copy (pa / PAGESIZE) (it.pa s.mem / PAGESIZE) }
    let child ← Vmiter.create s.mem childPt 0
    let child ← child.find s.mem it.va
    let (r, s) ← child.tryMap L s pa (it.permissions s.mem)
    if r < 0 then
      let s ← pfree s childPt
      let s ← kfree s pa
      return (false, s)
    return (true, s)
  else
    let child ← Vmiter.create s.mem childPt 0
    let child ← child.find s.mem it.va
    let (r, s) ← child.tryMap L s (it.pa s.mem) (it.permissions s.mem)
    if r < 0 then
      let s ← pfree s childPt
      return (false, s)
    if it.user s.mem ∧ ¬ it.writable s.mem then
      let s ← refcountIncr s (it.pa s.mem)
      return (true, s)
    return (true, s)

/-- The loop of `syscall_fork`. -/
def forkLoop (childPt : ℕ) : ℕ → Vmiter → State → Except Fault (Bool × State)
  | 0, _, _ => .error .running
  | fuel + 1, it, s =>
    if it.va < MEMSIZE_VIRTUAL then do
      let (ok, s) ← forkPage L childPt it s
      if ok then
        let it ← it.advance s.mem PAGESIZE
        forkLoop childPt fuel it s
      else return (false, s)
    else .ok (true, s)

/-- The lowest free slot of the process table, from slot 1 on. -/
def freeSlot (s : State) : Option ℕ :=
  (List.range' 1 (NPROC - 1)).find? fun i => (s.ptable i).state = .free

def syscallFork (s : State) : Except Fault (ℤ × State) := do
  match freeSlot s with
  | none => return (-1, s)
  | some childPid =>
    let (childPt, s) := kalloc L s PAGESIZE
    if childPt = 0 then return (-1, s)
    let s := s.setProc childPid { s.ptable childPid with pagetable := childPt }
    let s := { s with mem := s.mem.fill (childPt / PAGESIZE) 0 }
    let it ← Vmiter.create s.mem (s.ptable s.current).pagetable 0
    let (ok, s) ← forkLoop L childPt (MEMSIZE_VIRTUAL / PAGESIZE + 1) it s
    if ok then
      let s := s.setProc childPid { s.ptable childPid with
        pid := childPid
        regs := { (s.ptable s.current).regs with rax := 0 }
        state := (s.ptable s.current).state }
      return (childPid, s)
    else return (-1, s)

def syscallExit (s : State) : Except Fault State := do
  let s ← pfree s (s.ptable s.current).pagetable
  return s.setProc s.current { s.ptable s.current with state := .free }

/-! ## Scheduling -/

def checkPagetable (s : State) (pagetable : ℕ) : Except Fault Unit := do
  assert (pagetable &&& (PAGESIZE - 1) = 0)
  let it ← Vmiter.create s.mem pagetable L.exceptionEntry
  assert (it.pa s.mem = L.exceptionEntry)
  let it ← Vmiter.create s.mem L.kernelPagetable pagetable
  assert (it.pa s.mem = pagetable)
  let it ← Vmiter.create s.mem pagetable L.kernelPagetable
  assert (it.pa s.mem = L.kernelPagetable)

/-- `run(p)`, where `p` is the slot `i`. -/
def runProc (s : State) (i : ℕ) : Except Fault State := do
  assert ((s.ptable i).state = .runnable)
  let s := { s with current := i }
  checkPagetable L s (s.ptable i).pagetable
  return s

/-- The next slot the scheduler runs, after the pid of the current process. -/
def nextRunnable (s : State) : Option ℕ :=
  ((List.range NPROC).map fun k => ((s.ptable s.current).pid + 1 + k) % NPROC).find?
    fun i => (s.ptable i).state = .runnable

def schedule (s : State) : Except Fault State :=
  match nextRunnable s with
  | some i => runProc L s i
  | none => .ok { s with spinning := true }

/-- `memshow()`: the memory viewer allocates its page when it is first shown, and clears it. -/
def memshow (s : State) : Except Fault State := do
  assert ((s.ptable 0).state = .free)
  if s.viewer = 0 then
    let (v, s) := kalloc L s PAGESIZE
    assert (v ≠ 0)
    return { s with viewer := v, mem := s.mem.fill (v / PAGESIZE) 0 }
  else return { s with mem := s.mem.fill (s.viewer / PAGESIZE) 0 }

/-! ## Entries into the kernel -/

def INT_PF : ℕ := 14
def INT_TIMER : ℕ := 32
def PFERR_USER : ℕ := 4
def SYSCALL_GETPID : ℕ := 1
def SYSCALL_YIELD : ℕ := 2
def SYSCALL_PAGE_ALLOC : ℕ := 4
def SYSCALL_FORK : ℕ := 5
def SYSCALL_EXIT : ℕ := 6

/-- `current->regs = *regs`. -/
def saveRegs (s : State) (regs : Regs) : State :=
  s.setProc s.current { s.ptable s.current with regs := regs }

def exception (s : State) (regs : Regs) : Except Fault State := do
  let s := saveRegs s regs
  let s ← if regs.intno ≠ INT_PF ∨ regs.errcode &&& PFERR_USER ≠ 0 then memshow L s else .ok s
  if regs.intno = INT_TIMER then schedule L s
  else if regs.intno = INT_PF then
    if regs.errcode &&& PFERR_USER = 0 then .error .panic
    else
      schedule L (s.setProc s.current { s.ptable s.current with state := .broken })
  else .error .panic

/-- The switch of `syscall`: the value returned to the process, unless another one runs. -/
def dispatch (s : State) (regs : Regs) : Except Fault (Option ℤ × State) := do
  if regs.rax = SYSCALL_GETPID then return (some (s.ptable s.current).pid, s)
  else if regs.rax = SYSCALL_YIELD then
    let s := saveRegs s { (s.ptable s.current).regs with rax := 0 }
    let s ← schedule L s
    return (none, s)
  else if regs.rax = SYSCALL_PAGE_ALLOC then
    let (r, s) ← syscallPageAlloc L s regs.rdi
    return (some r, s)
  else if regs.rax = SYSCALL_FORK then
    let (r, s) ← syscallFork L s
    return (some r, s)
  else if regs.rax = SYSCALL_EXIT then
    let s ← syscallExit s
    let s ← schedule L s
    return (none, s)
  else .error .panic

def syscall (s : State) (regs : Regs) : Except Fault (Option ℤ × State) := do
  let s ← memshow L (saveRegs s regs)
  dispatch L s regs

/-- `syscall_entry`: a process that the kernel returns to must still be runnable. -/
def syscallEntry (s : State) (regs : Regs) : Except Fault (Option ℤ × State) := do
  let (r, s) ← syscall L s regs
  assert (r.isSome → (s.ptable s.current).state = .runnable)
  return (r, s)

/-! ## Events -/

/-- What a process can do. -/
inductive Event where
  | syscall (regs : Regs)
  | exception (regs : Regs)
  /-- a store of the word `w` at the index `i` of the virtual page `v` -/
  | store (v i w : ℕ)
  deriving DecidableEq, Repr

/-- A store of the current process: it takes place if the page is mapped user-writable, and is
    otherwise followed by a page fault. -/
def userStore (s : State) (v i w : ℕ) : State :=
  match translate s.mem ((s.ptable s.current).pagetable / PAGESIZE) v with
  | some (n, q) =>
    if IsUser q ∧ IsWritable q ∧ Canonical v ∧ i < 512 then { s with mem := s.mem.set n i w } else s
  | none => s

/-- One event of the current process. -/
def step (s : State) (ev : Event) : Except Fault State :=
  if s.spinning then .error .spinning
  else match ev with
    | .syscall regs => do
      let (_, s) ← syscallEntry L s regs
      return s
    | .exception regs => exception L s regs
    | .store v i w => .ok (userStore s v i w)

end

end CProj.WeensyOS
