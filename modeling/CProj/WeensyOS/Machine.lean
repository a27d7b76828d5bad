/-
  The state of the WeensyOS kernel and its page allocator (`weensyos/kernel.cc`, `kernel.hh`,
  `k-hardware.cc`).

  * Addresses are natural numbers.  Physical memory is a function from page numbers and indices to
    64-bit words: the kernel itself only reads and writes page table entries and whole pages.
  * `Layout` is what the linker decides: where the kernel image ends, and where
    `kernel_pagetable` and `exception_entry` lie in it.
  * A failed `assert`, a `panic`, an access outside `pages[]`, a store to a constant and a loop that
    is still running when its bound is used up are kinds of `Fault`; `spinning` ends the runs of a
    kernel that finds no process to run.
-/
import Mathlib.Algebra.Group.Nat.Defs
import Mathlib.Data.Int.Notation
import CProj.Lib.Run

namespace CProj.WeensyOS

/-! ## Constants -/

def PAGESIZE : ℕ := 4096
def PTE_P : ℕ := 0x1
def PTE_W : ℕ := 0x2
def PTE_U : ℕ := 0x4
def PTE_PS : ℕ := 0x80
def PTE_PAMASK : ℕ := 0x000FFFFFFFFFF000
def VA_LOWMAX : ℕ := 0x00007FFFFFFFFFFF
def VA_HIGHMIN : ℕ := 0xFFFF800000000000
def VA_NONCANONMAX : ℕ := 0x0000FFFFFFFFFFFF
def CONSOLE_ADDR : ℕ := 0xB8000
def NPROC : ℕ := 16
def KERNEL_START_ADDR : ℕ := 0x40000
def KERNEL_STACK_TOP : ℕ := 0x80000
def PROC_START_ADDR : ℕ := 0x100000
def MEMSIZE_PHYSICAL : ℕ := 0x200000
def NPAGES : ℕ := MEMSIZE_PHYSICAL / PAGESIZE
def MEMSIZE_VIRTUAL : ℕ := 0x300000
def IOPHYSMEM : ℕ := 0xA0000
def EXTPHYSMEM : ℕ := 0x100000

/-- `(uintptr_t) -1`. -/
def NEG_ONE : ℕ := 0xFFFFFFFFFFFFFFFF

/-! ## The state -/

/-- The ways in which the kernel stops. -/
inductive Fault where
  | assertion
  | panic
  /-- an access outside `pages[]` -/
  | outOfBounds
  /-- a store to the constant `zero_pe` -/
  | constant
  /-- a loop has not ended yet -/
  | running
  /-- the scheduler spins forever -/
  | spinning
  deriving DecidableEq, Repr

inductive ProcState where
  | free | runnable | blocked | broken
  deriving DecidableEq, Repr

/-- `struct regstate`: the registers the kernel looks at, and the others, which it only saves and
    restores. -/
structure Regs where
  rax : ℕ
  rdi : ℕ
  rip : ℕ
  rsp : ℕ
  intno : ℕ
  errcode : ℕ
  others : List ℕ
  deriving DecidableEq, Repr

/-- `struct proc`. -/
structure Proc where
  pagetable : ℕ
  pid : ℕ
  state : ProcState
  regs : Regs
  deriving DecidableEq, Repr

/-- The layout of the kernel image. -/
structure Layout where
  /-- `&_kernel_end` -/
  kernelEnd : ℕ
  kernelPagetable : ℕ
  exceptionEntry : ℕ
  end_le : kernelEnd ≤ KERNEL_STACK_TOP - PAGESIZE
  pagetable_aligned : kernelPagetable % PAGESIZE = 0
  pagetable_in : KERNEL_START_ADDR ≤ kernelPagetable ∧ kernelPagetable + 5 * PAGESIZE ≤ kernelEnd
  entry_in : KERNEL_START_ADDR ≤ exceptionEntry ∧ exceptionEntry < kernelEnd

/-- The words of physical memory, by page number and index. -/
abbrev Mem := ℕ → ℕ → ℕ

/-- The state of the kernel. -/
structure State where
  mem : Mem
  /-- `pages[].refcount` -/
  pages : ℕ → UInt8
  ptable : ℕ → Proc
  /-- the index of `current` in `ptable` -/
  current : ℕ
  /-- the page of the memory viewer, `memusage::v_` -/
  viewer : ℕ
  /-- the scheduler has found no process to run -/
  spinning : Bool
  /-- (ghost) `kfree` has been called on a page whose count was already 0 -/
  staleFree : Bool

/-! ## Memory -/

/-- `memset` of a whole page with words `w`. -/
def Mem.fill (m : Mem) (p w : ℕ) : Mem := fun q i => if q = p then w else m q i

/-- `memcpy` of a whole page. -/
def Mem.copy (m : Mem) (dst src : ℕ) : Mem := fun q i => if q = dst then m src i else m q i

/-- The store of one word. -/
def Mem.set (m : Mem) (p i w : ℕ) : Mem := fun q j => if q = p ∧ j = i then w else m q j

/-- `assert(c)`. -/
def assert (c : Prop) [Decidable c] : Except Fault Unit :=
  if c then .ok () else .error .assertion

/-! ## The page allocator -/

def roundUp (x n : ℕ) : ℕ := (x + n - 1) / n * n

def reservedPhysicalAddress (pa : ℕ) : Bool :=
  pa < PAGESIZE || (pa ≥ IOPHYSMEM && pa < EXTPHYSMEM)

section
variable (L : Layout)

def allocatablePhysicalAddress (pa : ℕ) : Bool :=
  !reservedPhysicalAddress pa
    && (pa < KERNEL_START_ADDR || pa ≥ roundUp L.kernelEnd PAGESIZE)
    && (pa < KERNEL_STACK_TOP - PAGESIZE || pa ≥ KERNEL_STACK_TOP)
    && pa < MEMSIZE_PHYSICAL

/-- The page number that the search of `kalloc` ends with. -/
def firstFree (pages : ℕ → UInt8) : Option ℕ :=
  (List.range NPAGES).find? fun n => allocatablePhysicalAddress L (n * PAGESIZE) && pages n == 0

/-- `kalloc(sz)`: the address of a page filled with `0xCC`, or `nullptr`. -/
def kalloc (s : State) (sz : ℕ) : ℕ × State :=
  if sz > PAGESIZE then (0, s)
  else match firstFree L s.pages with
    | some n => (n * PAGESIZE, { s with
        pages := Function.update s.pages n 1
        mem := s.mem.fill n 0xCCCCCCCCCCCCCCCC })
    | none => (0, s)

end

/-- The access `pages[pa / PAGESIZE]`. -/
def pageinfo (s : State) (pa : ℕ) : Except Fault UInt8 :=
  if pa / PAGESIZE < NPAGES then .ok (s.pages (pa / PAGESIZE)) else .error .outOfBounds

def kfree (s : State) (kptr : ℕ) : Except Fault State :=
  if kptr = 0 then .ok s
  else do
    let refcount ← pageinfo s kptr
    if refcount > 0 then
      return { s with pages := Function.update s.pages (kptr / PAGESIZE) (refcount - 1) }
    else return { s with staleFree := true }

end CProj.WeensyOS
