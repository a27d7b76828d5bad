/-
  The programs that come with the kernel (`u-lib.hh`, `p-allocator.cc`, `p-fork.cc` and
  `p-forkexit.cc`), and the system of the kernel with the processes that run them.

  * A program is a machine that asks for one thing at a time (`Request`), a system call or an access
    to memory through a pointer, and resumes with the result.  Its variables, the globals among
    them and the state of `rand`, are its local state; `fork` copies it.
  * A process goes on in the function `System.step` when the processor lets it (`Tick.proceed`), and is
    interrupted whenever the timer says so (`Tick.interrupt`).  The registers that the compiler does
    not fix are arbitrary.  An access that the page table does not allow is a page fault.
-/
import CProj.WeensyOS.Setup
import CProj.Libc.Rand

namespace CProj.WeensyOS

open Libc (Generator randRange srand)

/-! ## Requests -/

def SYSCALL_PANIC : ℕ := 3

/-- What a process asks for. -/
inductive Request where
  | getpid
  | yield
  | panic
  | pageAlloc (addr : ℕ)
  | fork
  | exit
  /-- store the lower `n` bytes of `w` at `va` -/
  | store (va n w : ℕ)
  /-- load `n` bytes from `va` -/
  | load (va n : ℕ)
  deriving DecidableEq, Repr

/-- The registers `%rax` and `%rdi` of a system call. -/
def Request.args : Request → ℕ × ℕ
  | .getpid => (SYSCALL_GETPID, 0)
  | .yield => (SYSCALL_YIELD, 0)
  | .panic => (SYSCALL_PANIC, 0)
  | .pageAlloc addr => (SYSCALL_PAGE_ALLOC, addr)
  | .fork => (SYSCALL_FORK, 0)
  | .exit => (SYSCALL_EXIT, 0)
  | .store _ _ _ | .load _ _ => (0, 0)

/-- A program with local states in `σ`. -/
structure Program (σ : Type) where
  request : σ → Request
  /-- the state in which the program goes on with a result -/
  resume : σ → ℤ → σ

/-! ## The system -/

/-- The kernel, and the local states of the processes. -/
structure System (σ : Type) where
  kernel : State
  locals : ℕ → σ

/-- What the processor does next. -/
inductive Tick where
  | proceed (regs : Regs)
  | interrupt (regs : Regs)
  deriving DecidableEq, Repr

/-- The word at the index `i` of the virtual page `v`, as the current process sees it. -/
def userWord (s : State) (v i : ℕ) : ℕ :=
  match translate s.mem ((s.ptable s.current).pagetable / PAGESIZE) v with
  | some (n, _) => s.mem n i
  | none => 0

/-- The word `old` with its bytes `k`, …, `k + n - 1` replaced by those of `w`. -/
def putBytes (old k n w : ℕ) : ℕ :=
  old % 256 ^ k + w % 256 ^ n * 256 ^ k + old / 256 ^ (k + n) * 256 ^ (k + n)

/-- The page table of the current process allows an access to the virtual page `v`. -/
def Allows (s : State) (v : ℕ) (write : Bool) : Prop :=
  Canonical v ∧ match translate s.mem ((s.ptable s.current).pagetable / PAGESIZE) v with
    | some (_, q) => IsUser q ∧ (write = true → IsWritable q)
    | none => False

instance (s : State) (v : ℕ) (write : Bool) : Decidable (Allows s v write) := by
  unfold Allows
  cases translate s.mem ((s.ptable s.current).pagetable / PAGESIZE) v with
  | none => exact inferInstanceAs (Decidable (_ ∧ False))
  | some x => exact inferInstanceAs (Decidable (_ ∧ IsUser x.2 ∧ (write = true → IsWritable x.2)))

section
variable {σ : Type} (L : Layout) (P : Program σ)

/-- The local states after a system call of the process in the slot `c`: it finds the result in `%rax`,
    at once or when it runs again, and so does a child. -/
def answer (locals : ℕ → σ) (c : ℕ) (r : Option ℤ) (s : State) : ℕ → σ :=
  match r with
  | some v =>
    let locals' := Function.update locals c (P.resume (locals c) v)
    if P.request (locals c) = .fork ∧ 0 < v then
      Function.update locals' v.toNat (P.resume (locals c) (s.ptable v.toNat).regs.rax)
    else locals'
  | none => Function.update locals c (P.resume (locals c) (s.ptable c).regs.rax)

/-- A page fault of the current process. -/
def pageFault (x : System σ) (regs : Regs) : Except Fault (System σ) := do
  let s ← step L x.kernel (.exception { regs with
    intno := INT_PF
    errcode := regs.errcode ||| PFERR_USER })
  return { x with kernel := s }

def System.step (x : System σ) : Tick → Except Fault (System σ)
  | .interrupt regs => do
    let s ← WeensyOS.step L x.kernel (.exception { regs with intno := INT_TIMER })
    return { x with kernel := s }
  | .proceed regs =>
    let c := x.kernel.current
    if x.kernel.spinning then .error .spinning
    else match P.request (x.locals c) with
      | .store va n w =>
        if Allows x.kernel (va / PAGESIZE) true then do
          let i := va % PAGESIZE / 8
          let s ← WeensyOS.step L x.kernel (.store (va / PAGESIZE) i
            (putBytes (userWord x.kernel (va / PAGESIZE) i) (va % 8) n w))
          return ⟨s, Function.update x.locals c (P.resume (x.locals c) 0)⟩
        else pageFault L x regs
      | .load va n =>
        if Allows x.kernel (va / PAGESIZE) false then
          let w := userWord x.kernel (va / PAGESIZE) (va % PAGESIZE / 8)
          .ok ⟨x.kernel, Function.update x.locals c
            (P.resume (x.locals c) (w / 256 ^ (va % 8) % 256 ^ n : ℕ))⟩
        else pageFault L x regs
      | req => do
        let (r, s) ← syscallEntry L x.kernel { regs with rax := req.args.1, rdi := req.args.2 }
        return ⟨s, answer P x.locals c r s⟩

end

/-! ## `p-allocator.cc` -/

def CONSOLE_COLUMNS : ℕ := 80

/-- The address of the cell `console[CPOS(row, col)]`. -/
def consoleCell (row col : ℕ) : ℕ := CONSOLE_ADDR + 2 * (row * CONSOLE_COLUMNS + col)

/-- The addresses that a program is given: its symbol `end`, and `%rsp` in `process_main`. -/
structure Bounds where
  end_ : ℕ
  rsp : ℕ
  deriving DecidableEq, Repr

/-- The first address of the heap. -/
def Bounds.dataTop (b : Bounds) : ℕ := roundUp b.end_ PAGESIZE

def Bounds.stackBottom (b : Bounds) : ℕ := roundDown (b.rsp - 1) PAGESIZE

namespace Allocator

def ALLOC_SLOWDOWN : ℤ := 100

/-- The variables of the loop. -/
structure Vars where
  p : ℤ
  gen : Generator
  heap_top : ℕ
  deriving DecidableEq, Repr

/-- Where the program is. -/
inductive Pc where
  | start
  /-- at the call of `sys_page_alloc` -/
  | alloc (v : Vars)
  /-- at the store to the new page -/
  | touch (v : Vars)
  /-- at the store to the console -/
  | mark (v : Vars)
  /-- at the call of `sys_yield` in the loop -/
  | yield (v : Vars)
  /-- in the loop at the end -/
  | done (v : Vars)
  /-- an assertion has failed -/
  | failed
  deriving DecidableEq, Repr

/-- The loop, from its head to the next request. -/
def loop (b : Bounds) (v : Vars) : Pc :=
  match randRange 0 (ALLOC_SLOWDOWN - 1) v.gen with
  | .ok (r, gen) =>
    let v := { v with gen := gen }
    if r < v.p then if v.heap_top = b.stackBottom then .done v else .alloc v
    else .yield v
  | .error _ => .failed

/-- From the assignment of `p` on. -/
def begin_ (b : Bounds) (p : ℤ) : Pc := loop b ⟨p, srand (UInt32.ofInt p), b.dataTop⟩

def request : Pc → Request
  | .start => .getpid
  | .alloc v => .pageAlloc v.heap_top
  | .touch v => .store v.heap_top 1 (v.p % 256).toNat
  | .mark v => .store (consoleCell 24 79) 2 (v.p % 65536).toNat
  | .yield _ | .done _ => .yield
  | .failed => .panic

def resume (b : Bounds) (pc : Pc) (r : ℤ) : Pc :=
  match pc with
  | .start => begin_ b r
  | .alloc v => if r < 0 then .done v else .touch v
  | .touch v => .mark v
  | .mark v => .yield { v with heap_top := v.heap_top + PAGESIZE }
  | .yield v => loop b v
  | .done v => .done v
  | .failed => .failed

/-- `p-allocator.cc` -/
def program : Program (Bounds × Pc) where
  request x := request x.2
  resume x r := (x.1, resume x.1 x.2 r)

end Allocator

/-! ## `p-fork.cc` -/

namespace Fork

inductive Pc where
  | fork1
  | fork2 (p1 : ℤ)
  /-- at the calls of `sys_getpid`, the first for the assertions -/
  | check (p1 p2 : ℤ)
  | getpid
  | run (pc : Allocator.Pc)
  /-- `assert(p1 >= 0)` or `assert(p2 >= 0)` has failed -/
  | noFork
  /-- an assertion on the results of `fork` has failed -/
  | confused
  deriving DecidableEq, Repr

def request : Pc → Request
  | .fork1 | .fork2 _ => .fork
  | .check _ _ | .getpid => .getpid
  | .run pc => Allocator.request pc
  | .noFork | .confused => .panic

def resume (b : Bounds) (pc : Pc) (r : ℤ) : Pc :=
  match pc with
  | .fork1 => if r ≥ 0 then .fork2 r else .noFork
  | .fork2 p1 => if r ≥ 0 then .check p1 r else .noFork
  | .check p1 p2 =>
    if (if r = 1 then p1 ≠ 0 ∧ p2 ≠ 0 ∧ p1 ≠ p2 else p1 = 0 ∨ p2 = 0) then .getpid else .confused
  | .getpid => .run (Allocator.begin_ b r)
  | .run pc => .run (Allocator.resume b pc r)
  | .noFork => .noFork
  | .confused => .confused

/-- `p-fork.cc` -/
def program : Program (Bounds × Pc) where
  request x := request x.2
  resume x r := (x.1, resume x.1 x.2 r)

end Fork

/-! ## `p-forkexit.cc` -/

namespace ForkExit

def ALLOC_SLOWDOWN : ℤ := 18

/-- The variables of the second loop. -/
structure Vars where
  gen : Generator
  speed : ℤ
  heap_top : ℕ
  nalloc : ℕ
  deriving DecidableEq, Repr

inductive Pc where
  /-- the first loop, at the calls of `sys_fork` and `sys_yield` -/
  | spawn (gen : Generator)
  | wait (gen : Generator)
  /-- at a call of `sys_exit`, and behind it -/
  | exit
  | exited
  /-- the second loop, at its calls -/
  | yield (v : Vars)
  | fork (v : Vars)
  | alloc (v : Vars)
  | touch (v : Vars)
  | mark (v : Vars)
  /-- at the test of `console[CPOS(24, 0)]`, and at the cell `k` of the row that is cleared -/
  | look (v : Vars)
  | clear (v : Vars) (k : ℕ)
  /-- the last loop, at the call of `sys_yield` -/
  | done (gen : Generator)
  /-- an assertion has failed -/
  | failed
  deriving DecidableEq, Repr

/-- `rand(min, max)`, and what the program does with it. -/
def withRand (min max : ℤ) (gen : Generator) (f : ℤ → Generator → Pc) : Pc :=
  match randRange min max gen with
  | .ok (r, gen) => f r gen
  | .error _ => .failed

/-- The first loop, from its head on. -/
def spawnLoop (gen : Generator) : Pc :=
  withRand 0 ALLOC_SLOWDOWN gen fun x gen => if x = 0 then .spawn gen else .wait gen

/-- The last loop, from its head on. -/
def lastLoop (gen : Generator) : Pc :=
  withRand 0 (2 * ALLOC_SLOWDOWN - 1) gen fun x gen => if x = 0 then .exit else .done gen

/-- The second loop, from its head on. -/
def allocLoop (b : Bounds) (v : Vars) : Pc :=
  if v.heap_top ≠ b.stackBottom then
    withRand 0 (6 * ALLOC_SLOWDOWN) v.gen fun x gen =>
      if x ≥ 8 * v.speed then .yield { v with gen := gen }
      else withRand 0 (7 + min (v.nalloc / 4) 10 : ℕ) gen fun x gen =>
        if x < 2 then .fork { v with gen := gen }
        else if x < 3 then .exit
        else .alloc { v with gen := gen }
  else lastLoop v.gen

/-- From the assignment of `speed` on. -/
def alloc (b : Bounds) (gen : Generator) : Pc :=
  withRand 1 16 gen fun speed gen => allocLoop b ⟨gen, speed, b.dataTop, 0⟩

/-- What follows the stores to a new page and the console. -/
def allocated (b : Bounds) (v : Vars) : Pc :=
  allocLoop b { v with nalloc := (v.heap_top - b.dataTop) / PAGESIZE }

def request : Pc → Request
  | .spawn _ | .fork _ => .fork
  | .wait _ | .yield _ | .done _ => .yield
  | .exit => .exit
  | .exited | .failed => .panic
  | .alloc v => .pageAlloc v.heap_top
  | .touch v => .store v.heap_top 1 (v.speed % 256).toNat
  | .mark v => .store (consoleCell 24 79) 2 (v.speed % 65536).toNat
  | .look _ => .load (consoleCell 24 0) 2
  | .clear _ k => .store (consoleCell 24 k) 2 0x20

def resume (b : Bounds) (pc : Pc) (r : ℤ) : Pc :=
  match pc with
  | .spawn gen => withRand 0 2 gen fun choice gen =>
      if choice = 0 ∧ r > 0 then .exit
      else if (if choice ≠ 2 then r > 0 else r = 0) then alloc b gen
      else spawnLoop gen
  | .wait gen => spawnLoop gen
  | .exit | .exited => .exited
  | .yield v => allocLoop b v
  | .fork v =>
    if r = 0 then withRand 1 16 v.gen fun speed gen => allocLoop b { v with gen := gen, speed := speed }
    else allocLoop b v
  | .alloc v =>
    if r ≥ 0 then .touch v
    else if v.nalloc < 4 then .exit
    else allocLoop b { v with nalloc := v.nalloc - 4 }
  | .touch v => .mark v
  | .mark v => .look { v with heap_top := v.heap_top + PAGESIZE }
  | .look v => if r ≠ 0 then .clear v 0 else allocated b v
  | .clear v k => if k + 1 < CONSOLE_COLUMNS then .clear v (k + 1) else allocated b v
  | .done gen => lastLoop gen
  | .failed => .failed

/-- The program before its first call: `rand` has no seed yet. -/
def start : Pc := spawnLoop ⟨false, 0⟩

/-- `p-forkexit.cc` -/
def program : Program (Bounds × Pc) where
  request x := request x.2
  resume x r := (x.1, resume x.1 x.2 r)

end ForkExit

end CProj.WeensyOS
