/-
  The page table iterators of WeensyOS (`weensyos/k-vmiter.hh`, `k-vmiter.cc`, and the address
  arithmetic of `x86-64.h`).

  `Vmiter` walks over virtual addresses, `Ptiter` over the page table pages below a root.  Both
  hold a pointer `pep_` to a page table entry: the number of its page and its index, or the
  constant `zero_pe` that `vmiter` uses for non-canonical addresses.
-/
import CProj.WeensyOS.Machine

namespace CProj.WeensyOS

/-! ## Parts of a paged address -/

def pageindex (addr level : ℕ) : ℕ := (addr >>> (12 + level * 9)) &&& 0x1FF

def pageoffmask (level : ℕ) : ℕ := 1 <<< (12 + level * 9) - 1

/-- `x & ~pageoffmask(level)`. -/
def clearOffset (x level : ℕ) : ℕ := x - (x &&& pageoffmask level)

def vaIsCanonical (va : ℕ) : Bool := va ≤ VA_LOWMAX || va ≥ VA_HIGHMIN

/-- Addition of addresses, modulo `2 ^ 64`. -/
def vaAdd (va delta : ℕ) : ℕ := (va + delta) % 2 ^ 64

/-- Subtraction of addresses, modulo `2 ^ 64`. -/
def vaSub (va delta : ℕ) : ℕ := (va + (2 ^ 64 - delta % 2 ^ 64)) % 2 ^ 64

/-- The entry links a lower-level page table: it is present, and no large page. -/
def IsLink (e : ℕ) : Prop := e &&& (PTE_P ||| PTE_PS) = PTE_P

instance (e : ℕ) : Decidable (IsLink e) := inferInstanceAs (Decidable (_ = _))

/-- The page an entry points to. -/
def pageOf (e : ℕ) : ℕ := (e &&& PTE_PAMASK) / PAGESIZE

/-! ## `vmiter` -/

/-- A pointer to a page table entry. -/
inductive Pep where
  | zeroPe
  | entry (page idx : ℕ)
  deriving DecidableEq, Repr

def Pep.load (m : Mem) : Pep → ℕ
  | .zeroPe => 0
  | .entry page idx => m page idx

def Pep.store (m : Mem) (w : ℕ) : Pep → Mem
  | .zeroPe => m
  | .entry page idx => m.set page idx w

structure Vmiter where
  pt : ℕ
  pep : Pep
  level : ℕ
  perm : ℕ
  va : ℕ
  deriving DecidableEq, Repr

def initialPerm : ℕ := 0xFFF

namespace Vmiter

variable (m : Mem)

/-- The loop of `vmiter::down`. -/
def downLoop (va : ℕ) : ℕ → Pep → ℕ → ℕ × Pep × ℕ
  | 0, pep, perm => (0, pep, perm)
  | level + 1, pep, perm =>
    if IsLink (pep.load m) then
      downLoop va level (.entry (pageOf (pep.load m)) (pageindex va level)) (perm &&& pep.load m)
    else (level + 1, pep, perm)

def down (it : Vmiter) : Except Fault Vmiter :=
  let (level, pep, perm) := downLoop m it.va it.level it.pep it.perm
  if pep.load m &&& PTE_PAMASK ≥ 0x100000000 then .error .panic
  else .ok { it with level := level, pep := pep, perm := perm }

/-- The part of `real_find` in front of `down`: back to the root, or to another entry of the
    page that `pep_` points into. -/
def reposition (it : Vmiter) (va : ℕ) : Vmiter :=
  if it.level = 3 ∨ clearOffset (it.va ^^^ va) (it.level + 1) ≠ 0 then
    if vaIsCanonical va then
      { it with
        level := 3, perm := initialPerm, pep := .entry (it.pt / PAGESIZE) (pageindex va 3), va := va }
    else { it with level := 3, perm := 0, pep := .zeroPe, va := va }
  else match it.pep with
    | .entry page _ => { it with pep := .entry page (pageindex va it.level), va := va }
    | .zeroPe => { it with va := va }

def realFind (it : Vmiter) (va : ℕ) : Except Fault Vmiter := (it.reposition va).down m

def find (it : Vmiter) (va : ℕ) : Except Fault Vmiter := it.realFind m va

/-- The constructor `vmiter(pt, va)`. -/
def create (pt va : ℕ) : Except Fault Vmiter :=
  realFind m ⟨pt, .entry (pt / PAGESIZE) 0, 3, initialPerm, 0⟩ va

/-- `it += delta`. -/
def advance (it : Vmiter) (delta : ℕ) : Except Fault Vmiter := it.find m (vaAdd it.va delta)

/-- `it -= delta`. -/
def retreat (it : Vmiter) (delta : ℕ) : Except Fault Vmiter := it.find m (vaSub it.va delta)

/-- The physical address in the entry under the iterator. -/
def pa (it : Vmiter) : ℕ :=
  if it.pep.load m &&& PTE_P ≠ 0 then
    let pa := it.pep.load m &&& PTE_PAMASK
    let pa := if it.level > 0 then pa - (pa &&& 0x1000) else pa
    pa + (it.va &&& pageoffmask it.level)
  else NEG_ONE

/-- `perm()`. -/
def permissions (it : Vmiter) : ℕ :=
  if it.pep.load m &&& PTE_P ≠ 0 then it.pep.load m &&& it.perm else 0

/-- `perm(p)`: all permissions in `p` are granted. -/
def permits (it : Vmiter) (p : ℕ) : Bool := it.pep.load m &&& it.perm &&& p = p

def present (it : Vmiter) : Bool := it.pep.load m &&& PTE_P ≠ 0

def lastVa (it : Vmiter) : ℕ := vaAdd (it.va ||| pageoffmask it.level) 1

/-- `next()`: to the next page, or behind the region of an entry above level 0 that is absent. -/
def next (it : Vmiter) : Except Fault Vmiter :=
  let level := if it.level > 0 ∧ it.permissions m = 0 then it.level else 0
  it.realFind m (vaAdd (it.va ||| pageoffmask level) 1)

def nextRange (it : Vmiter) : Except Fault Vmiter := it.realFind m it.lastVa

def writable (it : Vmiter) : Bool := it.permits m (PTE_P ||| PTE_W)

def user (it : Vmiter) : Bool := it.permits m (PTE_P ||| PTE_U)

end Vmiter

section
variable (L : Layout)

/-- The loop of `try_map`, with at most as many iterations as the iterator is levels high: it
    allocates the missing page tables.  The flag is `false` if there is no memory for one. -/
def Vmiter.tryMapLoop (perm : ℕ) : ℕ → Vmiter → State → Except Fault (Bool × Vmiter × State)
  | 0, it, s => .ok (true, it, s)
  | n + 1, it, s =>
    if it.level > 0 ∧ perm ≠ 0 then do
      assert (it.pep.load s.mem &&& PTE_P = 0)
      let (pt, s) := kalloc L s PAGESIZE
      if pt = 0 then return (false, it, s)
      if it.pep = .zeroPe then .error .constant
      let s := { s with mem := s.mem.fill (pt / PAGESIZE) 0 }
      let s := { s with mem := it.pep.store s.mem (pt ||| PTE_P ||| PTE_W ||| PTE_U) }
      let it ← it.down s.mem
      tryMapLoop perm n it s
    else .ok (true, it, s)

/-- The assertions of `try_map`. -/
def Vmiter.tryMapAsserts (it : Vmiter) (pa perm : ℕ) : Except Fault Unit := do
  assert (it.va &&& (PAGESIZE - 1) = 0)
  assert (if perm &&& PTE_P ≠ 0 then pa ≠ NEG_ONE ∧ pa &&& PTE_PAMASK = pa else pa &&& PTE_P = 0)
  -- `!(perm & ~perm_ & (PTE_P | PTE_W | PTE_U))`
  assert (perm &&& (PTE_P ||| PTE_W ||| PTE_U) &&& it.perm = perm &&& (PTE_P ||| PTE_W ||| PTE_U))

/-- `try_map(pa, perm)`, with the iterator that it leaves: 0, or -1 if there is no memory for a page
    table. -/
def Vmiter.tryMapIt (it : Vmiter) (s : State) (pa perm : ℕ) : Except Fault (ℤ × Vmiter × State) := do
  let pa := if pa = NEG_ONE ∧ perm = 0 then 0 else pa
  it.tryMapAsserts pa perm
  let (ok, it, s) ← it.tryMapLoop L perm it.level s
  if ok then
    if it.level = 0 then return (0, it, { s with mem := it.pep.store s.mem (pa ||| perm) })
    else return (0, it, s)
  else return (-1, it, s)

/-- `try_map(pa, perm)`, of an iterator that is not used again. -/
def Vmiter.tryMap (it : Vmiter) (s : State) (pa perm : ℕ) : Except Fault (ℤ × State) := do
  let (r, _, s) ← it.tryMapIt L s pa perm
  return (r, s)

/-- `map(pa, perm)`. -/
def Vmiter.map (it : Vmiter) (s : State) (pa perm : ℕ) : Except Fault (Vmiter × State) := do
  let (r, it, s) ← it.tryMapIt L s pa perm
  assert (r = 0)
  return (it, s)

end

/-! ## `ptiter` -/

/-- `pep_` points to the entry `idx` of the page `page`. -/
structure Ptiter where
  pt : ℕ
  page : ℕ
  idx : ℕ
  level : ℕ
  va : ℕ
  deriving DecidableEq, Repr

namespace Ptiter

variable (m : Mem)

/-- The loop of `ptiter::down`. -/
def downLoop : ℕ → Ptiter → ℕ → Bool → Except Fault Ptiter
  | 0, _, _, _ => .error .running
  | fuel + 1, it, stopLevel, skip =>
    if IsLink (m it.page it.idx) ∧ ¬ skip then
      if it.level = stopLevel then .ok it
      else downLoop fuel { it with
        level := it.level - 1
        page := pageOf (m it.page it.idx)
        idx := pageindex it.va (it.level - 1) } stopLevel skip
    else
      let va := (it.va ||| pageoffmask it.level) + 1
      if clearOffset (va ^^^ it.va) (it.level + 1) ≠ 0 then
        -- up one level
        if it.level = 3 then .ok { it with va := VA_NONCANONMAX + 1 }
        else downLoop fuel { it with
          level := 3, page := it.pt / PAGESIZE, idx := pageindex it.va 3 } (it.level + 1) false
      else downLoop fuel { it with idx := it.idx + 1, va := va } stopLevel false

/-- More iterations than any loop over a page table makes: it has `512 ^ 3` entries that can link
    a page table, and the loop comes back to each of them a few times. -/
def fuel : ℕ := 2 ^ 40

def down (it : Ptiter) (skip : Bool) : Except Fault Ptiter := downLoop m fuel it 1 skip

/-- The constructor `ptiter(pt, va)`, with `go`. -/
def create (pt va : ℕ) : Except Fault Ptiter :=
  down m ⟨pt, pt / PAGESIZE, pageindex va 3, 3, va⟩ false

def next (it : Ptiter) : Except Fault Ptiter := it.down m true

def active (it : Ptiter) : Bool := it.va ≤ VA_NONCANONMAX

/-- `va()`. -/
def addr (it : Ptiter) : ℕ := clearOffset it.va it.level

def pa (it : Ptiter) : ℕ := m it.page it.idx &&& PTE_PAMASK

end Ptiter

end CProj.WeensyOS
