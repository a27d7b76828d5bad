/-
  The boot loader (`boot.cc`), once `bootentry.S` has switched the processor over.

  * The memory is a byte for every address.  The boot page table maps the first 1 GiB
    (`bootentry.S`); an access above it is a fault.
  * `own` are the addresses in use by the boot loader itself: its page table, its stack and its
    code.  What happens after a store to one of them is not determined by the program, and counts
    as a fault as well.
  * An ATA read of sector `n` returns the bytes `[512 n, 512 n + 512)` of the disk; a sector behind
    the end of the disk, or on the second drive, is a fault.
  * A loop that waits for something that never comes is `spinning`.
-/
import CProj.Lib.Run
import CProj.Lib.Store
import CProj.Libc.Memory
import Mathlib.Data.Nat.Digits.Lemmas

namespace CProj.BootDisk

open CProj.Libc (Memory)

def ELFHDR : ℕ := 0x3000
def KERNEL_START_SECTOR : ℕ := 1
def PAGESIZE : ℕ := 4096
def ELF_MAGIC : ℕ := 0x464C457F

/-- The memory that the boot page table maps. -/
def MAPPED : ℕ := 2 ^ 30

/-- The ways in which the boot loader does not reach the kernel. -/
inductive Fault where
  | unmapped (a : ℕ)
  | clobbered (a : ℕ)
  | noSector (n : ℕ)
  | spinning
  deriving DecidableEq, Repr

/-- The number that the `n` bytes at `a` stand for, the lowest one first. -/
def littleEndian (m : Memory) (a n : ℕ) : ℕ :=
  Nat.ofDigits 256 ((List.range n).map fun k => (m (a + k)).toNat)

theorem littleEndian_lt (m : Memory) (a n : ℕ) : littleEndian m a n < 256 ^ n := by
  have hlt := Nat.ofDigits_lt_base_pow_length (b := 256)
    (l := (List.range n).map fun k => (m (a + k)).toNat) (by decide) fun d hd => by
      obtain ⟨k, -, rfl⟩ := List.mem_map.1 hd
      exact (m (a + k)).toNat_lt
  rwa [List.length_map, List.length_range] at hlt

theorem littleEndian_congr {m m' : Memory} {a b n : ℕ} (h : ∀ k < n, m' (b + k) = m (a + k)) :
    littleEndian m' b n = littleEndian m a n := by
  refine congrArg (Nat.ofDigits 256) (List.map_congr_left fun k hk => ?_)
  rw [h k (List.mem_range.1 hk)]

/-- Load `n` bytes. -/
def peek (m : Memory) (a n : ℕ) : Except Fault ℕ :=
  if MAPPED < a + n then .error (.unmapped a) else .ok (littleEndian m a n)

section
variable (own : ℕ → Bool) (disk : List UInt8)

/-- Store a byte. -/
def poke (m : Memory) (a : ℕ) (b : UInt8) : Except Fault Memory :=
  if MAPPED ≤ a then .error (.unmapped a)
  else if own a then .error (.clobbered a)
  else .ok (Function.update m a b)

/-- `insl`: move the bytes of a sector into memory. -/
def insl (m : Memory) (dst : ℕ) : List UInt8 → Except Fault Memory
  | [] => .ok m
  | b :: bs => do
    let m ← poke own m dst b
    insl m (dst + 1) bs

/-- The sector that the drive reads, given its four address registers. -/
def ataSector (r3 r4 r5 r6 : ℕ) : ℕ := r3 + 2 ^ 8 * r4 + 2 ^ 16 * r5 + 2 ^ 24 * (r6 % 16)

/-- `boot_readsect`. -/
def bootReadsect (m : Memory) (dst srcSect : ℕ) : Except Fault Memory :=
  let r3 := srcSect % 256
  let r4 := srcSect / 2 ^ 8 % 256
  let r5 := srcSect / 2 ^ 16 % 256
  let r6 := (srcSect / 2 ^ 24 ||| 0xE0) % 256
  let n := ataSector r3 r4 r5 r6
  -- bit 4 selects the second drive
  if r6 / 16 % 2 = 1 ∨ disk.length < 512 * (n + 1) then .error (.noSector n)
  else insl own m dst (slice disk (512 * n) 512)

/-- The loop of `boot_readseg` over the sectors. -/
def readLoop : ℕ → Memory → ℕ → ℕ → ℕ → Except Fault Memory
  | 0, _, _, _, _ => .error .spinning
  | n + 1, m, ptr, endPtr, srcSect =>
    if ptr < endPtr then do
      let m ← bootReadsect own disk m ptr srcSect
      readLoop n m ((ptr + 512) % 2 ^ 64) endPtr ((srcSect + 1) % 2 ^ 32)
    else .ok m

/-- The loop of `boot_readseg` over the bytes to clear. -/
def clearLoop : ℕ → Memory → ℕ → ℕ → Except Fault Memory
  | 0, _, _, _ => .error .spinning
  | n + 1, m, endPtr, memsz =>
    if endPtr < memsz then do
      let m ← poke own m endPtr 0
      clearLoop n m ((endPtr + 1) % 2 ^ 64) memsz
    else .ok m

/-- `boot_readseg`.  Its loops store to another mapped byte in every round, and have ended or
    faulted after `MAPPED` rounds. -/
def bootReadseg (m : Memory) (ptr srcSect filesz memsz : ℕ) : Except Fault Memory := do
  let endPtr := (ptr + filesz) % 2 ^ 64
  let memsz := (memsz + ptr) % 2 ^ 64
  -- `~(SECTORSIZE - 1)`, an `int`, is extended to 64 bits
  let ptr := ptr &&& (2 ^ 64 - 512)
  let m ← readLoop own disk (MAPPED + 1) m ptr endPtr srcSect
  clearLoop own (MAPPED + 1) m endPtr memsz

/-- `struct elf_program`: what the boot loader reads of it. -/
structure ElfProgram where
  p_offset : ℕ
  p_va : ℕ
  p_filesz : ℕ
  p_memsz : ℕ
  deriving DecidableEq, Repr

/-- The loop of `boot` over the program headers; `struct elf_program` takes 56 bytes. -/
def loadSegments : ℕ → Memory → ℕ → ℕ → Except Fault Memory
  | 0, _, _, _ => .error .spinning
  | n + 1, m, ph, eph =>
    if ph < eph then do
      let p_va ← peek m (ph + 0x10) 8
      let p_offset ← peek m (ph + 0x08) 8
      let p_filesz ← peek m (ph + 0x20) 8
      let p_memsz ← peek m (ph + 0x28) 8
      let m ← bootReadseg own disk m p_va ((KERNEL_START_SECTOR + p_offset / 512) % 2 ^ 32) p_filesz
        p_memsz
      loadSegments n m ((ph + 56) % 2 ^ 64) eph
    else .ok m

/-- `boot`: the address that is jumped to, and the memory at that time. -/
def boot (m : Memory) : Except Fault (ℕ × Memory) := do
  let m ← bootReadseg own disk m ELFHDR KERNEL_START_SECTOR PAGESIZE PAGESIZE
  let e_magic ← peek m ELFHDR 4
  if e_magic ≠ ELF_MAGIC then throw .spinning
  let e_phoff ← peek m (ELFHDR + 0x20) 8
  let ph := (ELFHDR + e_phoff) % 2 ^ 64
  let e_phnum ← peek m (ELFHDR + 0x38) 2
  let m ← loadSegments own disk 65536 m ph ((ph + 56 * e_phnum) % 2 ^ 64)
  let e_entry ← peek m (ELFHDR + 0x18) 8
  return (e_entry, m)

end

end CProj.BootDisk
