/-
  `elf_info` (mkchickadeesymtab.cc): an ELF file in memory.

  * `data_` is a byte for every index, of which the first `capacity_` are allocated and the first
    `size_` are the file.  A read that leaves the file stops the program (`outside`).
  * A pointer into `data_` is the buffer it was made for and an offset in it.  `grow` moves the
    file to a new buffer, and a pointer into the old one is `dangling`.
  * The headers are read as whole structures.
-/
import CProj.BootDisk.Loader
import CProj.Libc.Printf

namespace CProj.Mksymtab

open CProj.Libc (Memory bytes memmove memset)
open CProj.BootDisk (littleEndian ELF_MAGIC)

def ELF_SHT_NULL : ℕ := 0
def ELF_SHT_SYMTAB : ℕ := 2
def ELF_SHT_STRTAB : ℕ := 3
def ELF_SHT_NOBITS : ℕ := 8

/-- The ways in which a function does not return. -/
inductive Stop where
  /-- a read or a write outside the file -/
  | outside
  /-- an access through a pointer into a freed buffer, or a null one -/
  | dangling
  | assertion
  /-- `new` has failed -/
  | badAlloc
  /-- `exit(1)`, with what was printed before, behind the name of the file -/
  | exit (message : List UInt8)
  /-- a loop has not ended yet -/
  | running
  deriving DecidableEq, Repr

/-! ## The headers -/

/-- `struct elf_header` -/
structure ElfHeader where
  e_magic : ℕ := 0
  e_elf : ℕ := 0
  e_type : ℕ := 0
  e_machine : ℕ := 0
  e_version : ℕ := 0
  e_entry : ℕ := 0
  e_phoff : ℕ := 0
  e_shoff : ℕ := 0
  e_flags : ℕ := 0
  e_ehsize : ℕ := 0
  e_phentsize : ℕ := 0
  e_phnum : ℕ := 0
  e_shentsize : ℕ := 0
  e_shnum : ℕ := 0
  e_shstrndx : ℕ := 0
  deriving DecidableEq, Repr

/-- `struct elf_program` -/
structure ElfProgram where
  p_type : ℕ := 0
  p_flags : ℕ := 0
  p_offset : ℕ := 0
  p_va : ℕ := 0
  p_pa : ℕ := 0
  p_filesz : ℕ := 0
  p_memsz : ℕ := 0
  p_align : ℕ := 0
  deriving DecidableEq, Repr

/-- `struct elf_section` -/
structure ElfSection where
  sh_name : ℕ := 0
  sh_type : ℕ := 0
  sh_flags : ℕ := 0
  sh_addr : ℕ := 0
  sh_offset : ℕ := 0
  sh_size : ℕ := 0
  sh_link : ℕ := 0
  sh_info : ℕ := 0
  sh_addralign : ℕ := 0
  sh_entsize : ℕ := 0
  deriving DecidableEq, Repr

def elfHeader (m : Memory) (a : ℕ) : ElfHeader where
  e_magic := littleEndian m (a + 0x00) 4
  e_elf := littleEndian m (a + 0x04) 12
  e_type := littleEndian m (a + 0x10) 2
  e_machine := littleEndian m (a + 0x12) 2
  e_version := littleEndian m (a + 0x14) 4
  e_entry := littleEndian m (a + 0x18) 8
  e_phoff := littleEndian m (a + 0x20) 8
  e_shoff := littleEndian m (a + 0x28) 8
  e_flags := littleEndian m (a + 0x30) 4
  e_ehsize := littleEndian m (a + 0x34) 2
  e_phentsize := littleEndian m (a + 0x36) 2
  e_phnum := littleEndian m (a + 0x38) 2
  e_shentsize := littleEndian m (a + 0x3a) 2
  e_shnum := littleEndian m (a + 0x3c) 2
  e_shstrndx := littleEndian m (a + 0x3e) 2

def elfProgram (m : Memory) (a : ℕ) : ElfProgram where
  p_type := littleEndian m (a + 0x00) 4
  p_flags := littleEndian m (a + 0x04) 4
  p_offset := littleEndian m (a + 0x08) 8
  p_va := littleEndian m (a + 0x10) 8
  p_pa := littleEndian m (a + 0x18) 8
  p_filesz := littleEndian m (a + 0x20) 8
  p_memsz := littleEndian m (a + 0x28) 8
  p_align := littleEndian m (a + 0x30) 8

def elfSection (m : Memory) (a : ℕ) : ElfSection where
  sh_name := littleEndian m (a + 0x00) 4
  sh_type := littleEndian m (a + 0x04) 4
  sh_flags := littleEndian m (a + 0x08) 8
  sh_addr := littleEndian m (a + 0x10) 8
  sh_offset := littleEndian m (a + 0x18) 8
  sh_size := littleEndian m (a + 0x20) 8
  sh_link := littleEndian m (a + 0x28) 4
  sh_info := littleEndian m (a + 0x2c) 4
  sh_addralign := littleEndian m (a + 0x30) 8
  sh_entsize := littleEndian m (a + 0x38) 8

/-- The `n` bytes that a number is stored as. -/
def numberBytes (n v : ℕ) : List UInt8 := (List.range n).map fun k => UInt8.ofNat (v / 256 ^ k)

def ElfHeader.encode (h : ElfHeader) : List UInt8 :=
  numberBytes 4 h.e_magic ++ numberBytes 12 h.e_elf ++ numberBytes 2 h.e_type ++
  numberBytes 2 h.e_machine ++ numberBytes 4 h.e_version ++ numberBytes 8 h.e_entry ++
  numberBytes 8 h.e_phoff ++ numberBytes 8 h.e_shoff ++ numberBytes 4 h.e_flags ++
  numberBytes 2 h.e_ehsize ++ numberBytes 2 h.e_phentsize ++ numberBytes 2 h.e_phnum ++
  numberBytes 2 h.e_shentsize ++ numberBytes 2 h.e_shnum ++ numberBytes 2 h.e_shstrndx

def ElfProgram.encode (p : ElfProgram) : List UInt8 :=
  numberBytes 4 p.p_type ++ numberBytes 4 p.p_flags ++ numberBytes 8 p.p_offset ++
  numberBytes 8 p.p_va ++ numberBytes 8 p.p_pa ++ numberBytes 8 p.p_filesz ++
  numberBytes 8 p.p_memsz ++ numberBytes 8 p.p_align

def ElfSection.encode (s : ElfSection) : List UInt8 :=
  numberBytes 4 s.sh_name ++ numberBytes 4 s.sh_type ++ numberBytes 8 s.sh_flags ++
  numberBytes 8 s.sh_addr ++ numberBytes 8 s.sh_offset ++ numberBytes 8 s.sh_size ++
  numberBytes 4 s.sh_link ++ numberBytes 4 s.sh_info ++ numberBytes 8 s.sh_addralign ++
  numberBytes 8 s.sh_entsize

/-! ## The file -/

/-- A pointer into a buffer. -/
structure Ptr where
  buffer : ℕ
  offset : ℕ
  deriving DecidableEq, Repr

/-- The bytes of a file. -/
structure Image where
  data_ : Memory
  size_ : ℕ

structure ElfInfo extends Image where
  /-- the buffer that `data_` points to -/
  buffer : ℕ
  capacity_ : ℕ
  changed_ : Bool
  ok_ : Bool
  eh_ : Option Ptr
  pht_ : Option Ptr
  sht_ : Option Ptr
  symtab_ : Option Ptr
  nsymtab_ : ℕ
  size_le : size_ ≤ capacity_
  capacity_lt : capacity_ < 2 ^ 63

namespace Image
variable (f : Image)

def eh : ElfHeader := elfHeader f.data_ 0
def ph (i : ℕ) : ElfProgram := elfProgram f.data_ (f.eh.e_phoff + 56 * i)
def sh (i : ℕ) : ElfSection := elfSection f.data_ (f.eh.e_shoff + 64 * i)

end Image

namespace ElfInfo

/-- A file that has just been read. -/
def ofFile (f : List UInt8) (h : f.length < 2 ^ 63) : ElfInfo where
  data_ i := f.getD i 0
  size_ := f.length
  buffer := 0
  capacity_ := f.length
  changed_ := false
  ok_ := false
  eh_ := none
  pht_ := none
  sht_ := none
  symtab_ := none
  nsymtab_ := 0
  size_le := le_rfl
  capacity_lt := h

variable (ei : ElfInfo)

/-- The index in `data_` of what is `offset` behind a pointer, where `n` bytes are accessed. -/
def index (p : Option Ptr) (offset n : ℕ) : Except Stop ℕ :=
  match p with
  | none => .error .dangling
  | some p =>
    if p.buffer ≠ ei.buffer then .error .dangling
    else if ei.size_ < p.offset + offset + n then .error .outside
    else .ok (p.offset + offset)

/-- `*eh_` -/
def header : Except Stop ElfHeader := do
  return elfHeader ei.data_ (← ei.index ei.eh_ 0 64)

/-- `pht_[i]` -/
def program (i : ℕ) : Except Stop ElfProgram := do
  return elfProgram ei.data_ (← ei.index ei.pht_ (56 * i) 56)

/-- `sht_[i]` -/
def sectionAt (i : ℕ) : Except Stop ElfSection := do
  return elfSection ei.data_ (← ei.index ei.sht_ (64 * i) 64)

/-- `data_[i]` -/
def byte (i : ℕ) : Except Stop UInt8 :=
  if i < ei.size_ then .ok (ei.data_ i) else .error .outside

/-- The characters up to a NUL, among the next `n`. -/
def stringLoop : ℕ → ℕ → Except Stop (List UInt8)
  | 0, _ => .error .outside
  | n + 1, i => if ei.data_ i = 0 then .ok [] else do return ei.data_ i :: (← stringLoop n (i + 1))

/-- The string at `data_[i]`. -/
def string (i : ℕ) : Except Stop (List UInt8) := ei.stringLoop (ei.size_ - i) i

variable {ei}

theorem index_ok {offset o n : ℕ} (h : offset + o + n ≤ ei.size_) :
    ei.index (some ⟨ei.buffer, offset⟩) o n = .ok (offset + o) := by
  rw [index, if_neg (not_not.2 rfl), if_neg (Nat.not_lt.2 h)]

theorem byte_ok {i : ℕ} (h : i < ei.size_) : ei.byte i = .ok (ei.data_ i) := if_pos h

theorem stringLoop_ok {n i : ℕ} (h : ∃ k < n, ei.data_ (i + k) = 0) :
    ∃ s, ei.stringLoop n i = .ok s := by
  induction n generalizing i with
  | zero =>
    obtain ⟨k, hk, -⟩ := h
    exact absurd hk (Nat.not_lt_zero k)
  | succ n ih =>
    by_cases h0 : ei.data_ i = 0
    · exact ⟨[], if_pos h0⟩
    obtain ⟨k, hk, hzero⟩ := h
    cases k with
    | zero => exact absurd hzero h0
    | succ k =>
      have hnext : ei.data_ (i + 1 + k) = 0 := by rwa [Nat.add_assoc, Nat.add_comm 1 k]
      obtain ⟨s, hs⟩ := ih ⟨k, Nat.lt_of_succ_lt_succ hk, hnext⟩
      refine ⟨ei.data_ i :: s, ?_⟩
      rw [stringLoop, if_neg h0, hs]
      rfl

/-- A string that ends in the file can be read. -/
theorem string_ok {i k : ℕ} (hk : i + k < ei.size_) (h0 : ei.data_ (i + k) = 0) :
    ∃ s, ei.string i = .ok s :=
  stringLoop_ok ⟨k, by omega, h0⟩

end ElfInfo

end CProj.Mksymtab
