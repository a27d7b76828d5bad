/-
  Booting from the image that `mkbootdisk` writes.

  The image holds the file of the kernel from sector 1 on, then zeros (`image_kernel`).  `boot`
  reads its first page, and finds there the program headers of the file; it loads one segment after
  the other (`loadSegments_ok`).  No segment touches the header page or another segment, so that in
  the end all of them are in memory as the file has them (`boot_loads`).
-/
import CProj.BootDisk.Mkbootdisk
import CProj.BootDisk.Reading

namespace CProj.BootDisk

open CProj.Libc (Memory)

/-! ## The file of a kernel -/

/-- The bytes of a file, and zeros after its end. -/
def contents (f : List UInt8) : Memory := fun i => f.getD i 0

/-- The `struct elf_program` at `a`. -/
def elfProgram (m : Memory) (a : ℕ) : ElfProgram where
  p_offset := littleEndian m (a + 0x08) 8
  p_va := littleEndian m (a + 0x10) 8
  p_filesz := littleEndian m (a + 0x20) 8
  p_memsz := littleEndian m (a + 0x28) 8

section
variable (kernel : List UInt8)

def e_magic : ℕ := littleEndian (contents kernel) 0 4
def e_entry : ℕ := littleEndian (contents kernel) 0x18 8
def e_phoff : ℕ := littleEndian (contents kernel) 0x20 8
def e_phnum : ℕ := littleEndian (contents kernel) 0x38 2

/-- The `i`-th program header. -/
def program (i : ℕ) : ElfProgram := elfProgram (contents kernel) (e_phoff kernel + 56 * i)

/-- The addresses that the loading of the `i`-th segment may touch. -/
def LoadRange (i x : ℕ) : Prop := InRange (program kernel i).p_va (program kernel i).p_memsz x

/-- A kernel whose program headers the boot loader can follow: the sector-rounded load ranges are
    disjoint from each other, from the boot loader's own memory and from the header page. -/
structure Loadable (own : ℕ → Bool) : Prop where
  magic : e_magic kernel = ELF_MAGIC
  table : e_phoff kernel + 56 * e_phnum kernel ≤ 4096
  congruent : ∀ i < e_phnum kernel, (program kernel i).p_va % 512 = (program kernel i).p_offset % 512
  inFile : ∀ i < e_phnum kernel,
    (program kernel i).p_offset + (program kernel i).p_filesz ≤ kernel.length
  fits : ∀ i < e_phnum kernel, (program kernel i).p_filesz ≤ (program kernel i).p_memsz
  apart : ∀ i < e_phnum kernel, ∀ j < e_phnum kernel, i ≠ j →
    ∀ x, ¬ (LoadRange kernel i x ∧ LoadRange kernel j x)
  notOwn : ∀ i < e_phnum kernel, ∀ x, LoadRange kernel i x → own x = false
  notHeader : ∀ i < e_phnum kernel, ∀ x, LoadRange kernel i x →
    ¬ (ELFHDR ≤ x ∧ x < ELFHDR + PAGESIZE)

/-- The load ranges lie in the memory that the boot page table maps. -/
def Mapped : Prop := ∀ i < e_phnum kernel, ∀ x, LoadRange kernel i x → x < MAPPED

/-- The `i`-th segment is in memory: the bytes of the file, then zeros. -/
structure Loaded (i : ℕ) (m : Memory) : Prop where
  data : ∀ k < (program kernel i).p_filesz,
    kernel[(program kernel i).p_offset + k]? = some (m ((program kernel i).p_va + k))
  zeros : ∀ k, (program kernel i).p_filesz ≤ k → k < (program kernel i).p_memsz →
    m ((program kernel i).p_va + k) = 0

end

/-! ## Numbers in memory -/

variable {own : ℕ → Bool} {disk kernel : List UInt8} {m m' : Memory} {a b n i : ℕ}

theorem peek_ok (h : a + n ≤ MAPPED) : peek m a n = .ok (littleEndian m a n) :=
  if_neg (Nat.not_lt.2 h)

/-- The first page of the file is in memory at `ELFHDR`. -/
def HasHeader (kernel : List UInt8) (m : Memory) : Prop :=
  ∀ k < PAGESIZE, m (ELFHDR + k) = contents kernel k

theorem HasHeader.peek (h : HasHeader kernel m) (hn : a + n ≤ PAGESIZE) :
    BootDisk.peek m (ELFHDR + a) n = .ok (littleEndian (contents kernel) a n) := by
  have hpage : PAGESIZE = 4096 := rfl
  have hhdr : ELFHDR = 0x3000 := rfl
  have hmapped : ELFHDR + a + n ≤ MAPPED := by
    have : MAPPED = 1073741824 := rfl
    omega
  rw [peek_ok hmapped]
  refine congrArg _ (littleEndian_congr fun k hk => ?_)
  rw [Nat.add_assoc, h (a + k) (by omega)]

/-! ## The image -/

/-- The image behind its first sector is the file, filled up with zeros to the end of a sector. -/
theorem image_kernel {boot : List UInt8} (hboot : boot.length ≤ 510) (i : ℕ) :
    (image boot kernel).getD (512 + i) 0 = contents kernel i := by
  have hlen : (bootSector boot).length = 512 := by
    simp [bootSector]
    omega
  rw [List.getD_eq_getElem?_getD, image, List.getElem?_append_right (by omega), hlen,
    Nat.add_sub_cancel_left, contents, List.getD_eq_getElem?_getD]
  by_cases hi : i < kernel.length
  · rw [List.getElem?_append_left hi]
  · rw [List.getElem?_append_right (by omega), List.getElem?_eq_none (Nat.le_of_not_lt hi),
      List.getElem?_replicate]
    split_ifs <;> rfl

theorem length_image {boot : List UInt8} (hboot : boot.length ≤ 510) :
    (image boot kernel).length = 512 * (1 + max (sectors kernel.length) 1023) := by
  simp only [image, bootSector, sectors, List.length_append, List.length_replicate,
    List.length_cons, List.length_nil]
  omega

/-- A disk that holds the file from sector 1 on. -/
structure Holds (disk kernel : List UInt8) : Prop where
  bytes : ∀ k, disk.getD (512 + k) 0 = contents kernel k
  sectors_le : 512 * (1 + sectors kernel.length) ≤ disk.length
  page_le : 512 * 9 ≤ disk.length
  small : disk.length < 512 * 2 ^ 28

theorem holds_image {boot : List UInt8} (hboot : boot.length ≤ 510)
    (hsmall : (image boot kernel).length < 512 * 2 ^ 28) : Holds (image boot kernel) kernel := by
  refine ⟨image_kernel hboot, ?_, ?_, hsmall⟩ <;> rw [length_image hboot] <;> omega

/-! ## Loading -/

/-- **The header page.** -/
theorem headerPage_ok (hdisk : Holds disk kernel)
    (hown : ∀ x, ELFHDR ≤ x → x < ELFHDR + PAGESIZE → own x = false) (m : Memory) :
    ∃ m', bootReadseg own disk m ELFHDR KERNEL_START_SECTOR PAGESIZE PAGESIZE = .ok m' ∧
      HasHeader kernel m' := by
  have hrange : ∀ x, InRange ELFHDR PAGESIZE x → x < MAPPED ∧ own x = false := by
    rintro x ⟨h1, h2⟩
    have hstart : ELFHDR / 512 * 512 = ELFHDR := by decide
    have hstop : (ELFHDR + PAGESIZE + 511) / 512 * 512 = ELFHDR + PAGESIZE := by decide
    have hmapped : ELFHDR + PAGESIZE ≤ MAPPED := by decide
    rw [hstart] at h1
    rw [hstop] at h2
    exact ⟨lt_of_lt_of_le h2 hmapped, hown x h1 h2⟩
  obtain ⟨m', hm', -, hdata, -⟩ : ∃ m',
      bootReadseg own disk m ELFHDR KERNEL_START_SECTOR PAGESIZE PAGESIZE = .ok m' ∧ _ :=
    bootReadseg_ok (by decide) le_rfl hrange (by decide) hdisk.page_le
  refine ⟨m', hm', fun k hk => ?_⟩
  have hindex : 512 * KERNEL_START_SECTOR + (ELFHDR % 512 + k) = 512 + k := by
    rw [show ELFHDR % 512 = 0 from rfl, Nat.zero_add]
    rfl
  rw [hdata k hk, hindex, hdisk.bytes]

/-- The sectors that are read for a segment are sectors of the file. -/
theorem segment_sectors {va offset filesz len : ℕ} (hcong : va % 512 = offset % 512)
    (hfile : offset + filesz ≤ len) :
    KERNEL_START_SECTOR + offset / 512 + (va % 512 + filesz + 511) / 512 ≤ 1 + sectors len := by
  rw [KERNEL_START_SECTOR, sectors, hcong]
  omega

/-- **A segment.** -/
theorem segment_ok (hdisk : Holds disk kernel) (h : Loadable kernel own) (hmapped : Mapped kernel)
    (hi : i < e_phnum kernel) (m : Memory) :
    ∃ m', bootReadseg own disk m (program kernel i).p_va
        ((KERNEL_START_SECTOR + (program kernel i).p_offset / 512) % 2 ^ 32)
        (program kernel i).p_filesz (program kernel i).p_memsz = .ok m' ∧
      (∀ x, ¬ LoadRange kernel i x → m' x = m x) ∧ Loaded kernel i m' := by
  have hcong := h.congruent i hi
  have hfile := h.inFile i hi
  have hrange : ∀ x, LoadRange kernel i x → x < MAPPED ∧ own x = false := fun x hx =>
    ⟨hmapped i hi x hx, h.notOwn i hi x hx⟩
  have hread := segment_sectors hcong hfile
  have hlen : 512 * (KERNEL_START_SECTOR + (program kernel i).p_offset / 512 +
      ((program kernel i).p_va % 512 + (program kernel i).p_filesz + 511) / 512) ≤ disk.length :=
    (Nat.mul_le_mul_left 512 hread).trans hdisk.sectors_le
  have hsmall := hdisk.small
  have hsect : (KERNEL_START_SECTOR + (program kernel i).p_offset / 512) % 2 ^ 32 =
      KERNEL_START_SECTOR + (program kernel i).p_offset / 512 := Nat.mod_eq_of_lt (by omega)
  have hva : (program kernel i).p_va < 2 ^ 64 := littleEndian_lt _ _ 8
  obtain ⟨m', hm', hframe, hdata, hzeros⟩ := bootReadseg_ok (m := m) hva (h.fits i hi) hrange
    (by omega) hlen
  refine ⟨m', by rw [hsect]; exact hm', hframe, fun k hk => ?_, hzeros⟩
  have hindex : 512 * (KERNEL_START_SECTOR + (program kernel i).p_offset / 512) +
      ((program kernel i).p_va % 512 + k) = 512 + ((program kernel i).p_offset + k) := by
    rw [hcong, KERNEL_START_SECTOR]
    omega
  have hbyte := hdata k hk
  have hlt : (program kernel i).p_offset + k < kernel.length := by omega
  rw [hindex, hdisk.bytes, contents, List.getD_eq_getElem?_getD, List.getElem?_eq_getElem hlt,
    Option.getD_some] at hbyte
  rw [List.getElem?_eq_getElem hlt, hbyte]

/-- Memory that a segment's loading may not touch keeps another segment. -/
theorem Loaded.frame (h : Loaded kernel i m) (hle : ∀ x, LoadRange kernel i x → m' x = m x)
    (hfits : (program kernel i).p_filesz ≤ (program kernel i).p_memsz) : Loaded kernel i m' := by
  have hin : ∀ k < (program kernel i).p_memsz, LoadRange kernel i ((program kernel i).p_va + k) := by
    intro k hk
    constructor <;> omega
  refine ⟨fun k hk => ?_, fun k hk hk' => ?_⟩
  · rw [h.data k hk, hle _ (hin k (by omega))]
  · rw [hle _ (hin k hk'), h.zeros k hk hk']

/-- A round of the loop over the program headers. -/
theorem loadSegments_succ (own : ℕ → Bool) (disk : List UInt8)
    (htable : e_phoff kernel + 56 * e_phnum kernel ≤ 4096) (hi : i < e_phnum kernel)
    (hheader : HasHeader kernel m) (f : ℕ) :
    loadSegments own disk (f + 1) m (ELFHDR + e_phoff kernel + 56 * i)
        (ELFHDR + e_phoff kernel + 56 * e_phnum kernel) =
      bootReadseg own disk m (program kernel i).p_va
          ((KERNEL_START_SECTOR + (program kernel i).p_offset / 512) % 2 ^ 32)
          (program kernel i).p_filesz (program kernel i).p_memsz >>= fun m =>
        loadSegments own disk f m (ELFHDR + e_phoff kernel + 56 * (i + 1))
          (ELFHDR + e_phoff kernel + 56 * e_phnum kernel) := by
  have hpage : PAGESIZE = 4096 := rfl
  have hhdr : ELFHDR = 0x3000 := rfl
  have hpeek : ∀ k, k ≤ 0x28 → peek m (ELFHDR + e_phoff kernel + 56 * i + k) 8 =
      .ok (littleEndian (contents kernel) (e_phoff kernel + 56 * i + k) 8) := by
    intro k hk
    rw [Nat.add_assoc ELFHDR, Nat.add_assoc ELFHDR]
    exact hheader.peek (by omega)
  have hnext : (ELFHDR + e_phoff kernel + 56 * i + 56) % 2 ^ 64 =
      ELFHDR + e_phoff kernel + 56 * (i + 1) := by
    rw [Nat.mod_eq_of_lt (by omega), Nat.mul_succ, ← Nat.add_assoc]
  rw [loadSegments, if_pos (by omega), hpeek _ (by decide), ok_bind, hpeek _ (by decide), ok_bind,
    hpeek _ (by decide), ok_bind, hpeek _ (by decide), ok_bind, hnext]
  rfl

/-- **The loop over the program headers**, from the `i`-th one on. -/
theorem loadSegments_ok (hdisk : Holds disk kernel) (h : Loadable kernel own)
    (hmapped : Mapped kernel) (n : ℕ) {f : ℕ} (hf : n < f) (hn : i + n = e_phnum kernel)
    (hheader : HasHeader kernel m) :
    ∃ m', loadSegments own disk f m (ELFHDR + e_phoff kernel + 56 * i)
        (ELFHDR + e_phoff kernel + 56 * e_phnum kernel) = .ok m' ∧ HasHeader kernel m' ∧
      (∀ j, i ≤ j → j < e_phnum kernel → Loaded kernel j m') ∧
      ∀ x, (∀ j, i ≤ j → j < e_phnum kernel → ¬ LoadRange kernel j x) → m' x = m x := by
  induction n generalizing i m f with
  | zero =>
    obtain ⟨f, rfl⟩ : ∃ g, f = g + 1 := ⟨f - 1, by omega⟩
    obtain rfl : i = e_phnum kernel := hn
    refine ⟨m, ?_, hheader, fun j hj hj' => by omega, fun _ _ => rfl⟩
    rw [loadSegments, if_neg (Nat.lt_irrefl _)]
  | succ n ih =>
    obtain ⟨f, rfl⟩ : ∃ g, f = g + 1 := ⟨f - 1, by omega⟩
    have hi : i < e_phnum kernel := by omega
    obtain ⟨m₁, hm₁, hframe, hloaded⟩ := segment_ok hdisk h hmapped hi m
    have hheader₁ : HasHeader kernel m₁ := fun k hk => by
      rw [hframe _ fun hx => h.notHeader i hi _ hx ⟨Nat.le_add_right _ _, Nat.add_lt_add_left hk _⟩,
        hheader k hk]
    obtain ⟨m', hm', hheader', hrest, hframe'⟩ := ih (i := i + 1) (m := m₁) (f := f) (by omega)
      (by omega) hheader₁
    refine ⟨m', ?_, hheader', fun j hj hj' => ?_, fun x hx => ?_⟩
    · rw [loadSegments_succ own disk h.table hi hheader, hm₁, ok_bind, hm']
    · rcases Nat.eq_or_lt_of_le hj with rfl | hlt
      · -- the rest of the segments lies apart from the first one
        refine hloaded.frame (fun x hx => hframe' x fun j hj hj' hx' => ?_) (h.fits _ hi)
        exact h.apart _ hi j hj' (by omega) x ⟨hx, hx'⟩
      · exact hrest j hlt hj'
    · rw [hframe' x fun j hj => hx j (by omega), hframe x (hx i le_rfl hi)]

/-- What `boot` does once the header page is in memory. -/
theorem boot_header (hdisk : Holds disk kernel) (hmagic : e_magic kernel = ELF_MAGIC)
    (htable : e_phoff kernel + 56 * e_phnum kernel ≤ 4096)
    (hown : ∀ x, ELFHDR ≤ x → x < ELFHDR + PAGESIZE → own x = false) (m : Memory) :
    ∃ m₁, HasHeader kernel m₁ ∧ boot own disk m =
      loadSegments own disk 65536 m₁ (ELFHDR + e_phoff kernel)
        (ELFHDR + e_phoff kernel + 56 * e_phnum kernel) >>= fun m' =>
      peek m' (ELFHDR + 0x18) 8 >>= fun e_entry => .ok (e_entry, m') := by
  have hhdr : ELFHDR = 0x3000 := rfl
  obtain ⟨m₁, hm₁, hheader⟩ := headerPage_ok hdisk hown m
  have hpeek : peek m₁ ELFHDR 4 = .ok (e_magic kernel) := hheader.peek (a := 0) (by decide)
  have hphoff : peek m₁ (ELFHDR + 0x20) 8 = .ok (e_phoff kernel) := hheader.peek (by decide)
  have hphnum : peek m₁ (ELFHDR + 0x38) 2 = .ok (e_phnum kernel) := hheader.peek (by decide)
  refine ⟨m₁, hheader, ?_⟩
  rw [boot, hm₁, ok_bind, hpeek, ok_bind, if_neg (not_not.2 hmagic), hphoff, ok_bind, hphnum,
    ok_bind, Nat.mod_eq_of_lt (by omega), Nat.mod_eq_of_lt (by omega)]
  rfl

/-- **Booting** from a disk that holds the file. -/
theorem boot_ok (hdisk : Holds disk kernel) (h : Loadable kernel own) (hmapped : Mapped kernel)
    (hown : ∀ x, ELFHDR ≤ x → x < ELFHDR + PAGESIZE → own x = false) (m : Memory) :
    ∃ m', boot own disk m = .ok (e_entry kernel, m') ∧
      ∀ i < e_phnum kernel, Loaded kernel i m' := by
  have hnum : e_phnum kernel < 65536 := littleEndian_lt _ _ 2
  obtain ⟨m₁, hheader, hboot⟩ := boot_header hdisk h.magic h.table hown m
  obtain ⟨m', hm', hheader', hloaded, -⟩ := loadSegments_ok (i := 0) hdisk h hmapped
    (e_phnum kernel) hnum (Nat.zero_add _) hheader
  rw [Nat.mul_zero, Nat.add_zero] at hm'
  have hentry : peek m' (ELFHDR + 0x18) 8 = .ok (e_entry kernel) := hheader'.peek (by decide)
  refine ⟨m', ?_, fun i hi => hloaded i (Nat.zero_le i) hi⟩
  rw [hboot, hm', ok_bind, hentry, ok_bind]

/-- **Booting from the image that `mkbootdisk BOOTSECTOR KERNEL` writes** leaves every segment in
    memory as the file has it, and jumps to `e_entry`. -/
theorem boot_loads {sys : ℕ → WriteResult} {fuel : ℕ} {bootSect : List UInt8} {s : Output}
    (hwrite : mkbootdisk sys fuel bootSect [.file kernel] = .ok s)
    (hsectors : s.out.length < 512 * 2 ^ 28) (h : Loadable kernel own) (hmapped : Mapped kernel)
    (hown : ∀ x, ELFHDR ≤ x → x < ELFHDR + PAGESIZE → own x = false) (m : Memory) :
    ∃ m', boot own s.out m = .ok (e_entry kernel, m') ∧
      ∀ i < e_phnum kernel, Loaded kernel i m' := by
  obtain ⟨hboot, hout⟩ := mkbootdisk_image hwrite
  rw [hout] at hsectors ⊢
  exact boot_ok (holds_image hboot hsectors) h hmapped hown m

/-! ## A kernel with two segments -/

/-- The boot page table, and the stack and the code of the boot loader. -/
def loaderMemory (x : ℕ) : Bool := decide (0x1000 ≤ x ∧ x < 0x3000 ∨ 0x4000 ≤ x ∧ x < 0x7E00)

theorem loaderMemory_header (x : ℕ) (h : ELFHDR ≤ x) (h' : x < ELFHDR + PAGESIZE) :
    loaderMemory x = false := by
  simp only [ELFHDR, PAGESIZE] at h h'
  exact decide_eq_false (by omega)

/-- The file of a kernel with two segments, each with zeros behind its bytes: the headers at `va`, and
    two pages further on the 8 bytes that follow the headers. -/
def twoSegments (va : ℕ) : List UInt8 :=
  let quad (n : ℕ) : List UInt8 := (List.range 8).map fun k => UInt8.ofNat (n / 256 ^ k)
  let header (offset va filesz memsz : ℕ) : List UInt8 :=
    [1, 0, 0, 0, 6, 0, 0, 0] ++ quad offset ++ quad va ++ quad va ++ quad filesz ++ quad memsz ++
      quad 4096
  [0x7F, 0x45, 0x4C, 0x46] ++ List.replicate 20 0 ++ quad va ++ quad 64 ++ List.replicate 16 0 ++
    [2, 0] ++ List.replicate 6 0 ++ header 0 va 176 4096 ++ header 176 (va + 0x20B0) 8 600 ++
    [1, 2, 3, 4, 5, 6, 7, 8]

theorem length_twoSegments (va : ℕ) : (twoSegments va).length = 184 := by
  simp [twoSegments]

/-- The headers of the file, for segments below 1 GiB and from 1 GiB on. -/
theorem twoSegments_headers : ∀ va ∈ [0x100000, 2 ^ 30],
    e_magic (twoSegments va) = ELF_MAGIC ∧ e_phoff (twoSegments va) = 64 ∧
      e_phnum (twoSegments va) = 2 ∧ e_entry (twoSegments va) = va ∧
      program (twoSegments va) 0 = ⟨0, va, 176, 4096⟩ ∧
      program (twoSegments va) 1 = ⟨176, va + 0x20B0, 8, 600⟩ := by
  decide +kernel

theorem loadRange_twoSegments {va i x : ℕ} (hva : va ∈ [0x100000, 2 ^ 30]) (hi : i < 2)
    (hx : LoadRange (twoSegments va) i x) :
    va + 0x2000 * i ≤ x ∧ x < va + 0x2000 * i + 4096 := by
  obtain ⟨-, -, -, -, hfirst, hsecond⟩ := twoSegments_headers va hva
  have hmod : va % 512 = 0 := by
    rcases List.mem_pair.1 hva with rfl | rfl <;> decide
  obtain rfl | rfl : i = 0 ∨ i = 1 := by omega
  · simp only [LoadRange, InRange, hfirst] at hx
    omega
  · simp only [LoadRange, InRange, hsecond] at hx
    omega

theorem loadable_twoSegments {va : ℕ} (hva : va ∈ [0x100000, 2 ^ 30]) :
    Loadable (twoSegments va) loaderMemory := by
  obtain ⟨hmagic, hphoff, hphnum, -, hfirst, hsecond⟩ := twoSegments_headers va hva
  have hlow : 0x100000 ≤ va ∧ va % 512 = 0 := by
    rcases List.mem_pair.1 hva with rfl | rfl <;> decide
  constructor
  case magic => exact hmagic
  case table =>
    rw [hphoff, hphnum]
    decide
  case apart =>
    rw [hphnum]
    rintro i hi j hj hne x ⟨hx, hy⟩
    have hx' := loadRange_twoSegments hva hi hx
    have hy' := loadRange_twoSegments hva hj hy
    omega
  all_goals
    rw [hphnum]
    intro i hi
  case notOwn =>
    intro x hx
    have hx' := loadRange_twoSegments hva hi hx
    exact decide_eq_false (by omega)
  case notHeader =>
    intro x hx
    have hx' := loadRange_twoSegments hva hi hx
    simp only [ELFHDR, PAGESIZE]
    omega
  all_goals obtain rfl | rfl : i = 0 ∨ i = 1 := by omega
  all_goals simp only [hfirst, hsecond, length_twoSegments]
  all_goals omega

/-- Its image has 1024 sectors. -/
theorem mkbootdisk_twoSegments (va : ℕ) : ∃ s,
    mkbootdisk (fun _ => .wrote 4096) 200 [] [.file (twoSegments va)] = .ok s ∧
      s.out = image [] (twoSegments va) ∧ s.out.length < 512 * 2 ^ 28 := by
  have hfuel : (twoSegments va).length + 2 ≤ 200 := by
    rw [length_twoSegments]
    decide
  obtain ⟨s, hs⟩ : ∃ s, mkbootdisk (fun _ => .wrote 4096) 200 [] [.file (twoSegments va)] = .ok s :=
    mkbootdisk_full (Nat.zero_le 510) hfuel
  obtain ⟨hboot, hout⟩ := mkbootdisk_image hs
  refine ⟨s, hs, hout, ?_⟩
  rw [hout, length_image hboot, length_twoSegments]
  decide

theorem boot_loads_twoSegments : ∃ s m',
    mkbootdisk (fun _ => .wrote 4096) 200 [] [.file (twoSegments 0x100000)] = .ok s ∧
      boot loaderMemory s.out (fun _ => 0) = .ok (e_entry (twoSegments 0x100000), m') ∧
      ∀ i < e_phnum (twoSegments 0x100000), Loaded (twoSegments 0x100000) i m' := by
  have hva : 0x100000 ∈ [0x100000, 2 ^ 30] := by decide
  have hmapped : Mapped (twoSegments 0x100000) := by
    intro i hi x hx
    rw [(twoSegments_headers _ hva).2.2.1] at hi
    have hx' := loadRange_twoSegments hva hi hx
    have : MAPPED = 1073741824 := rfl
    omega
  obtain ⟨s, hs, -, hlen⟩ := mkbootdisk_twoSegments 0x100000
  obtain ⟨m', hm', hloaded⟩ := boot_loads hs hlen (loadable_twoSegments hva) hmapped
    loaderMemory_header (fun _ => 0)
  exact ⟨s, m', hs, hm', hloaded⟩

/-- A segment at 1 GiB is not mapped: the boot loader faults at the first store to it. -/
theorem boot_unmapped : ∃ s,
    mkbootdisk (fun _ => .wrote 4096) 200 [] [.file (twoSegments (2 ^ 30))] = .ok s ∧
      s.out.length < 512 * 2 ^ 28 ∧ Loadable (twoSegments (2 ^ 30)) loaderMemory ∧
      (∀ x, ELFHDR ≤ x → x < ELFHDR + PAGESIZE → loaderMemory x = false) ∧
      ∀ m, boot loaderMemory s.out m = .error (.unmapped (2 ^ 30)) := by
  have hva : 2 ^ 30 ∈ [0x100000, 2 ^ 30] := by decide
  obtain ⟨s, hs, hout, hlen⟩ := mkbootdisk_twoSegments (2 ^ 30)
  have hload := loadable_twoSegments hva
  refine ⟨s, hs, hlen, hload, loaderMemory_header, fun m => ?_⟩
  rw [hout] at hlen ⊢
  have hdisk : Holds (image [] (twoSegments (2 ^ 30))) (twoSegments (2 ^ 30)) :=
    holds_image (Nat.zero_le 510) hlen
  obtain ⟨hmagic, -, hphnum, -, hprogram, -⟩ := twoSegments_headers _ hva
  have hi : 0 < e_phnum (twoSegments (2 ^ 30)) := by
    rw [hphnum]
    decide
  obtain ⟨m₁, hheader, hboot⟩ := boot_header hdisk hmagic hload.table loaderMemory_header m
  have hfault : bootReadseg loaderMemory (image [] (twoSegments (2 ^ 30))) m₁ (2 ^ 30) 1 176 4096 =
      .error (.unmapped (2 ^ 30)) :=
    bootReadseg_unmapped (by decide) (by decide) (by decide) (by decide)
      (Nat.le_trans (by decide) hdisk.page_le)
  have hround := loadSegments_succ loaderMemory (image [] (twoSegments (2 ^ 30))) hload.table hi
    hheader 65535
  rw [Nat.mul_zero, hprogram] at hround
  rw [hboot]
  exact congrArg (· >>= _) (hround.trans (congrArg (· >>= _) hfault))

end CProj.BootDisk
