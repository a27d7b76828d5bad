/-
  `elf_info::validate` (mkchickadeesymtab.cc).

  Every check is made before what it is about is used, but for one: the first and the last byte of
  the section header string table are read before its offset and size have been looked at.  So
  `validate` stays in the file exactly for the files in which these two reads do
  (`validate_safe_iff`); and what it accepts is safe to use (`Safe`).
-/
import CProj.Mksymtab.ElfInfo

namespace CProj.Mksymtab

open CProj.Libc (Memory bytes)
open CProj.BootDisk (littleEndian littleEndian_lt ELF_MAGIC)

/-! ## What the checks look at -/

namespace Image
variable (f : Image)

/-- The section header string table. -/
def shstrtabSection : ElfSection := f.sh f.eh.e_shstrndx

/-- The name of the `j`-th symbol of a symbol table, an offset in its string table. -/
def symbolName (symtab : ElfSection) (j : ℕ) : ℕ :=
  littleEndian f.data_ (symtab.sh_offset + 24 * j) 4

/-- The string at the offset `x` of a string table ends in the table, and in the file. -/
def Terminated (strtab : ElfSection) (x : ℕ) : Prop :=
  strtab.sh_offset + strtab.sh_size ≤ f.size_ ∧
    ∃ k, x + k < strtab.sh_size ∧ f.data_ (strtab.sh_offset + (x + k)) = 0

/-- The contents of a section leave the file. -/
def badContents (sh : ElfSection) : Prop :=
  sh.sh_type ≠ ELF_SHT_NULL ∧ sh.sh_type ≠ ELF_SHT_NOBITS ∧
    (sh.sh_offset ≥ f.size_ ∨ sh.sh_size > f.size_ - sh.sh_offset)

instance (sh : ElfSection) : Decidable (f.badContents sh) :=
  inferInstanceAs (Decidable (_ ∧ _ ∧ (_ ∨ _)))

/-- What may be accessed in a file that `validate` has accepted. -/
structure Safe : Prop where
  header : 64 ≤ f.size_
  programs : f.eh.e_phoff + 56 * f.eh.e_phnum ≤ f.size_
  sections : f.eh.e_shoff + 64 * f.eh.e_shnum ≤ f.size_
  contents : ∀ i < f.eh.e_shnum, (f.sh i).sh_type ≠ ELF_SHT_NULL →
    (f.sh i).sh_type ≠ ELF_SHT_NOBITS → (f.sh i).sh_offset + (f.sh i).sh_size ≤ f.size_
  names : ∀ i < f.eh.e_shnum, f.Terminated f.shstrtabSection (f.sh i).sh_name
  symbols : ∀ i < f.eh.e_shnum, (f.sh i).sh_type = ELF_SHT_SYMTAB →
    ∀ j < (f.sh i).sh_size / 24,
      f.Terminated (f.sh (f.sh i).sh_link) (f.symbolName (f.sh i) j)

/-- What the header of the file says of itself. -/
structure HeaderOk : Prop where
  size : 64 ≤ f.size_
  magic : f.eh.e_magic = ELF_MAGIC
  phentsize : f.eh.e_phentsize = 56
  shentsize : f.eh.e_shentsize = 64
  phnum : f.eh.e_phnum ≠ 0
  shnum : f.eh.e_shnum ≠ 0

/-- The tables of headers are in the file. -/
structure TablesFit : Prop where
  programs : f.eh.e_phoff + 56 * f.eh.e_phnum ≤ f.size_
  sections : f.eh.e_shoff + 64 * f.eh.e_shnum ≤ f.size_

/-- The section header says where the section header string table is. -/
structure TableFound : Prop where
  shstrndx : f.eh.e_shstrndx ≠ 0
  shstrndx_lt : f.eh.e_shstrndx < f.eh.e_shnum
  strtab : f.shstrtabSection.sh_type = ELF_SHT_STRTAB
  nonempty : f.shstrtabSection.sh_size ≠ 0

/-- The first byte of the section header string table is in the file, and its last byte is too
    unless the first one gives the table away. -/
def TableReadable : Prop :=
  f.shstrtabSection.sh_offset < f.size_ ∧ (f.data_ f.shstrtabSection.sh_offset ≠ 0 ∨
    f.shstrtabSection.sh_offset + f.shstrtabSection.sh_size ≤ f.size_)

/-- The section header string table starts and ends with a NUL. -/
structure TableOk : Prop extends f.TableFound where
  fits : f.shstrtabSection.sh_offset + f.shstrtabSection.sh_size ≤ f.size_
  first : f.data_ f.shstrtabSection.sh_offset = 0
  last : f.data_ (f.shstrtabSection.sh_offset + (f.shstrtabSection.sh_size - 1)) = 0

/-- What `checkSection` looks at. -/
structure SectionOk (i : ℕ) : Prop where
  null : i = 0 → (f.sh i).sh_type = ELF_SHT_NULL
  name : (f.sh i).sh_name < f.shstrtabSection.sh_size
  contents : ¬ f.badContents (f.sh i)
  link : (f.sh i).sh_type = ELF_SHT_SYMTAB → (f.sh i).sh_link < f.eh.e_shnum ∧
    (f.sh (f.sh i).sh_link).sh_type = ELF_SHT_STRTAB
  symbols : (f.sh i).sh_type = ELF_SHT_SYMTAB → ∀ j < (f.sh i).sh_size / 24,
    f.symbolName (f.sh i) j < (f.sh (f.sh i).sh_link).sh_size
  strtab : (f.sh i).sh_type = ELF_SHT_STRTAB → (f.sh i).sh_size ≠ 0 ∧
    f.data_ (f.sh i).sh_offset = 0 ∧
    f.data_ ((f.sh i).sh_offset + (f.sh i).sh_size - 1) = 0

/-- The files that `validate` accepts. -/
structure Accepted : Prop where
  header : f.HeaderOk
  tables : f.TablesFit
  table : f.TableOk
  section_ : ∀ i < f.eh.e_shnum, f.SectionOk i

end Image

/-! ## The checks -/

/-- What a check says, with the message behind the name of the file. -/
inductive Check where
  | pass
  /-- `return false` -/
  | fail (message : List UInt8)
  /-- `goto clear_exit` -/
  | clear (message : List UInt8)
  deriving DecidableEq, Repr

/-- The next check, if this one passes. -/
def andThen (c next : Except Stop Check) : Except Stop Check :=
  c >>= fun
    | .pass => next
    | c => .ok c

namespace ElfInfo
variable (ei : ElfInfo)

def checkHeader : Except Stop Check := do
  if ei.size_ < 64 then return .clear (bytes ": not an ELF file\n")
  let eh ← ei.header
  if eh.e_magic ≠ ELF_MAGIC then return .clear (bytes ": not an ELF file\n")
  if eh.e_phentsize ≠ 56 ∨ eh.e_shentsize ≠ 64 then
    return .clear (bytes ": unexpected component sizes\n")
  if eh.e_phnum = 0 ∨ eh.e_shnum = 0 then return .clear (bytes ": empty components\n")
  return .pass

def checkOffsets : Except Stop Check := do
  let eh ← ei.header
  if eh.e_phoff ≥ ei.size_ ∨ (ei.size_ - eh.e_phoff) / 56 < eh.e_phnum ∨
      eh.e_shoff ≥ ei.size_ ∨ (ei.size_ - eh.e_shoff) / 64 < eh.e_shnum then
    return .clear (bytes ": bad offsets\n")
  return .pass

def checkShstrtab : Except Stop Check := do
  let eh ← ei.header
  if eh.e_shstrndx = 0 ∨ eh.e_shstrndx ≥ eh.e_shnum then
    return .clear (bytes ": no section header string table\n")
  let sh ← ei.sectionAt eh.e_shstrndx
  if sh.sh_type ≠ ELF_SHT_STRTAB ∨ sh.sh_size = 0 then
    return .clear (bytes ": no section header string table\n")
  if (← ei.byte sh.sh_offset) ≠ 0 then
    return .clear (bytes ": bad section header string table\n")
  if (← ei.byte (sh.sh_offset + (sh.sh_size - 1))) ≠ 0 then
    return .clear (bytes ": bad section header string table\n")
  return .pass

/-- A complaint about the section with the name at `data_[name]`. -/
def complain (name : ℕ) (what : String) : Except Stop Check := do
  return .fail (bytes " <" ++ (← ei.string name) ++ bytes what)

/-- The loop over the `n` symbols from `sym[j]` on. -/
def checkSymbols (sym strsize : ℕ) : ℕ → ℕ → Except Stop Bool
  | 0, _ => .ok true
  | n + 1, j =>
    if ei.size_ < sym + 24 * j + 4 then .error .outside
    else if littleEndian ei.data_ (sym + 24 * j) 4 ≥ strsize then .ok false
    else checkSymbols sym strsize n (j + 1)

def checkSymtab (eh : ElfHeader) (name : ℕ) (sh : ElfSection) : Except Stop Check := do
  if sh.sh_link ≥ eh.e_shnum then return ← ei.complain name ">: bad linked string table\n"
  let link ← ei.sectionAt sh.sh_link
  if link.sh_type ≠ ELF_SHT_STRTAB then
    return ← ei.complain name ">: bad linked string table\n"
  if ← ei.checkSymbols sh.sh_offset link.sh_size (sh.sh_size / 24) 0 then return .pass
  ei.complain name ">: symbol name out of range\n"

def checkStrtab (name : ℕ) (sh : ElfSection) : Except Stop Check := do
  if sh.sh_size = 0 then return ← ei.complain name ">: bad string table contents\n"
  if (← ei.byte sh.sh_offset) ≠ 0 then
    return ← ei.complain name ">: bad string table contents\n"
  if (← ei.byte (sh.sh_offset + sh.sh_size - 1)) ≠ 0 then
    return ← ei.complain name ">: bad string table contents\n"
  return .pass

/-- The body of the loop over the sections; the section header string table is at
    `data_[shstrtab]`. -/
def checkSection (eh : ElfHeader) (shstrtab shstrtabSize i : ℕ) : Except Stop Check := do
  let sh ← ei.sectionAt i
  if i = 0 ∧ sh.sh_type ≠ ELF_SHT_NULL then
    return .fail (bytes ": should start with null section\n")
  if sh.sh_name ≥ shstrtabSize then
    return .fail (bytes " <#" ++ bytes (toString i) ++ bytes ">: bad section name\n")
  let c ← ei.byte (shstrtab + sh.sh_name)
  if ei.badContents sh then
    if c = 0 then return .clear (bytes " <<empty>>: bad offset/size\n")
    let secname ← ei.string (shstrtab + sh.sh_name)
    return .clear (bytes " <" ++ secname ++ bytes ">: bad offset/size\n")
  if sh.sh_type = ELF_SHT_SYMTAB then return ← ei.checkSymtab eh (shstrtab + sh.sh_name) sh
  if sh.sh_type = ELF_SHT_STRTAB then return ← ei.checkStrtab (shstrtab + sh.sh_name) sh
  return .pass

/-- The loop over the `n` sections from `sht_[i]` on. -/
def checkSections (eh : ElfHeader) (shstrtab shstrtabSize : ℕ) : ℕ → ℕ → Except Stop Check
  | 0, _ => .ok .pass
  | n + 1, i => andThen (ei.checkSection eh shstrtab shstrtabSize i)
    (checkSections eh shstrtab shstrtabSize n (i + 1))

def checkAllSections : Except Stop Check := do
  let eh ← ei.header
  let sh ← ei.sectionAt eh.e_shstrndx
  ei.checkSections eh sh.sh_offset sh.sh_size eh.e_shnum 0

/-- The state that `validate` leaves. -/
def conclude : Check → ElfInfo
  | .pass => { ei with ok_ := true }
  | .fail _ => ei
  | .clear _ => { ei with eh_ := none, pht_ := none, sht_ := none }

def setHeader : ElfInfo := { ei with eh_ := some ⟨ei.buffer, 0⟩ }

def setTables (eh : ElfHeader) : ElfInfo :=
  { ei with pht_ := some ⟨ei.buffer, eh.e_phoff⟩, sht_ := some ⟨ei.buffer, eh.e_shoff⟩ }

/-- `validate`, which returns true if the check has passed. -/
def validate : Except Stop (Check × ElfInfo) := do
  if ei.ok_ then return (.pass, ei)
  let ei := ei.setHeader
  match ← ei.checkHeader with
  | .pass =>
    let ei := ei.setTables (← ei.header)
    let c ← andThen ei.checkOffsets (andThen ei.checkShstrtab ei.checkAllSections)
    return (c, ei.conclude c)
  | c => return (c, ei.conclude c)

/-- The cached pointers designate the headers. -/
structure Designates : Prop where
  eh_ : ei.eh_ = some ⟨ei.buffer, 0⟩
  pht_ : ei.pht_ = some ⟨ei.buffer, ei.eh.e_phoff⟩
  sht_ : ei.sht_ = some ⟨ei.buffer, ei.eh.e_shoff⟩

variable {ei}

/-! ## Reading the headers -/

theorem header_ok (heh : ei.eh_ = some ⟨ei.buffer, 0⟩) (h : 64 ≤ ei.size_) :
    ei.header = .ok ei.eh := by
  rw [header, heh, index_ok (by omega)]
  rfl

theorem sectionAt_ok (hsht : ei.sht_ = some ⟨ei.buffer, ei.eh.e_shoff⟩) {i : ℕ}
    (hi : i < ei.eh.e_shnum) (h : ei.eh.e_shoff + 64 * ei.eh.e_shnum ≤ ei.size_) :
    ei.sectionAt i = .ok (ei.sh i) := by
  rw [sectionAt, hsht, index_ok (by omega)]
  rfl

theorem program_ok (hpht : ei.pht_ = some ⟨ei.buffer, ei.eh.e_phoff⟩) {i : ℕ}
    (hi : i < ei.eh.e_phnum) (h : ei.eh.e_phoff + 56 * ei.eh.e_phnum ≤ ei.size_) :
    ei.program i = .ok (ei.ph i) := by
  rw [program, hpht, index_ok (by omega)]
  rfl

/-! ## The checks on the headers -/

/-- A check that returns, and passes exactly if `P`. -/
def Decides (c : Except Stop Check) (P : Prop) : Prop := ∃ r, c = .ok r ∧ (r = .pass ↔ P)

section
variable {c next : Except Stop Check} {P Q : Prop}

theorem decides_pass (h : P) : Decides (pure .pass) P := ⟨_, rfl, iff_of_true rfl h⟩

theorem decides_clear {message : List UInt8} (h : ¬ P) : Decides (pure (.clear message)) P :=
  ⟨_, rfl, iff_of_false (fun h => nomatch h) h⟩

theorem decides_fail {message : List UInt8} (h : ¬ P) : Decides (pure (.fail message)) P :=
  ⟨_, rfl, iff_of_false (fun h => nomatch h) h⟩

theorem Decides.congr (h : Decides c P) (hPQ : P ↔ Q) : Decides c Q := by
  obtain ⟨r, hc, hr⟩ := h
  exact ⟨r, hc, hr.trans hPQ⟩

theorem decides_andThen (hc : Decides c P) (hnext : P → Decides next Q) :
    Decides (andThen c next) (P ∧ Q) := by
  obtain ⟨r, rfl, hr⟩ := hc
  cases r with
  | pass =>
    have hP := hr.1 rfl
    obtain ⟨r', hn, hr'⟩ := hnext hP
    exact ⟨r', hn, hr'.trans (and_iff_right hP).symm⟩
  | fail message => exact decides_fail fun h => nomatch hr.2 h.1
  | clear message => exact decides_clear fun h => nomatch hr.2 h.1

end

theorem checkHeader_decides (heh : ei.eh_ = some ⟨ei.buffer, 0⟩) :
    Decides ei.checkHeader ei.HeaderOk := by
  unfold checkHeader
  by_cases hsize : ei.size_ < 64
  · rw [if_pos hsize]
    exact decides_clear fun h => absurd h.size (Nat.not_le.2 hsize)
  rw [if_neg hsize, header_ok heh (Nat.le_of_not_lt hsize), ok_bind]
  split_ifs with hmagic hsizes hempty
  · exact decides_clear fun h => hmagic h.magic
  · exact decides_clear fun h => hsizes.elim (fun hp => hp h.phentsize) fun hs => hs h.shentsize
  · exact decides_clear fun h => hempty.elim h.phnum h.shnum
  · rw [not_or, not_not, not_not] at hsizes
    rw [not_or] at hempty
    exact decides_pass ⟨Nat.le_of_not_lt hsize, not_not.1 hmagic, hsizes.1, hsizes.2, hempty.1,
      hempty.2⟩

theorem checkOffsets_decides (heh : ei.eh_ = some ⟨ei.buffer, 0⟩) (h : ei.HeaderOk) :
    Decides ei.checkOffsets ei.TablesFit := by
  have hp := h.phnum
  have hs := h.shnum
  rw [checkOffsets, header_ok heh h.size, ok_bind]
  split_ifs with hbad
  · refine decides_clear ?_
    rintro ⟨hprograms, hsections⟩
    omega
  · refine decides_pass ⟨?_, ?_⟩ <;> omega

section
variable (heh : ei.eh_ = some ⟨ei.buffer, 0⟩) (hsht : ei.sht_ = some ⟨ei.buffer, ei.eh.e_shoff⟩)
  (h : ei.HeaderOk) (ht : ei.TablesFit)
include heh hsht h ht

theorem checkShstrtab_decides (hread : ei.TableFound → ei.TableReadable) :
    Decides ei.checkShstrtab ei.TableOk := by
  rw [checkShstrtab, header_ok heh h.size, ok_bind]
  split_ifs with hndx
  · exact decides_clear fun h => hndx.elim h.shstrndx (Nat.not_le.2 h.shstrndx_lt)
  rw [not_or, not_le] at hndx
  rw [sectionAt_ok hsht hndx.2 ht.sections, ok_bind]
  split_ifs with htype
  · exact decides_clear fun h => htype.elim (fun ht => ht h.strtab) h.nonempty
  rw [not_or, not_not] at htype
  have hfound : ei.TableFound := ⟨hndx.1, hndx.2, htype.1, htype.2⟩
  obtain ⟨hoffset, hfits⟩ := hread hfound
  rw [← Image.shstrtabSection, byte_ok hoffset, ok_bind]
  split_ifs with hfirst
  · exact decides_clear fun h => hfirst h.first
  have hlast := hfits.resolve_left hfirst
  rw [byte_ok (by omega), ok_bind]
  split_ifs with hend
  · exact decides_clear fun h => hend h.last
  · exact decides_pass ⟨hfound, hlast, not_not.1 hfirst, not_not.1 hend⟩

/-- The first or the last byte of the table is read outside the file. -/
theorem checkShstrtab_error (hfound : ei.TableFound) (hread : ¬ ei.TableReadable) :
    ei.checkShstrtab = .error .outside := by
  rw [checkShstrtab, header_ok heh h.size, ok_bind,
    if_neg (not_or.2 ⟨hfound.shstrndx, Nat.not_le.2 hfound.shstrndx_lt⟩),
    sectionAt_ok hsht hfound.shstrndx_lt ht.sections, ok_bind, ← Image.shstrtabSection,
    if_neg (not_or.2 ⟨not_not.2 hfound.strtab, hfound.nonempty⟩)]
  have hpos := hfound.nonempty
  by_cases hoffset : ei.shstrtabSection.sh_offset < ei.size_
  · rw [Image.TableReadable, not_and_or, not_or, not_not, not_le] at hread
    obtain ⟨hfirst, hlong⟩ := hread.resolve_left (not_not.2 hoffset)
    rw [byte_ok hoffset, ok_bind, if_neg (not_not.2 hfirst), byte, if_neg (by omega)]
    rfl
  · rw [byte, if_neg hoffset]
    rfl

end

/-! ## The checks on a section -/

theorem complain_decides {name : ℕ} (what : String) {P : Prop} (hname : ∃ s, ei.string name = .ok s)
    (hP : ¬ P) : Decides (ei.complain name what) P := by
  obtain ⟨s, hs⟩ := hname
  rw [complain, hs, ok_bind]
  exact decides_fail hP

theorem checkSymbols_spec {sym strsize n j : ℕ} (h : sym + 24 * (j + n) ≤ ei.size_) :
    ∃ b, ei.checkSymbols sym strsize n j = .ok b ∧
      (b = true ↔ ∀ k, j ≤ k → k < j + n → littleEndian ei.data_ (sym + 24 * k) 4 < strsize) := by
  induction n generalizing j with
  | zero => exact ⟨true, rfl, iff_of_true rfl fun k hjk hk => absurd hjk (Nat.not_le.2 hk)⟩
  | succ n ih =>
    rw [checkSymbols, if_neg (by omega)]
    split_ifs with hbad
    · refine ⟨false, rfl, iff_of_false Bool.false_ne_true fun hall => ?_⟩
      exact Nat.not_lt.2 hbad (hall j le_rfl (by omega))
    · obtain ⟨b, hb, hiff⟩ := ih (j := j + 1) (by omega)
      refine ⟨b, hb, hiff.trans ⟨fun hall k hjk hk => ?_, fun hall k hjk hk => ?_⟩⟩
      · rcases Nat.eq_or_lt_of_le hjk with rfl | hlt
        · exact Nat.lt_of_not_le hbad
        · exact hall k hlt (by omega)
      · exact hall k (by omega) (by omega)

theorem checkStrtab_decides {name : ℕ} {sh : ElfSection} (hname : ∃ s, ei.string name = .ok s)
    (hcontents : sh.sh_offset + sh.sh_size ≤ ei.size_) :
    Decides (ei.checkStrtab name sh) (sh.sh_size ≠ 0 ∧ ei.data_ sh.sh_offset = 0 ∧
      ei.data_ (sh.sh_offset + sh.sh_size - 1) = 0) := by
  unfold checkStrtab
  by_cases hempty : sh.sh_size = 0
  · rw [if_pos hempty]
    exact complain_decides _ hname fun h => h.1 hempty
  rw [if_neg hempty, byte_ok (by omega), ok_bind]
  split_ifs with hfirst
  · exact complain_decides _ hname fun h => hfirst h.2.1
  rw [byte_ok (by omega), ok_bind]
  split_ifs with hlast
  · exact complain_decides _ hname fun h => hlast h.2.2
  · exact decides_pass ⟨hempty, not_not.1 hfirst, not_not.1 hlast⟩

section
variable (hsht : ei.sht_ = some ⟨ei.buffer, ei.eh.e_shoff⟩) (ht : ei.TablesFit)
include hsht ht

theorem checkSymtab_decides {name i : ℕ} (hname : ∃ s, ei.string name = .ok s)
    (hcontents : (ei.sh i).sh_offset + (ei.sh i).sh_size ≤ ei.size_) :
    Decides (ei.checkSymtab ei.eh name (ei.sh i))
      (((ei.sh i).sh_link < ei.eh.e_shnum ∧
        (ei.sh (ei.sh i).sh_link).sh_type = ELF_SHT_STRTAB) ∧
      ∀ j < (ei.sh i).sh_size / 24,
        ei.symbolName (ei.sh i) j < (ei.sh (ei.sh i).sh_link).sh_size) := by
  unfold checkSymtab
  split_ifs with hlink
  · exact complain_decides _ hname fun h => Nat.not_le.2 h.1.1 hlink
  rw [sectionAt_ok hsht (Nat.lt_of_not_le hlink) ht.sections, ok_bind]
  split_ifs with htype
  · exact complain_decides _ hname fun h => htype h.1.2
  have hfit : (ei.sh i).sh_offset + 24 * (0 + (ei.sh i).sh_size / 24) ≤ ei.size_ := by omega
  obtain ⟨b, hb, hiff⟩ := checkSymbols_spec hfit
  rw [hb, ok_bind]
  have hsymbols : b = true ↔ ∀ j < (ei.sh i).sh_size / 24,
      ei.symbolName (ei.sh i) j < (ei.sh (ei.sh i).sh_link).sh_size := by
    rw [hiff, Nat.zero_add]
    exact ⟨fun h j hj => h j (Nat.zero_le j) hj, fun h j _ hj => h j hj⟩
  split_ifs with hpass
  · exact decides_pass ⟨⟨Nat.lt_of_not_le hlink, not_not.1 htype⟩, hsymbols.1 hpass⟩
  · exact complain_decides _ hname fun h => hpass (hsymbols.2 h.2)

theorem checkSection_decides (htable : ei.TableOk) {i : ℕ} (hi : i < ei.eh.e_shnum) :
    Decides (ei.checkSection ei.eh ei.shstrtabSection.sh_offset ei.shstrtabSection.sh_size i)
      (ei.SectionOk i) := by
  have hfits := htable.fits
  rw [checkSection, sectionAt_ok hsht hi ht.sections, ok_bind]
  by_cases hnull : i = 0 ∧ (ei.sh i).sh_type ≠ ELF_SHT_NULL
  · rw [if_pos hnull]
    exact decides_fail fun h => hnull.2 (h.null hnull.1)
  by_cases hname : (ei.sh i).sh_name ≥ ei.shstrtabSection.sh_size
  · rw [if_neg hnull, if_pos hname]
    exact decides_fail fun h => Nat.not_le.2 h.name hname
  -- the name ends in the table
  have hstring : ∃ s, ei.string (ei.shstrtabSection.sh_offset + (ei.sh i).sh_name) = .ok s := by
    obtain ⟨k, hk⟩ : ∃ k, ei.shstrtabSection.sh_size - 1 = (ei.sh i).sh_name + k :=
      Nat.exists_eq_add_of_le (by omega)
    have hlast := htable.last
    rw [hk, ← Nat.add_assoc] at hlast
    exact string_ok (by omega) hlast
  rw [if_neg hnull, if_neg hname, byte_ok (by omega), ok_bind]
  have hnull' : i = 0 → (ei.sh i).sh_type = ELF_SHT_NULL := fun h => by
    by_contra hne
    exact hnull ⟨h, hne⟩
  have hname' := Nat.lt_of_not_le hname
  by_cases hbad : ei.badContents (ei.sh i)
  · rw [if_pos hbad]
    obtain ⟨s, hs⟩ := hstring
    rw [hs, ok_bind]
    split_ifs <;> exact decides_clear fun h => h.contents hbad
  have hcontents : (ei.sh i).sh_type ≠ ELF_SHT_NULL → (ei.sh i).sh_type ≠ ELF_SHT_NOBITS →
      (ei.sh i).sh_offset + (ei.sh i).sh_size ≤ ei.size_ := fun hn hb => by
    by_contra hlt
    exact hbad ⟨hn, hb, by omega⟩
  rw [if_neg hbad]
  split_ifs with hsymtab hstrtab
  · have hfit := hcontents (by rw [hsymtab]; decide) (by rw [hsymtab]; decide)
    refine (checkSymtab_decides hsht ht hstring hfit).congr ⟨fun h => ?_, fun h => ?_⟩
    · exact ⟨hnull', hname', hbad, fun _ => h.1, fun _ => h.2,
        fun hs => absurd (hsymtab.symm.trans hs) (by decide)⟩
    · exact ⟨h.link hsymtab, h.symbols hsymtab⟩
  · have hfit := hcontents (by rw [hstrtab]; decide) (by rw [hstrtab]; decide)
    refine (checkStrtab_decides hstring hfit).congr ⟨fun h => ?_, fun h => ?_⟩
    · exact ⟨hnull', hname', hbad, fun hs => absurd hs hsymtab, fun hs => absurd hs hsymtab,
        fun _ => h⟩
    · exact h.strtab hstrtab
  · exact decides_pass ⟨hnull', hname', hbad, fun h => absurd h hsymtab, fun h => absurd h hsymtab,
      fun h => absurd h hstrtab⟩

theorem checkSections_decides (htable : ei.TableOk) {n i : ℕ} (hn : i + n ≤ ei.eh.e_shnum) :
    Decides (ei.checkSections ei.eh ei.shstrtabSection.sh_offset ei.shstrtabSection.sh_size n i)
      (∀ j, i ≤ j → j < i + n → ei.SectionOk j) := by
  induction n generalizing i with
  | zero => exact decides_pass fun j hij hj => absurd hij (Nat.not_le.2 hj)
  | succ n ih =>
    refine (decides_andThen (checkSection_decides hsht ht htable (by omega)) fun _ =>
      ih (i := i + 1) (by omega)).congr ⟨?_, fun h => ⟨h i le_rfl (by omega), ?_⟩⟩
    · rintro ⟨hone, hrest⟩ j hij hj
      rcases Nat.eq_or_lt_of_le hij with rfl | hlt
      · exact hone
      · exact hrest j hlt (by omega)
    · exact fun j hij hj => h j (by omega) (by omega)

end

/-! ## `validate` -/

/-- The state with the cached pointers set. -/
def opened (ei : ElfInfo) : ElfInfo := ei.setHeader.setTables ei.eh

/-- The checks that come after the one of the header. -/
theorem validate_of_header (hok : ei.ok_ = false) (h : ei.HeaderOk) :
    ei.validate = andThen ei.opened.checkOffsets (andThen ei.opened.checkShstrtab
      ei.opened.checkAllSections) >>= fun c => .ok (c, ei.opened.conclude c) := by
  have hdecides : Decides ei.setHeader.checkHeader ei.HeaderOk := checkHeader_decides rfl
  obtain ⟨r, hr, hpass⟩ := hdecides
  have hheader : ei.setHeader.header = .ok ei.eh := header_ok rfl h.size
  rw [validate, hok, if_neg Bool.false_ne_true]
  dsimp only
  rw [hr, hpass.2 h, ok_bind]
  dsimp only
  rw [hheader]
  rfl

theorem validate_of_not_header (hok : ei.ok_ = false) (h : ¬ ei.HeaderOk) :
    ∃ r ei', ei.validate = .ok (r, ei') ∧ r ≠ .pass := by
  have hdecides : Decides ei.setHeader.checkHeader ei.HeaderOk := checkHeader_decides rfl
  obtain ⟨r, hr, hpass⟩ := hdecides
  have hne : r ≠ .pass := mt hpass.1 h
  refine ⟨r, ei.setHeader.conclude r, ?_, hne⟩
  rw [validate, hok, if_neg Bool.false_ne_true]
  dsimp only
  rw [hr, ok_bind]
  cases r with
  | pass => exact absurd rfl hne
  | fail message => rfl
  | clear message => rfl

theorem checkAllSections_decides (h : ei.HeaderOk) (ht : ei.TablesFit) (htable : ei.TableOk) :
    Decides ei.opened.checkAllSections (∀ i < ei.eh.e_shnum, ei.SectionOk i) := by
  have hheader : ei.opened.header = .ok ei.eh := header_ok rfl h.size
  have hsection : ei.opened.sectionAt ei.eh.e_shstrndx = .ok ei.shstrtabSection :=
    sectionAt_ok rfl htable.shstrndx_lt ht.sections
  have ht' : ei.opened.TablesFit := ht
  have htable' : ei.opened.TableOk := htable
  obtain ⟨r, hr, hpass⟩ := checkSections_decides rfl ht' htable' (Nat.zero_add _).le
  rw [checkAllSections, hheader, ok_bind, hsection, ok_bind]
  refine ⟨r, hr, hpass.trans ?_⟩
  rw [Nat.zero_add]
  exact ⟨fun h i hi => h i (Nat.zero_le i) hi, fun h i _ hi => h i hi⟩

/-- `validate`, where the section header string table can be read. -/
theorem validate_decides (hok : ei.ok_ = false)
    (hread : ei.HeaderOk → ei.TablesFit → ei.TableFound → ei.TableReadable) :
    ∃ r ei', ei.validate = .ok (r, ei') ∧ (r = .pass ↔ ei.Accepted) := by
  by_cases h : ei.HeaderOk
  · have hoffsets : Decides ei.opened.checkOffsets ei.TablesFit := checkOffsets_decides rfl h
    have htable : ei.TablesFit → Decides ei.opened.checkShstrtab ei.TableOk := fun ht =>
      checkShstrtab_decides rfl rfl h ht (hread h ht)
    obtain ⟨r, hr, hpass⟩ := decides_andThen hoffsets fun ht =>
      decides_andThen (htable ht) fun htable => checkAllSections_decides h ht htable
    refine ⟨r, ei.opened.conclude r, ?_, hpass.trans ?_⟩
    · rw [validate_of_header hok h, hr, ok_bind]
    · exact ⟨fun ⟨ht, htable, hs⟩ => ⟨h, ht, htable, hs⟩,
        fun ha => ⟨ha.tables, ha.table, ha.section_⟩⟩
  · obtain ⟨r, ei', hv, hr⟩ := validate_of_not_header hok h
    exact ⟨r, ei', hv, iff_of_false hr fun ha => h ha.header⟩

/-- It reads outside the file otherwise. -/
theorem validate_error (hok : ei.ok_ = false) (h : ei.HeaderOk) (ht : ei.TablesFit)
    (hfound : ei.TableFound) (hread : ¬ ei.TableReadable) : ei.validate = .error .outside := by
  have hoffsets : Decides ei.opened.checkOffsets ei.TablesFit := checkOffsets_decides rfl h
  obtain ⟨r, hr, hpass⟩ := hoffsets
  have htable : ei.opened.checkShstrtab = .error .outside :=
    checkShstrtab_error rfl rfl h ht hfound hread
  rw [validate_of_header hok h, hr, hpass.2 ht, htable]
  rfl

/-- The state after `validate` has returned true. -/
theorem validate_pass {ei' : ElfInfo} (hok : ei.ok_ = false) (hv : ei.validate = .ok (.pass, ei')) :
    ei.Accepted ∧ ei' = { ei.opened with ok_ := true } := by
  have hread : ei.HeaderOk → ei.TablesFit → ei.TableFound → ei.TableReadable := by
    intro h ht hfound
    by_contra hread
    rw [validate_error hok h ht hfound hread] at hv
    cases hv
  obtain ⟨r, ei'', hv', hpass⟩ := validate_decides hok hread
  rw [hv, Except.ok.injEq, Prod.mk.injEq] at hv'
  have haccepted := hpass.1 hv'.1.symm
  refine ⟨haccepted, ?_⟩
  rw [validate_of_header hok haccepted.header] at hv
  obtain ⟨c, -, hc⟩ := bind_eq_ok.1 hv
  rw [Except.ok.injEq, Prod.mk.injEq] at hc
  rw [← hc.2, hc.1]
  rfl

end ElfInfo

namespace Image
variable {f : Image}

/-- A string in a table that ends with a NUL. -/
theorem terminated_of_last {strtab : ElfSection} {x : ℕ}
    (hfits : strtab.sh_offset + strtab.sh_size ≤ f.size_)
    (hlast : f.data_ (strtab.sh_offset + (strtab.sh_size - 1)) = 0) (hx : x < strtab.sh_size) :
    f.Terminated strtab x := by
  obtain ⟨k, hk⟩ : ∃ k, strtab.sh_size - 1 = x + k := Nat.exists_eq_add_of_le (by omega)
  rw [hk] at hlast
  exact ⟨hfits, k, by omega, hlast⟩

theorem SectionOk.fits {i : ℕ} (h : f.SectionOk i) (hnull : (f.sh i).sh_type ≠ ELF_SHT_NULL)
    (hnobits : (f.sh i).sh_type ≠ ELF_SHT_NOBITS) :
    (f.sh i).sh_offset + (f.sh i).sh_size ≤ f.size_ := by
  by_contra hlt
  exact h.contents ⟨hnull, hnobits, by omega⟩

/-- What `validate` accepts is safe to use. -/
theorem Accepted.safe (h : f.Accepted) : f.Safe where
  header := h.header.size
  programs := h.tables.programs
  sections := h.tables.sections
  contents i hi := (h.section_ i hi).fits
  names i hi := terminated_of_last h.table.fits h.table.last (h.section_ i hi).name
  symbols i hi htype j hj := by
    obtain ⟨hlink, hstrtab⟩ := (h.section_ i hi).link htype
    have hs := h.section_ _ hlink
    have hfits := hs.fits (by rw [hstrtab]; decide) (by rw [hstrtab]; decide)
    obtain ⟨hpos, -, hlast⟩ := hs.strtab hstrtab
    rw [Nat.add_sub_assoc (Nat.one_le_iff_ne_zero.2 hpos)] at hlast
    exact terminated_of_last hfits hlast ((h.section_ i hi).symbols htype j hj)

end Image

namespace ElfInfo
variable {ei : ElfInfo}

/-- **`validate`** reads only inside the file, and what it accepts is safe to use, exactly if the
    section header string table can be read wherever the headers are good enough for that. -/
theorem validate_safe_iff (ei : ElfInfo) (hok : ei.ok_ = false) :
    ((∃ r, ei.validate = .ok r) ∧ ∀ ei', ei.validate = .ok (.pass, ei') → ei'.Safe) ↔
      (ei.HeaderOk → ei.TablesFit → ei.TableFound → ei.TableReadable) := by
  constructor
  · rintro ⟨⟨r, hr⟩, -⟩ h ht hfound
    by_contra hread
    rw [validate_error hok h ht hfound hread] at hr
    cases hr
  · intro hread
    obtain ⟨r, ei', hv, -⟩ := validate_decides hok hread
    refine ⟨⟨_, hv⟩, fun ei'' hv' => ?_⟩
    obtain ⟨haccepted, rfl⟩ := validate_pass hok hv'
    exact haccepted.safe

/-- A file with one program header and some sections, the last of which is their string table. -/
def tiny (sections : List ElfSection) (contents : List UInt8) : List UInt8 :=
  ElfHeader.encode {
    e_magic := ELF_MAGIC, e_phoff := 64, e_shoff := 120, e_phentsize := 56, e_phnum := 1
    e_shentsize := 64, e_shnum := sections.length, e_shstrndx := sections.length - 1 } ++
  ElfProgram.encode {} ++ sections.flatMap ElfSection.encode ++ contents

/-- A symbol table with one symbol and its string table, right behind the headers. -/
def tinyFile : ElfInfo :=
  ofFile (tiny
      [{}, { sh_name := 1, sh_type := ELF_SHT_SYMTAB, sh_offset := 312, sh_size := 24, sh_link := 2 },
        { sh_type := ELF_SHT_STRTAB, sh_offset := 336, sh_size := 9 }]
      (List.replicate 24 0 ++ [0] ++ bytes ".symtab" ++ [0]))
    (by decide +kernel)

theorem validate_safe_iff_tiny :
    ((∃ r, tinyFile.validate = .ok r) ∧
      ∀ ei', tinyFile.validate = .ok (.pass, ei') → ei'.Safe) ↔
      (tinyFile.HeaderOk → tinyFile.TablesFit → tinyFile.TableFound → tinyFile.TableReadable) :=
  validate_safe_iff tinyFile rfl

example : tinyFile.validate.map Prod.fst = .ok .pass := by decide +kernel

/-- A string table that should be behind the end of the file. -/
def farFile : ElfInfo :=
  ofFile (tiny [{}, { sh_type := ELF_SHT_STRTAB, sh_offset := 4096, sh_size := 1 }] [])
    (by decide +kernel)

theorem validate_reads_outside : farFile.validate.map Prod.fst = .error .outside := by
  decide +kernel

end ElfInfo

end CProj.Mksymtab
