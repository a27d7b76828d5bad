/-
  `elf_info::grow` and `elf_info::shift_sections` (mkchickadeesymtab.cc).

  The headers are edited where they are, one field of one entry at a time.  A table whose first
  entries are edited differs from the old one in that field only (`Rewritten`), and a loop over the
  entries that ends has edited all of them (`eachEntry_spec`).
-/
import CProj.Mksymtab.Validate

namespace CProj.Mksymtab

open CProj.Libc (Memory bytes memmove memset memmove_apply memset_apply)
open CProj.BootDisk (littleEndian littleEndian_lt littleEndian_congr)

def PAGESIZE : ℕ := 0x1000

/-- Store a number of `n` bytes. -/
def storeNumber (m : Memory) (a n v : ℕ) : Memory := fun x =>
  if a ≤ x ∧ x < a + n then UInt8.ofNat (v / 256 ^ (x - a)) else m x

/-- A number in a message. -/
def decimal (n : ℕ) : List UInt8 := bytes (toString n)

namespace ElfInfo
variable (ei : ElfInfo)

def withData (m : Memory) : ElfInfo := { ei with data_ := m }

/-- Assign to the field of 8 bytes that is `o` behind a pointer. -/
def assign (p : Option Ptr) (o v : ℕ) : Except Stop ElfInfo := do
  return ei.withData (storeNumber ei.data_ (← ei.index p o 8) 8 v)

/-- The pointers into the new buffer. -/
def rebase : Except Stop ElfInfo := do
  let ei := ei.setHeader
  let ei := ei.setTables (← ei.header)
  return { ei with symtab_ := none, nsymtab_ := 0 }

/-- `grow`; `fresh` is what is in the new buffer behind the old contents. -/
def grow (fresh : Memory) (capacity : ℕ) : Except Stop ElfInfo :=
  if capacity > ei.capacity_ then
    let capacity := max capacity (ei.capacity_ + 32768)
    if h : ei.size_ ≤ capacity ∧ capacity < 2 ^ 63 then
      let ei' := { ei with
        data_ := fun i => if i < ei.capacity_ then ei.data_ i else fresh i
        buffer := ei.buffer + 1
        capacity_ := capacity
        size_le := h.1
        capacity_lt := h.2 }
      if ei.ok_ then ei'.rebase else .ok ei'
    else .error .badAlloc
  else .ok ei

/-- The message about something that lies on both sides of the gap. -/
def spans (what : List UInt8) (kind : String) (offset diff start size : ℕ) : Stop :=
  .exit (bytes ": " ++ what ++ bytes " spans alignment boundary\n  shifting " ++ decimal offset ++
    bytes "+" ++ decimal diff ++ bytes (", " ++ kind ++ " ") ++ decimal start ++ bytes "+" ++
    decimal size ++ bytes "\n")

/-- The body of the loop over the program headers. -/
def shiftProgram (offset diff i : ℕ) : Except Stop ElfInfo := do
  let ph ← ei.program i
  if ph.p_offset ≥ offset then
    ei.assign ei.pht_ (56 * i + 0x08) ((ph.p_offset + diff) % 2 ^ 64)
  else if (ph.p_offset + ph.p_filesz) % 2 ^ 64 > offset then
    throw (spans (bytes "program " ++ decimal i) "program" offset diff ph.p_offset ph.p_filesz)
  else return ei

/-- `section_display_name` -/
def sectionDisplayName (i : ℕ) : Except Stop (List UInt8) := do
  let eh ← ei.header
  if ¬ i < eh.e_shnum then throw .assertion
  let shstrtab ← ei.sectionAt eh.e_shstrndx
  let name := shstrtab.sh_offset + (← ei.sectionAt i).sh_name
  if (← ei.byte name) ≠ 0 then ei.string name else return bytes "[unnamed]"

/-- The body of the loop over the section headers. -/
def shiftHeader (offset diff i : ℕ) : Except Stop ElfInfo := do
  let sh ← ei.sectionAt i
  if sh.sh_offset ≥ offset then
    ei.assign ei.sht_ (64 * i + 0x18) ((sh.sh_offset + diff) % 2 ^ 64)
  else if sh.sh_type ≠ ELF_SHT_NULL ∧ sh.sh_type ≠ ELF_SHT_NOBITS ∧
      (sh.sh_offset + sh.sh_size) % 2 ^ 64 > offset then
    let name ← ei.sectionDisplayName i
    throw (spans (bytes "section <" ++ name ++ bytes ">") "section" offset diff sh.sh_offset
      sh.sh_size)
  else return ei

/-- `for (unsigned i = 0; i != eh_->count; ++i)` from `i` on. -/
def eachEntry (count : ElfHeader → ℕ) (body : ElfInfo → ℕ → Except Stop ElfInfo) :
    ℕ → ℕ → ElfInfo → Except Stop ElfInfo
  | 0, _, _ => .error .running
  | fuel + 1, i, ei => do
    if i = count (← ei.header) then return ei
    else eachEntry count body fuel (i + 1) (← body ei i)

/-- Open a gap of `diff` bytes at `offset`. -/
def moveData (fresh : Memory) (offset diff : ℕ) : Except Stop ElfInfo := do
  let ei ← ei.grow fresh (ei.size_ + diff)
  if h : ei.size_ + diff ≤ ei.capacity_ then
    let data := memmove ei.data_ (offset + diff) offset (ei.size_ - offset)
    return { ei with
      data_ := memset data offset 0 diff
      size_ := ei.size_ + diff
      changed_ := true
      size_le := h }
  else throw .outside

/-- The update of `e_shoff`. -/
def moveTable (offset diff : ℕ) : Except Stop ElfInfo := do
  let eh ← ei.header
  if eh.e_shoff ≥ offset then
    let ei ← ei.assign ei.eh_ 0x28 ((eh.e_shoff + diff) % 2 ^ 64)
    let eh ← ei.header
    return { ei with sht_ := some ⟨ei.buffer, eh.e_shoff⟩ }
  else return ei

def shiftSections (fresh : Memory) (offset diff : ℕ) : Except Stop ElfInfo := do
  if ¬ (offset < ei.size_ ∧ diff > 0) then throw .assertion
  let eh ← ei.header
  if (eh.e_phoff + eh.e_phnum * 56) % 2 ^ 64 ≥ offset then
    throw (.exit (bytes ": program header spans alignment boundary\n"))
  let ei ← eachEntry ElfHeader.e_phnum (fun ei i => ei.shiftProgram offset diff i)
    (eh.e_phnum + 1) 0 ei
  let ei ← eachEntry ElfHeader.e_shnum (fun ei i => ei.shiftHeader offset diff i)
    (eh.e_shnum + 1) 0 ei
  let ei ← ei.moveData fresh offset diff
  ei.moveTable offset diff

end ElfInfo

/-! ## Numbers that are stored -/

theorem storeNumber_of_not {m : Memory} {a n v x : ℕ} (h : ¬ (a ≤ x ∧ x < a + n)) :
    storeNumber m a n v x = m x := if_neg h

theorem littleEndian_storeNumber (m : Memory) (a n v : ℕ) :
    littleEndian (storeNumber m a n v) a n = v % 256 ^ n := by
  have hdigits : ∀ k < n, (storeNumber m a n v (a + k)).toNat = v / 256 ^ k % 256 := by
    intro k hk
    rw [storeNumber, if_pos ⟨Nat.le_add_right a k, Nat.add_lt_add_left hk a⟩,
      Nat.add_sub_cancel_left]
    rfl
  have hsum : ∀ n, Nat.ofDigits 256 ((List.range n).map fun k => v / 256 ^ k % 256) =
      v % 256 ^ n := by
    intro n
    induction n with
    | zero => rw [pow_zero, Nat.mod_one]; rfl
    | succ n ih =>
      rw [List.range_succ, List.map_append, Nat.ofDigits_append, ih, List.length_map,
        List.length_range, Nat.mod_pow_succ]
      rfl
  rw [littleEndian, ← hsum n]
  exact congrArg _ (List.map_congr_left fun k hk => hdigits k (List.mem_range.1 hk))

/-- In a table of entries of `w` bytes at `base`, the fields of 8 bytes at `o` of the first `n`
    entries have become `g`, and nothing else has changed. -/
structure Rewritten (m m' : Memory) (base w o n : ℕ) (g : ℕ → ℕ) : Prop where
  frame : ∀ x, (∀ i < n, ¬ (base + w * i + o ≤ x ∧ x < base + w * i + o + 8)) → m' x = m x
  field : ∀ i < n, littleEndian m' (base + w * i + o) 8 = g i

namespace Rewritten
variable {m m' : Memory} {base w o n v : ℕ} {g : ℕ → ℕ}

theorem zero (m : Memory) (base w o : ℕ) (g : ℕ → ℕ) : Rewritten m m base w o 0 g :=
  ⟨fun _ _ => rfl, fun i hi => absurd hi (Nat.not_lt_zero i)⟩

/-- The entries do not overlap. -/
theorem entry_le (w : ℕ) {i j : ℕ} (h : i < j) : w * i + w ≤ w * j := by
  rw [← Nat.mul_succ]
  exact Nat.mul_le_mul_left w h

/-- What lies in an entry that has not been reached is still there. -/
theorem same (h : Rewritten m m' base w o n g) (how : o + 8 ≤ w) {i x : ℕ} (hi : n ≤ i)
    (hx : base + w * i ≤ x) : m' x = m x := by
  refine h.frame x fun k hk hin => ?_
  have hentry := entry_le w (Nat.lt_of_lt_of_le hk hi)
  omega

theorem keep (h : Rewritten m m' base w o n g) (how : o + 8 ≤ w)
    (hg : littleEndian m (base + w * n + o) 8 = g n) : Rewritten m m' base w o (n + 1) g := by
  refine ⟨fun x hx => h.frame x fun i hi => hx i (Nat.lt_succ_of_lt hi), fun i hi => ?_⟩
  rcases Nat.lt_succ_iff_lt_or_eq.1 hi with hi | rfl
  · exact h.field i hi
  · rw [← hg]
    exact littleEndian_congr fun k _ => h.same how le_rfl (by omega)

theorem store (h : Rewritten m m' base w o n g) (how : o + 8 ≤ w) (hv : v < 2 ^ 64)
    (hg : v = g n) : Rewritten m (storeNumber m' (base + w * n + o) 8 v) base w o (n + 1) g := by
  refine ⟨fun x hx => ?_, fun i hi => ?_⟩
  · rw [storeNumber_of_not (hx n (Nat.lt_succ_self n))]
    exact h.frame x fun i hi => hx i (Nat.lt_succ_of_lt hi)
  rcases Nat.lt_succ_iff_lt_or_eq.1 hi with hi | rfl
  · rw [← h.field i hi]
    have hentry := entry_le w hi
    exact littleEndian_congr fun k hk => storeNumber_of_not (by omega)
  · rw [littleEndian_storeNumber, ← hg]
    exact Nat.mod_eq_of_lt hv

end Rewritten

/-! ## The headers are edited -/

/-- Where a file offset points to after the shift. -/
def shiftOffset (offset diff x : ℕ) : ℕ := if x ≥ offset then (x + diff) % 2 ^ 64 else x

theorem elfHeader_congr {m m' : Memory} (h : ∀ x < 64, m' x = m x) :
    elfHeader m' 0 = elfHeader m 0 := by
  have hfield : ∀ a n, a + n ≤ 64 → littleEndian m' (0 + a) n = littleEndian m (0 + a) n :=
    fun a n hle => littleEndian_congr fun k hk => h _ (by omega)
  simp (disch := decide) only [elfHeader, hfield]

theorem elfProgram_congr {m m' : Memory} {a b : ℕ} (h : ∀ k < 56, m' (b + k) = m (a + k)) :
    elfProgram m' b = elfProgram m a := by
  have hfield : ∀ o n, o + n ≤ 56 → littleEndian m' (b + o) n = littleEndian m (a + o) n := by
    intro o n hle
    refine littleEndian_congr fun k hk => ?_
    rw [Nat.add_assoc, Nat.add_assoc, h (o + k) (by omega)]
  simp (disch := decide) only [elfProgram, hfield]

theorem elfSection_congr {m m' : Memory} {a b : ℕ} (h : ∀ k < 64, m' (b + k) = m (a + k)) :
    elfSection m' b = elfSection m a := by
  have hfield : ∀ o n, o + n ≤ 64 → littleEndian m' (b + o) n = littleEndian m (a + o) n := by
    intro o n hle
    refine littleEndian_congr fun k hk => ?_
    rw [Nat.add_assoc, Nat.add_assoc, h (o + k) (by omega)]
  simp (disch := decide) only [elfSection, hfield]

/-- The header is as it was, as long as the table does not overlap it. -/
theorem Rewritten.header {ei : ElfInfo} {m' : Memory} {base w o i n : ℕ} {g : ℕ → ℕ}
    (hr : Rewritten ei.data_ m' base w o i g) (how : o + 8 ≤ w) (hi : i ≤ n)
    (hapart : ∀ x < 64, ¬ (base ≤ x ∧ x < base + w * n)) : (ei.withData m').eh = ei.eh := by
  refine elfHeader_congr fun x hx => hr.frame x fun j hj hin => ?_
  have hentry := Rewritten.entry_le w (Nat.lt_of_lt_of_le hj hi)
  exact hapart x hx (by omega)

namespace ElfInfo
variable {ei ei' : ElfInfo} {m' : Memory} {offset diff fuel i : ℕ}

theorem assign_ok {o p v : ℕ} (h : p + o + 8 ≤ ei.size_) :
    ei.assign (some ⟨ei.buffer, p⟩) o v =
      .ok (ei.withData (storeNumber ei.data_ (p + o) 8 v)) := by
  rw [assign, index_ok h]
  rfl

/-- What a round that moves an entry leaves of the table. -/
theorem rewritten_assign {base w o n x : ℕ} {g : ℕ → ℕ}
    (hr : Rewritten ei.data_ m' base w o i g) (how : o + 8 ≤ w) (hi : i < n)
    (hfit : base + w * n ≤ ei.size_) {p : Option Ptr} (hp : p = some ⟨ei.buffer, base⟩)
    (hx : x ≥ offset) (hg : g i = shiftOffset offset diff x)
    (h : (ei.withData m').assign p (w * i + o) ((x + diff) % 2 ^ 64) = .ok ei') :
    ∃ m'', ei' = ei.withData m'' ∧ Rewritten ei.data_ m'' base w o (i + 1) g := by
  obtain ⟨v, hv⟩ : ∃ v, v = (x + diff) % 2 ^ 64 := ⟨_, rfl⟩
  have hlt : v < 2 ^ 64 := hv ▸ Nat.mod_lt _ (by decide)
  have hroom : base + (w * i + o) + 8 ≤ (ei.withData m').size_ := by
    have hentry := Rewritten.entry_le w hi
    change _ ≤ ei.size_
    omega
  have hp' : p = some ⟨(ei.withData m').buffer, base⟩ := hp
  rw [← hv, hp', assign_ok hroom] at h
  obtain rfl := Except.ok.inj h
  rw [← Nat.add_assoc]
  exact ⟨_, rfl, hr.store how hlt (by rw [hv, hg, shiftOffset, if_pos hx])⟩

section
variable (hd : ei.Designates) (h64 : 64 ≤ ei.size_)
include hd h64

/-- **Loops over a table**: what each round does to its entry, all of them do to the table. -/
theorem eachEntry_spec {count : ElfHeader → ℕ} {body : ElfInfo → ℕ → Except Stop ElfInfo}
    {base w o : ℕ} {g : ℕ → ℕ} {P : ℕ → Prop} (how : o + 8 ≤ w)
    (hapart : ∀ x < 64, ¬ (base ≤ x ∧ x < base + w * count ei.eh))
    (hbody : ∀ i m' ei', i < count ei.eh → Rewritten ei.data_ m' base w o i g →
      body (ei.withData m') i = .ok ei' →
        ∃ m'', ei' = ei.withData m'' ∧ Rewritten ei.data_ m'' base w o (i + 1) g ∧ P i)
    (hi : i ≤ count ei.eh) (hr : Rewritten ei.data_ m' base w o i g)
    (h : eachEntry count body fuel i (ei.withData m') = .ok ei') :
    ∃ m'', ei' = ei.withData m'' ∧ Rewritten ei.data_ m'' base w o (count ei.eh) g ∧
      ∀ j, i ≤ j → j < count ei.eh → P j := by
  induction fuel generalizing i m' with
  | zero => cases h
  | succ fuel ih =>
    have heh : (ei.withData m').eh = ei.eh := hr.header how hi hapart
    have hheader : (ei.withData m').header = .ok (ei.withData m').eh := header_ok hd.eh_ h64
    rw [eachEntry, hheader, heh, ok_bind] at h
    by_cases hend : i = count ei.eh
    · rw [if_pos hend] at h
      obtain rfl := Except.ok.inj h
      rw [hend] at hr
      exact ⟨m', rfl, hr, fun j hij hj => absurd hij (Nat.not_le.2 (hend ▸ hj))⟩
    have hlt : i < count ei.eh := Nat.lt_of_le_of_ne hi hend
    rw [if_neg hend, bind_eq_ok] at h
    obtain ⟨ei₁, hone, hrest⟩ := h
    obtain ⟨m₁, rfl, hr₁, hP⟩ := hbody i m' ei₁ hlt hr hone
    obtain ⟨m'', hei', hr'', hall⟩ := ih hlt hr₁ hrest
    refine ⟨m'', hei', hr'', fun j hij hj => ?_⟩
    rcases Nat.eq_or_lt_of_le hij with rfl | hij
    · exact hP
    · exact hall j hij hj

end

section
variable (hd : ei.Designates)
include hd

/-- What a round leaves of the program headers. -/
theorem shiftProgram_spec (hfit : ei.eh.e_phoff + 56 * ei.eh.e_phnum ≤ ei.size_)
    (hapart : ∀ x < 64, ¬ (ei.eh.e_phoff ≤ x ∧ x < ei.eh.e_phoff + 56 * ei.eh.e_phnum))
    (hi : i < ei.eh.e_phnum)
    (hr : Rewritten ei.data_ m' ei.eh.e_phoff 56 0x08 i
      fun j => shiftOffset offset diff (ei.ph j).p_offset)
    (h : (ei.withData m').shiftProgram offset diff i = .ok ei') :
    ∃ m'', ei' = ei.withData m'' ∧ Rewritten ei.data_ m'' ei.eh.e_phoff 56 0x08 (i + 1)
        (fun j => shiftOffset offset diff (ei.ph j).p_offset) ∧
      ((ei.ph i).p_offset ≥ offset ∨
        ((ei.ph i).p_offset + (ei.ph i).p_filesz) % 2 ^ 64 ≤ offset) := by
  have heh : (ei.withData m').eh = ei.eh := hr.header (by decide) hi.le hapart
  have hprogram : (ei.withData m').program i = .ok ((ei.withData m').ph i) :=
    program_ok (by rw [heh]; exact hd.pht_) (by rwa [heh]) (by rwa [heh])
  have hph : (ei.withData m').ph i = ei.ph i := by
    rw [Image.ph, heh]
    exact elfProgram_congr fun k _ => hr.same (by decide) le_rfl (Nat.le_add_right _ k)
  rw [shiftProgram, hprogram, hph, ok_bind] at h
  split_ifs at h with hge hspans
  · obtain ⟨m'', hei', hr'⟩ := rewritten_assign hr (by decide) hi hfit hd.pht_ hge rfl h
    exact ⟨m'', hei', hr', .inl hge⟩
  · obtain rfl := Except.ok.inj h
    exact ⟨m', rfl, hr.keep (by decide) (if_neg hge).symm, .inr (Nat.le_of_not_lt hspans)⟩

/-- What a round leaves of the section headers. -/
theorem shiftHeader_spec (hfit : ei.eh.e_shoff + 64 * ei.eh.e_shnum ≤ ei.size_)
    (hapart : ∀ x < 64, ¬ (ei.eh.e_shoff ≤ x ∧ x < ei.eh.e_shoff + 64 * ei.eh.e_shnum))
    (hi : i < ei.eh.e_shnum)
    (hr : Rewritten ei.data_ m' ei.eh.e_shoff 64 0x18 i
      fun j => shiftOffset offset diff (ei.sh j).sh_offset)
    (h : (ei.withData m').shiftHeader offset diff i = .ok ei') :
    ∃ m'', ei' = ei.withData m'' ∧ Rewritten ei.data_ m'' ei.eh.e_shoff 64 0x18 (i + 1)
        fun j => shiftOffset offset diff (ei.sh j).sh_offset := by
  have heh : (ei.withData m').eh = ei.eh := hr.header (by decide) hi.le hapart
  have hsection : (ei.withData m').sectionAt i = .ok ((ei.withData m').sh i) :=
    sectionAt_ok (by rw [heh]; exact hd.sht_) (by rwa [heh]) (by rwa [heh])
  have hsh : (ei.withData m').sh i = ei.sh i := by
    rw [Image.sh, heh]
    exact elfSection_congr fun k _ => hr.same (by decide) le_rfl (Nat.le_add_right _ k)
  rw [shiftHeader, hsection, hsh, ok_bind] at h
  split_ifs at h with hge hspans
  · exact rewritten_assign hr (by decide) hi hfit hd.sht_ hge rfl h
  · rw [bind_eq_ok] at h
    obtain ⟨name, -, h⟩ := h
    cases h
  · obtain rfl := Except.ok.inj h
    exact ⟨m', rfl, hr.keep (by decide) (if_neg hge).symm⟩

end

end ElfInfo

end CProj.Mksymtab
