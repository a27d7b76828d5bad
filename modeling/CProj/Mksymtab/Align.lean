/-
  Aligning the symbol table (mkchickadeesymtab.cc).

  `place` is where a byte of the old file is in the new one; it holds the same value unless it
  belongs to a file offset in a header (`Shifted`).  So the contents of the sections, which do not
  overlap the headers, stay what they are, and a segment changes at most in the file offsets that
  it covers (`shiftSections_aligns`).
-/
import CProj.Mksymtab.Shift

namespace CProj.Mksymtab

open CProj.Libc (Memory memmove_apply memset_apply)
open CProj.BootDisk (littleEndian littleEndian_lt littleEndian_congr)

/-! ## The parts of a file -/

inductive Part where
  | header
  | programs
  | sections
  | contents (i : ℕ)
  deriving DecidableEq, Repr

namespace Image
variable (f : Image)

/-- The byte `x` belongs to a part of the file. -/
def In (x : ℕ) : Part → Prop
  | .header => x < 64
  | .programs => f.eh.e_phoff ≤ x ∧ x < f.eh.e_phoff + 56 * f.eh.e_phnum
  | .sections => f.eh.e_shoff ≤ x ∧ x < f.eh.e_shoff + 64 * f.eh.e_shnum
  | .contents i => i < f.eh.e_shnum ∧ (f.sh i).sh_type ≠ ELF_SHT_NOBITS ∧
      (f.sh i).sh_offset ≤ x ∧ x < (f.sh i).sh_offset + (f.sh i).sh_size

/-- The parts of the file do not overlap. -/
def Apart : Prop := ∀ x p q, f.In x p → f.In x q → p = q

/-- The byte `x` belongs to a file offset in a header. -/
def InOffset (x : ℕ) : Prop :=
  (0x28 ≤ x ∧ x < 0x28 + 8) ∨
  (∃ i < f.eh.e_phnum, f.eh.e_phoff + 56 * i + 0x08 ≤ x ∧ x < f.eh.e_phoff + 56 * i + 0x08 + 8) ∨
  ∃ i < f.eh.e_shnum, f.eh.e_shoff + 64 * i + 0x18 ≤ x ∧ x < f.eh.e_shoff + 64 * i + 0x18 + 8

/-- The segments lie within the file. -/
def SegmentsFit : Prop :=
  ∀ i < f.eh.e_phnum, (f.ph i).p_offset + (f.ph i).p_filesz ≤ f.size_

end Image

/-- The ELF header contains nothing of the other parts. -/
theorem Image.Apart.header_le {f : Image} (hapart : f.Apart) {p : Part} (hp : p ≠ .header) {x : ℕ}
    (hx : f.In x p) : 64 ≤ x := by
  by_contra hlt
  exact hp (hapart x .header p (Nat.lt_of_not_le hlt) hx).symm

/-- Where the byte `x` is after the shift. -/
def place (offset diff x : ℕ) : ℕ := if x < offset then x else x + diff

namespace ElfInfo
variable {ei ei' : ElfInfo} {fresh : Memory} {offset diff : ℕ}

/-! ## The headers -/

/-- The loops over the headers. -/
structure Edited (f : Image) (m : Memory) (offset diff : ℕ) : Prop where
  frame : ∀ x, ¬ f.InOffset x → m x = f.data_ x
  program : ∀ i < f.eh.e_phnum, littleEndian m (f.eh.e_phoff + 56 * i + 0x08) 8 =
    shiftOffset offset diff (f.ph i).p_offset
  section_ : ∀ i < f.eh.e_shnum, littleEndian m (f.eh.e_shoff + 64 * i + 0x18) 8 =
    shiftOffset offset diff (f.sh i).sh_offset
  header : ∀ x < 64, m x = f.data_ x

theorem entry_in {base w n i o x : ℕ} (hi : i < n) (how : o + 8 ≤ w)
    (hx : base + w * i + o ≤ x ∧ x < base + w * i + o + 8) : base ≤ x ∧ x < base + w * n := by
  have hentry := Rewritten.entry_le w hi
  omega

theorem editHeaders_spec (hd : ei.Designates) (hsafe : ei.Safe) (hapart : ei.Apart)
    {fuel fuel' : ℕ} {ei₁ ei₂ : ElfInfo}
    (h₁ : eachEntry ElfHeader.e_phnum (fun ei i => ei.shiftProgram offset diff i) fuel 0 ei = .ok ei₁)
    (h₂ : eachEntry ElfHeader.e_shnum (fun ei i => ei.shiftHeader offset diff i) fuel' 0 ei₁ =
      .ok ei₂) :
    ∃ m, ei₂ = ei.withData m ∧ Edited ei.toImage m offset diff ∧
      ∀ j < ei.eh.e_phnum, (ei.ph j).p_offset ≥ offset ∨
        ((ei.ph j).p_offset + (ei.ph j).p_filesz) % 2 ^ 64 ≤ offset := by
  have hprograms : ∀ x < 64, ¬ ei.In x .programs := fun x hx hin =>
    absurd hx (Nat.not_lt.2 (hapart.header_le (by decide) hin))
  have hsections : ∀ x < 64, ¬ ei.In x .sections := fun x hx hin =>
    absurd hx (Nat.not_lt.2 (hapart.header_le (by decide) hin))
  have hboth : ∀ x, ei.In x .programs → ¬ ei.In x .sections := fun x hp hs =>
    nomatch hapart x .programs .sections hp hs
  obtain ⟨m₁, rfl, hr₁, hspan⟩ := eachEntry_spec hd hsafe.header (by decide) hprograms
    (fun i m' ei' hi hr h => shiftProgram_spec hd hsafe.programs hprograms hi hr h)
    (Nat.zero_le _) (Rewritten.zero _ _ _ _ _) h₁
  have heh : (ei.withData m₁).eh = ei.eh := hr₁.header (by decide) le_rfl hprograms
  have hframe₁ : ∀ x, ¬ ei.In x .programs → m₁ x = ei.data_ x := fun x hx =>
    hr₁.frame x fun i hi hin => hx (entry_in hi (by decide) hin)
  have hsh : ∀ j < ei.eh.e_shnum, (ei.withData m₁).sh j = ei.sh j := by
    intro j hj
    rw [Image.sh, heh]
    refine elfSection_congr fun k hk => hframe₁ _ fun hp => hboth _ hp ?_
    constructor <;> omega
  have hd₁ : (ei.withData m₁).Designates := by
    refine ⟨hd.eh_, ?_, ?_⟩ <;> rw [heh]
    · exact hd.pht_
    · exact hd.sht_
  have hsections₁ : ∀ x < 64, ¬ ((ei.withData m₁).eh.e_shoff ≤ x ∧
      x < (ei.withData m₁).eh.e_shoff + 64 * (ei.withData m₁).eh.e_shnum) := by
    rw [heh]
    exact hsections
  have hfit₁ : (ei.withData m₁).eh.e_shoff + 64 * (ei.withData m₁).eh.e_shnum ≤
      (ei.withData m₁).size_ := by
    rw [heh]
    exact hsafe.sections
  obtain ⟨m₂, rfl, hr₂, -⟩ := eachEntry_spec hd₁ hsafe.header (by decide : 0x18 + 8 ≤ 64)
    hsections₁
    (fun i m' ei' hi hr h => by
      obtain ⟨m'', hei', hr'⟩ := shiftHeader_spec hd₁ hfit₁ hsections₁ hi hr h
      exact ⟨m'', hei', hr', trivial⟩)
    (Nat.zero_le _) (Rewritten.zero _ _ _ _ _) h₂
  rw [heh] at hr₂
  have hframe₂ : ∀ x, ¬ ei.In x .sections → m₂ x = m₁ x := fun x hx =>
    hr₂.frame x fun i hi hin => hx (entry_in hi (by decide) hin)
  refine ⟨m₂, rfl, ⟨fun x hx => ?_, fun i hi => ?_, fun i hi => ?_, fun x hx => ?_⟩,
    fun j hj => hspan j (Nat.zero_le j) hj⟩
  · rw [Image.InOffset, not_or, not_or] at hx
    have hx₂ : m₂ x = m₁ x := hr₂.frame x fun i hi hin => hx.2.2 ⟨i, hi, hin⟩
    exact hx₂.trans (hr₁.frame x fun i hi hin => hx.2.1 ⟨i, hi, hin⟩)
  · rw [← hr₁.field i hi]
    refine littleEndian_congr fun k hk => hframe₂ _ (hboth _ ?_)
    exact entry_in hi (by decide : 8 + 8 ≤ 56) ⟨Nat.le_add_right _ k, by omega⟩
  · have hfield := hr₂.field i hi
    rwa [hsh i hi] at hfield
  · exact (hframe₂ x (hsections x hx)).trans (hframe₁ x (hprograms x hx))

/-! ## The data is moved -/

theorem rebase_ok (hsize : 64 ≤ ei.size_) :
    ei.rebase = .ok { ei.setHeader.setTables ei.eh with symtab_ := none, nsymtab_ := 0 } := by
  have hheader : ei.setHeader.header = .ok ei.eh := header_ok rfl hsize
  rw [rebase, hheader]
  rfl

/-- The new buffer holds the old file, and the cached pointers are moved to it. -/
theorem grow_spec {capacity : ℕ} (hd : ei.Designates) (hok : ei.ok_ = true) (hsize : 64 ≤ ei.size_)
    (h : ei.grow fresh capacity = .ok ei') :
    ei'.size_ = ei.size_ ∧ (∀ x < ei.size_, ei'.data_ x = ei.data_ x) ∧
      ei'.Designates := by
  rw [grow] at h
  by_cases hmore : capacity > ei.capacity_
  · rw [if_pos hmore] at h
    dsimp only at h
    by_cases hfit : ei.size_ ≤ max capacity (ei.capacity_ + 32768) ∧
        max capacity (ei.capacity_ + 32768) < 2 ^ 63
    swap
    · rw [dif_neg hfit] at h
      cases h
    rw [dif_pos hfit, if_pos hok] at h
    obtain ⟨grown, hgrown⟩ : ∃ e : ElfInfo, e = { ei with
        data_ := fun i => if i < ei.capacity_ then ei.data_ i else fresh i
        buffer := ei.buffer + 1
        capacity_ := max capacity (ei.capacity_ + 32768)
        size_le := hfit.1
        capacity_lt := hfit.2 } := ⟨_, rfl⟩
    have hdata : ∀ x < ei.size_, grown.data_ x = ei.data_ x := by
      intro x hx
      rw [hgrown]
      exact if_pos (Nat.lt_of_lt_of_le hx ei.size_le)
    have hgsize : grown.size_ = ei.size_ := by rw [hgrown]
    rw [← hgrown, rebase_ok (hgsize ▸ hsize)] at h
    obtain rfl := Except.ok.inj h
    exact ⟨hgsize, hdata, rfl, rfl, rfl⟩
  · rw [if_neg hmore] at h
    obtain rfl := Except.ok.inj h
    exact ⟨rfl, fun _ _ => rfl, hd⟩

theorem place_of_lt {x : ℕ} (h : x < offset) : place offset diff x = x := if_pos h

theorem place_of_ge {x : ℕ} (h : offset ≤ x) : place offset diff x = x + diff :=
  if_neg (Nat.not_lt.2 h)

theorem moveData_spec (hd : ei.Designates) (hok : ei.ok_ = true) (hsize : 64 ≤ ei.size_)
    (hoffset : offset < ei.size_) (h64 : 64 ≤ offset)
    (h : ei.moveData fresh offset diff = .ok ei') :
    ei'.size_ = ei.size_ + diff ∧
      (∀ x < ei.size_, ei'.data_ (place offset diff x) = ei.data_ x) ∧ ei'.Designates := by
  rw [moveData, bind_eq_ok] at h
  obtain ⟨grown, hgrow, h⟩ := h
  obtain ⟨hgsize, hgdata, hgd⟩ := grow_spec hd hok hsize hgrow
  split_ifs at h with hfit
  obtain rfl := Except.ok.inj h
  dsimp only
  have hdata : ∀ x < ei.size_, Libc.memset (Libc.memmove grown.data_ (offset + diff) offset
      (grown.size_ - offset)) offset 0 diff (place offset diff x) = ei.data_ x := by
    intro x hx
    rw [memset_apply, memmove_apply, hgsize]
    by_cases hlt : x < offset
    · rw [place_of_lt hlt, if_neg (by omega), if_neg (by omega), hgdata x hx]
    · have hle := Nat.le_of_not_lt hlt
      rw [place_of_ge hle, if_neg (by omega), if_pos (by omega), ← hgdata x hx]
      congr 1
      omega
  have hheader : elfHeader (Libc.memset (Libc.memmove grown.data_ (offset + diff) offset
      (grown.size_ - offset)) offset 0 diff) 0 = grown.eh := elfHeader_congr fun x hx => by
    have hsame := hdata x (by omega)
    rwa [place_of_lt (by omega), ← hgdata x (by omega)] at hsame
  refine ⟨by rw [hgsize], hdata, hgd.eh_, ?_, ?_⟩
  · change grown.pht_ = some ⟨grown.buffer, (elfHeader _ 0).e_phoff⟩
    rw [hheader, hgd.pht_]
  · change grown.sht_ = some ⟨grown.buffer, (elfHeader _ 0).e_shoff⟩
    rw [hheader, hgd.sht_]

/-! ## The section header table -/

theorem moveTable_spec (hd : ei.Designates) (hsize : 64 ≤ ei.size_)
    (h : ei.moveTable offset diff = .ok ei') :
    ei'.size_ = ei.size_ ∧ (∀ x, ¬ (0x28 ≤ x ∧ x < 0x28 + 8) → ei'.data_ x = ei.data_ x) ∧
      ei'.eh.e_shoff = shiftOffset offset diff ei.eh.e_shoff ∧
      ei'.eh_ = some ⟨ei'.buffer, 0⟩ ∧ ei'.pht_ = some ⟨ei'.buffer, ei.eh.e_phoff⟩ ∧
      ei'.sht_ = some ⟨ei'.buffer, ei'.eh.e_shoff⟩ := by
  rw [moveTable, header_ok hd.eh_ hsize, ok_bind] at h
  by_cases hge : ei.eh.e_shoff ≥ offset
  · obtain ⟨v, hv⟩ : ∃ v, v = (ei.eh.e_shoff + diff) % 2 ^ 64 := ⟨_, rfl⟩
    have hlt : v < 2 ^ 64 := hv ▸ Nat.mod_lt _ (by decide)
    obtain ⟨m, hm⟩ : ∃ m, m = storeNumber ei.data_ (0 + 0x28) 8 v := ⟨_, rfl⟩
    have hassign : ei.assign ei.eh_ 0x28 v = .ok (ei.withData m) := by
      rw [hd.eh_, assign_ok (by omega), hm]
    have hheader : (ei.withData m).header = .ok (ei.withData m).eh := header_ok hd.eh_ hsize
    rw [if_pos hge, ← hv, hassign, ok_bind, hheader, ok_bind] at h
    obtain rfl := Except.ok.inj h
    have hframe : ∀ x, ¬ (0x28 ≤ x ∧ x < 0x28 + 8) → m x = ei.data_ x := fun x hx => by
      rw [hm]
      exact storeNumber_of_not hx
    have hshoff : (ei.withData m).eh.e_shoff = v := by
      change littleEndian m (0 + 0x28) 8 = v
      rw [hm, littleEndian_storeNumber]
      exact Nat.mod_eq_of_lt hlt
    refine ⟨rfl, hframe, ?_, hd.eh_, hd.pht_, rfl⟩
    rw [shiftOffset, if_pos hge, ← hv]
    exact hshoff
  · rw [if_neg hge] at h
    obtain rfl := Except.ok.inj h
    exact ⟨rfl, fun _ _ => rfl, (if_neg hge).symm, hd.eh_, hd.pht_, hd.sht_⟩

/-! ## The whole shift -/

/-- The image after the shift. -/
structure Shifted (f f' : Image) (offset diff : ℕ) : Prop where
  size : f'.size_ = f.size_ + diff
  moved : ∀ x < f.size_, ¬ f.InOffset x → f'.data_ (place offset diff x) = f.data_ x
  shoff : f'.eh.e_shoff = shiftOffset offset diff f.eh.e_shoff
  program : ∀ i < f.eh.e_phnum, littleEndian f'.data_ (f.eh.e_phoff + 56 * i + 0x08) 8 =
    shiftOffset offset diff (f.ph i).p_offset
  section_ : ∀ i < f.eh.e_shnum,
    littleEndian f'.data_ (place offset diff (f.eh.e_shoff + 64 * i + 0x18)) 8 =
    shiftOffset offset diff (f.sh i).sh_offset
  inFront : f.eh.e_phoff + 56 * f.eh.e_phnum < offset
  segment : ∀ i < f.eh.e_phnum, (f.ph i).p_offset ≥ offset ∨
    ((f.ph i).p_offset + (f.ph i).p_filesz) % 2 ^ 64 ≤ offset

theorem place_add {b k : ℕ} (h : offset ≤ b ∨ b + k < offset) :
    place offset diff (b + k) = place offset diff b + k := by
  rcases h with h | h
  · rw [place_of_ge h, place_of_ge (by omega)]
    omega
  · rw [place_of_lt h, place_of_lt (by omega)]

/-- A shift that returns has gone through its four steps. -/
theorem shiftSections_steps (hd : ei.Designates) (hsize : 64 ≤ ei.size_)
    (h : ei.shiftSections fresh offset diff = .ok ei') :
    offset < ei.size_ ∧ (ei.eh.e_phoff + ei.eh.e_phnum * 56) % 2 ^ 64 < offset ∧
    ∃ ei₁ ei₂ ei₃,
      eachEntry ElfHeader.e_phnum (fun ei i => ei.shiftProgram offset diff i)
        (ei.eh.e_phnum + 1) 0 ei = .ok ei₁ ∧
      eachEntry ElfHeader.e_shnum (fun ei i => ei.shiftHeader offset diff i)
        (ei.eh.e_shnum + 1) 0 ei₁ = .ok ei₂ ∧
      ei₂.moveData fresh offset diff = .ok ei₃ ∧ ei₃.moveTable offset diff = .ok ei' := by
  rw [shiftSections] at h
  by_cases hassert : offset < ei.size_ ∧ diff > 0
  swap
  · rw [if_pos hassert] at h
    cases h
  rw [if_neg (not_not.2 hassert), header_ok hd.eh_ hsize, ok_bind] at h
  by_cases hspan : (ei.eh.e_phoff + ei.eh.e_phnum * 56) % 2 ^ 64 ≥ offset
  · rw [if_pos hspan] at h
    cases h
  rw [if_neg hspan] at h
  obtain ⟨ei₁, h₁, h⟩ := bind_eq_ok.1 h
  obtain ⟨ei₂, h₂, h⟩ := bind_eq_ok.1 h
  obtain ⟨ei₃, h₃, h₄⟩ := bind_eq_ok.1 h
  exact ⟨hassert.1, Nat.lt_of_not_le hspan, ei₁, ei₂, ei₃, h₁, h₂, h₃, h₄⟩

theorem shiftSections_shifted (hd : ei.Designates) (hok : ei.ok_ = true) (hsafe : ei.Safe)
    (hapart : ei.Apart) (h64 : 64 ≤ offset)
    (htable : ¬ (ei.eh.e_shoff < offset ∧ offset < ei.eh.e_shoff + 64 * ei.eh.e_shnum))
    (h : ei.shiftSections fresh offset diff = .ok ei') :
    Shifted ei.toImage ei'.toImage offset diff ∧ ei'.eh_ = some ⟨ei'.buffer, 0⟩ ∧
      ei'.pht_ = some ⟨ei'.buffer, ei.eh.e_phoff⟩ ∧
      ei'.sht_ = some ⟨ei'.buffer, ei'.eh.e_shoff⟩ := by
  obtain ⟨hoffset, hspan, ei₁, ei₂, ei₃, h₁, h₂, h₃, h₄⟩ := shiftSections_steps hd hsafe.header h
  obtain ⟨m, rfl, hedit, hsegment⟩ := editHeaders_spec hd hsafe hapart h₁ h₂
  have heh : (ei.withData m).eh = ei.eh := elfHeader_congr hedit.header
  have hd₂ : (ei.withData m).Designates := by
    refine ⟨hd.eh_, ?_, ?_⟩ <;> rw [heh]
    · exact hd.pht_
    · exact hd.sht_
  obtain ⟨hsize₃, hdata₃, hd₃⟩ := moveData_spec hd₂ hok hsafe.header hoffset h64 h₃
  have hsize₃ : ei₃.size_ = ei.size_ + diff := hsize₃
  have hdata₃ : ∀ x < ei.size_, ei₃.data_ (place offset diff x) = m x := hdata₃
  have heh₃ : ei₃.eh = ei.eh := elfHeader_congr fun x hx => by
    have hsame := hdata₃ x (by have := hsafe.header; omega)
    rw [place_of_lt (by omega)] at hsame
    exact hsame.trans (hedit.header x hx)
  have hheader₃ : 64 ≤ ei₃.size_ := by
    have := hsafe.header
    omega
  obtain ⟨hsize, hframe, hshoff, heh', hpht', hsht'⟩ := moveTable_spec hd₃ hheader₃ h₄
  rw [heh₃] at hshoff hpht'
  have hfront : ei.eh.e_phoff + 56 * ei.eh.e_phnum < offset := by
    have := hsafe.programs
    have := ei.size_le
    have := ei.capacity_lt
    omega
  -- a byte that is not one of `e_shoff`
  have hmoved : ∀ x < ei.size_, ¬ (0x28 ≤ x ∧ x < 0x28 + 8) →
      ei'.data_ (place offset diff x) = m x := by
    intro x hx hne
    rw [← hdata₃ x hx]
    refine hframe _ ?_
    by_cases hlt : x < offset
    · rwa [place_of_lt hlt]
    · rw [place_of_ge (Nat.le_of_not_lt hlt)]
      omega
  refine ⟨⟨hsize.trans hsize₃, fun x hx hne => ?_, hshoff, fun i hi => ?_, fun i hi => ?_, hfront,
    hsegment⟩, heh', hpht', hsht'⟩
  · rw [hmoved x hx fun h => hne (.inl h)]
    exact hedit.frame x hne
  · rw [← hedit.program i hi]
    refine littleEndian_congr fun k hk => ?_
    have hin : ei.In (ei.eh.e_phoff + 56 * i + 0x08 + k) .programs :=
      entry_in hi (by decide : 8 + 8 ≤ 56) ⟨Nat.le_add_right _ k, by omega⟩
    have h64' := hapart.header_le (by decide) hin
    have hmove := hmoved _ (Nat.lt_of_lt_of_le hin.2 hsafe.programs) (by omega)
    rwa [place_of_lt (hin.2.trans hfront)] at hmove
  · rw [← hedit.section_ i hi]
    refine littleEndian_congr fun k hk => ?_
    have hin : ei.In (ei.eh.e_shoff + 64 * i + 0x18 + k) .sections :=
      entry_in hi (by decide : 0x18 + 8 ≤ 64) ⟨Nat.le_add_right _ k, by omega⟩
    have h64' := hapart.header_le (by decide) hin
    rw [← place_add (by omega)]
    exact hmoved _ (Nat.lt_of_lt_of_le hin.2 hsafe.sections) (by omega)

/-! ## The headers of the new image -/

theorem elfHeader_except {m m' : Memory}
    (h : ∀ x < 64, ¬ (0x28 ≤ x ∧ x < 0x28 + 8) → m' x = m x) :
    { elfHeader m' 0 with e_shoff := (elfHeader m 0).e_shoff } = elfHeader m 0 := by
  have hfield : ∀ o n, o + n ≤ 64 → o + n ≤ 0x28 ∨ 0x28 + 8 ≤ o →
      littleEndian m' (0 + o) n = littleEndian m (0 + o) n :=
    fun o n hle hout => littleEndian_congr fun k hk => h _ (by omega) (by omega)
  simp (disch := decide) only [elfHeader, hfield]

theorem elfProgram_except {m m' : Memory} {a b : ℕ}
    (h : ∀ k < 56, ¬ (0x08 ≤ k ∧ k < 0x08 + 8) → m' (b + k) = m (a + k)) :
    { elfProgram m' b with p_offset := (elfProgram m a).p_offset } = elfProgram m a := by
  have hfield : ∀ o n, o + n ≤ 56 → o + n ≤ 0x08 ∨ 0x08 + 8 ≤ o →
      littleEndian m' (b + o) n = littleEndian m (a + o) n := by
    intro o n hle hout
    refine littleEndian_congr fun k hk => ?_
    rw [Nat.add_assoc, Nat.add_assoc, h (o + k) (by omega) (by omega)]
  simp (disch := decide) only [elfProgram, hfield]

theorem elfSection_except {m m' : Memory} {a b : ℕ}
    (h : ∀ k < 64, ¬ (0x18 ≤ k ∧ k < 0x18 + 8) → m' (b + k) = m (a + k)) :
    { elfSection m' b with sh_offset := (elfSection m a).sh_offset } = elfSection m a := by
  have hfield : ∀ o n, o + n ≤ 64 → o + n ≤ 0x18 ∨ 0x18 + 8 ≤ o →
      littleEndian m' (b + o) n = littleEndian m (a + o) n := by
    intro o n hle hout
    refine littleEndian_congr fun k hk => ?_
    rw [Nat.add_assoc, Nat.add_assoc, h (o + k) (by omega) (by omega)]
  simp (disch := decide) only [elfSection, hfield]

namespace Shifted
variable {f f' : Image} (h : Shifted f f' offset diff) (hapart : f.Apart) (hsafe : f.Safe)

section
include hapart

theorem not_inOffset_header {x : ℕ} (hx : x < 64) (hne : ¬ (0x28 ≤ x ∧ x < 0x28 + 8)) :
    ¬ f.InOffset x := by
  rintro (hshoff | ⟨i, hi, hin⟩ | ⟨i, hi, hin⟩)
  · exact hne hshoff
  · exact nomatch hapart x .header .programs hx (entry_in hi (by decide) hin)
  · exact nomatch hapart x .header .sections hx (entry_in hi (by decide) hin)

theorem not_inOffset_program {i k : ℕ} (hi : i < f.eh.e_phnum) (hk : k < 56)
    (hne : ¬ (0x08 ≤ k ∧ k < 0x08 + 8)) : ¬ f.InOffset (f.eh.e_phoff + 56 * i + k) := by
  have hx : f.In (f.eh.e_phoff + 56 * i + k) .programs := by
    constructor <;> omega
  rintro (hshoff | ⟨j, hj, hin⟩ | ⟨j, hj, hin⟩)
  · exact nomatch hapart _ .header .programs (hshoff.2.trans (by decide)) hx
  · omega
  · exact nomatch hapart _ .programs .sections hx (entry_in hj (by decide) hin)

theorem not_inOffset_section {i k : ℕ} (hi : i < f.eh.e_shnum) (hk : k < 64)
    (hne : ¬ (0x18 ≤ k ∧ k < 0x18 + 8)) : ¬ f.InOffset (f.eh.e_shoff + 64 * i + k) := by
  have hx : f.In (f.eh.e_shoff + 64 * i + k) .sections := by
    constructor <;> omega
  rintro (hshoff | ⟨j, hj, hin⟩ | ⟨j, hj, hin⟩)
  · exact nomatch hapart _ .header .sections (hshoff.2.trans (by decide)) hx
  · exact nomatch hapart _ .programs .sections (entry_in hj (by decide) hin) hx
  · omega

theorem not_inOffset_contents {i x : ℕ} (hx : f.In x (.contents i)) : ¬ f.InOffset x := by
  rintro (hshoff | ⟨j, hj, hin⟩ | ⟨j, hj, hin⟩)
  · exact nomatch hapart x .header (.contents i) (hshoff.2.trans (by decide)) hx
  · exact nomatch hapart x .programs (.contents i) (entry_in hj (by decide) hin) hx
  · exact nomatch hapart x .sections (.contents i) (entry_in hj (by decide) hin) hx

end

theorem shiftOffset_eq {x : ℕ} (hx : x + diff < 2 ^ 64) :
    shiftOffset offset diff x = place offset diff x := by
  rw [shiftOffset, place, Nat.mod_eq_of_lt hx]
  split_ifs with h₁ h₂ h₂
  · exact absurd h₂ (Nat.not_lt.2 h₁)
  · rfl
  · rfl
  · exact absurd (Nat.le_of_not_lt h₂) h₁

include h hsafe

/-- The section header table is moved as a whole. -/
theorem place_section (hdiff : diff < 2 ^ 62) (hsize : f.size_ < 2 ^ 63)
    (htable : ¬ (f.eh.e_shoff < offset ∧ offset < f.eh.e_shoff + 64 * f.eh.e_shnum))
    {i k : ℕ} (hi : i < f.eh.e_shnum) (hk : k < 64) :
    place offset diff (f.eh.e_shoff + 64 * i + k) = f'.eh.e_shoff + 64 * i + k := by
  have hfit := hsafe.sections
  rw [h.shoff, shiftOffset_eq (by omega), Nat.add_assoc, place_add (by omega), Nat.add_assoc]

theorem section_offset (hdiff : diff < 2 ^ 62) (hsize : f.size_ < 2 ^ 63)
    (htable : ¬ (f.eh.e_shoff < offset ∧ offset < f.eh.e_shoff + 64 * f.eh.e_shnum))
    {i : ℕ} (hi : i < f.eh.e_shnum) :
    (f'.sh i).sh_offset = shiftOffset offset diff (f.sh i).sh_offset := by
  rw [← h.section_ i hi, h.place_section hsafe hdiff hsize htable hi (by decide)]
  rfl

omit hsafe in
/-- The bytes that a file offset points to go along with it. -/
theorem byte_moved {o k : ℕ} (hside : offset ≤ o ∨ o + k < offset) (hlt : o + diff < 2 ^ 64)
    (hfit : o + k < f.size_) : shiftOffset offset diff o + k < f'.size_ ∧
      (¬ f.InOffset (o + k) → f'.data_ (shiftOffset offset diff o + k) = f.data_ (o + k)) := by
  rw [shiftOffset_eq hlt, ← place_add hside, h.size]
  refine ⟨?_, h.moved _ hfit⟩
  unfold place
  split_ifs <;> omega

include hapart

theorem header (h64 : 64 ≤ offset) : { f'.eh with e_shoff := f.eh.e_shoff } = f.eh := by
  refine elfHeader_except fun x hx hne => ?_
  have hsize := hsafe.header
  have hmoved := h.moved x (by omega) (not_inOffset_header hapart hx hne)
  rwa [place_of_lt (by omega)] at hmoved

theorem phoff (h64 : 64 ≤ offset) : f'.eh.e_phoff = f.eh.e_phoff := by
  rw [← h.header hapart hsafe h64]

theorem program_eq (h64 : 64 ≤ offset) {i : ℕ} (hi : i < f.eh.e_phnum) :
    { f'.ph i with p_offset := (f.ph i).p_offset } = f.ph i := by
  rw [Image.ph, h.phoff hapart hsafe h64]
  refine elfProgram_except fun k hk hne => ?_
  have hfit := hsafe.programs
  have hfront := h.inFront
  have hmoved := h.moved _ (by omega) (not_inOffset_program hapart hi hk hne)
  rwa [place_of_lt (by omega)] at hmoved

theorem program_offset (h64 : 64 ≤ offset) {i : ℕ} (hi : i < f.eh.e_phnum) :
    (f'.ph i).p_offset = shiftOffset offset diff (f.ph i).p_offset := by
  rw [← h.program i hi, ← h.phoff hapart hsafe h64]
  rfl

theorem section_eq (hdiff : diff < 2 ^ 62) (hsize : f.size_ < 2 ^ 63)
    (htable : ¬ (f.eh.e_shoff < offset ∧ offset < f.eh.e_shoff + 64 * f.eh.e_shnum))
    {i : ℕ} (hi : i < f.eh.e_shnum) :
    { f'.sh i with sh_offset := (f.sh i).sh_offset } = f.sh i := by
  refine elfSection_except fun k hk hne => ?_
  have hfit := hsafe.sections
  rw [← h.place_section hsafe hdiff hsize htable hi hk]
  exact h.moved _ (by omega) (not_inOffset_section hapart hi hk hne)

end Shifted

/-! ## The symbol table -/

/-- What aligning the section `i` leaves of the file `f`. -/
structure Aligned (f : Image) (ei' : ElfInfo) (i : ℕ) : Prop where
  header : { ei'.eh with e_shoff := f.eh.e_shoff } = f.eh
  programs : ∀ j < f.eh.e_phnum, { ei'.ph j with p_offset := (f.ph j).p_offset } = f.ph j
  sections : ∀ j < f.eh.e_shnum, { ei'.sh j with sh_offset := (f.sh j).sh_offset } = f.sh j
  /-- the bytes of the sections that lie in the file -/
  contents : ∀ j < f.eh.e_shnum, (f.sh j).sh_type ≠ ELF_SHT_NOBITS →
    ∀ k < (f.sh j).sh_size, (f.sh j).sh_offset + k < f.size_ →
      (ei'.sh j).sh_offset + k < ei'.size_ ∧
        ei'.data_ ((ei'.sh j).sh_offset + k) = f.data_ ((f.sh j).sh_offset + k)
  /-- the segments, but for the file offsets in the headers that they cover -/
  segments : ∀ j < f.eh.e_phnum, ∀ k < (f.ph j).p_filesz,
    (ei'.ph j).p_offset + k < ei'.size_ ∧ (¬ f.InOffset ((f.ph j).p_offset + k) →
      ei'.data_ ((ei'.ph j).p_offset + k) = f.data_ ((f.ph j).p_offset + k))
  aligned : (ei'.sh i).sh_offset % PAGESIZE = 0
  designates : ei'.Designates

/-- **Aligning the symbol table** keeps the headers, but for the file offsets in them, and the
    contents of the sections and of the segments, but for the same file offsets. -/
theorem shiftSections_aligns {ei₀ : ElfInfo} {i : ℕ} (hok : ei₀.ok_ = false)
    (hv : ei₀.validate = .ok (.pass, ei)) (hsegments : ei.SegmentsFit) (hapart : ei.Apart)
    (hi : i < ei.eh.e_shnum) (htype : (ei.sh i).sh_type = ELF_SHT_SYMTAB)
    (hnonempty : (ei.sh i).sh_size ≠ 0) (hodd : (ei.sh i).sh_offset % PAGESIZE ≠ 0)
    (h : ei.shiftSections fresh (ei.sh i).sh_offset
      (PAGESIZE - (ei.sh i).sh_offset % PAGESIZE) = .ok ei') :
    Aligned ei.toImage ei' i := by
  obtain ⟨haccepted, hei⟩ := validate_pass hok hv
  have hsafe : ei.Safe := by
    rw [hei]
    exact haccepted.safe
  have hd : ei.Designates := by
    rw [hei]
    exact ⟨rfl, rfl, rfl⟩
  have hok' : ei.ok_ = true := by rw [hei]
  have hnobits : (ei.sh i).sh_type ≠ ELF_SHT_NOBITS := by
    rw [htype]
    decide
  obtain ⟨offset, hoffset⟩ : ∃ o, o = (ei.sh i).sh_offset := ⟨_, rfl⟩
  rw [← hoffset] at h hodd
  have hgap : ei.In offset (.contents i) := ⟨hi, hnobits, hoffset.ge, by omega⟩
  have h64 : 64 ≤ offset := hapart.header_le Part.noConfusion hgap
  have htable : ¬ (ei.eh.e_shoff < offset ∧ offset < ei.eh.e_shoff + 64 * ei.eh.e_shnum) :=
    fun hin => nomatch hapart offset .sections (.contents i) ⟨hin.1.le, hin.2⟩ hgap
  obtain ⟨hs, heh', hpht', hsht'⟩ := shiftSections_shifted hd hok' hsafe hapart h64 htable h
  have hsize : ei.size_ < 2 ^ 63 := Nat.lt_of_le_of_lt ei.size_le ei.capacity_lt
  have hpage : PAGESIZE = 4096 := rfl
  have hdiff : PAGESIZE - offset % PAGESIZE < 2 ^ 62 := by omega
  have hsection := fun j (hj : j < ei.eh.e_shnum) =>
    hs.section_offset hsafe hdiff hsize htable hj
  refine ⟨hs.header hapart hsafe h64, fun j hj => hs.program_eq hapart hsafe h64 hj,
    fun j hj => hs.section_eq hapart hsafe hdiff hsize htable hj, fun j hj hbits k hk hfit => ?_,
    fun j hj k hk => ?_, ?_, ⟨heh', ?_, hsht'⟩⟩
  · -- a section that contained the gap would overlap the symbol table
    have hin : ei.In ((ei.sh j).sh_offset + k) (.contents j) :=
      ⟨hj, hbits, Nat.le_add_right _ k, Nat.add_lt_add_left hk _⟩
    have hside : offset ≤ (ei.sh j).sh_offset ∨ (ei.sh j).sh_offset + k < offset := by
      by_contra hspan
      rw [not_or, not_le, not_lt] at hspan
      have hsame := hapart offset (.contents i) (.contents j) hgap
        ⟨hj, hbits, hspan.1.le, by omega⟩
      rw [← Part.contents.inj hsame, ← hoffset] at hspan
      exact absurd hspan.1 (lt_irrefl _)
    obtain ⟨hlt, hmoved⟩ := hs.byte_moved hside (by omega) hfit
    rw [hsection j hj]
    exact ⟨hlt, hmoved (Shifted.not_inOffset_contents hapart hin)⟩
  · have hfits := hsegments j hj
    have hside : offset ≤ (ei.ph j).p_offset ∨ (ei.ph j).p_offset + k < offset := by
      rcases hs.segment j hj with hge | hle
      · exact .inl hge
      · rw [Nat.mod_eq_of_lt (by omega)] at hle
        exact .inr (by omega)
    rw [hs.program_offset hapart hsafe h64 hj]
    exact hs.byte_moved hside (by omega) (by omega)
  · have hfits := hsafe.contents i hi (by rw [htype]; decide) hnobits
    rw [hsection i hi, ← hoffset, Shifted.shiftOffset_eq (by omega), place_of_ge le_rfl, hpage]
    rw [hpage] at hodd
    omega
  · rw [hs.phoff hapart hsafe h64]
    exact hpht'

/-! ## A segment that covers the header -/

/-- The headers at the start of a file, a segment that covers the first of them, and the section
    header string table behind them. -/
def coveredFront : List UInt8 :=
  ElfHeader.encode {
    e_magic := BootDisk.ELF_MAGIC, e_phoff := 64, e_shoff := 4119, e_phentsize := 56, e_phnum := 1
    e_shentsize := 64, e_shnum := 3, e_shstrndx := 2 } ++
  ElfProgram.encode { p_filesz := 64 } ++
  [0] ++ Libc.bytes ".symtab" ++ [0] ++ Libc.bytes ".strtab" ++ [0]

/-- The section headers at the end of the file, behind a `.symtab` with one symbol. -/
def coveredBack : List UInt8 :=
  ElfSection.encode {} ++
  ElfSection.encode {
    sh_name := 1, sh_type := ELF_SHT_SYMTAB, sh_offset := 4095, sh_size := 24, sh_link := 2 } ++
  ElfSection.encode { sh_name := 9, sh_type := ELF_SHT_STRTAB, sh_offset := 120, sh_size := 17 }

def covered : ElfInfo where
  data_ i := if i < 4119 then coveredFront.getD i 0 else coveredBack.getD (i - 4119) 0
  size_ := 4311
  buffer := 0
  capacity_ := 4311
  changed_ := false
  ok_ := false
  eh_ := none
  pht_ := none
  sht_ := none
  symtab_ := none
  nsymtab_ := 0
  size_le := le_rfl
  capacity_lt := by decide

theorem covered_pass : covered.validate.map Prod.fst = .ok .pass := by decide +kernel

/-- The state after `validate`. -/
def coveredOk : ElfInfo := { covered.opened with ok_ := true }

theorem covered_validate : covered.validate = .ok (.pass, coveredOk) := by
  obtain ⟨⟨r, ei'⟩, hv⟩ : ∃ p, covered.validate = .ok p := by
    cases hv : covered.validate with
    | ok p => exact ⟨p, rfl⟩
    | error e =>
      have := covered_pass
      rw [hv] at this
      cases this
  have hpass := covered_pass
  rw [hv] at hpass
  obtain rfl := Except.ok.inj hpass
  rw [hv, (validate_pass rfl hv).2]
  rfl

theorem covered_eh : coveredOk.eh = {
    e_magic := BootDisk.ELF_MAGIC, e_phoff := 64, e_shoff := 4119, e_phentsize := 56, e_phnum := 1
    e_shentsize := 64, e_shnum := 3, e_shstrndx := 2 } := by decide +kernel

theorem covered_ph : coveredOk.ph 0 = { p_filesz := 64 } := by decide +kernel

theorem covered_sh : coveredOk.sh 0 = {} ∧
    coveredOk.sh 1 = {
      sh_name := 1, sh_type := ELF_SHT_SYMTAB, sh_offset := 4095, sh_size := 24, sh_link := 2 } ∧
    coveredOk.sh 2 = {
      sh_name := 9, sh_type := ELF_SHT_STRTAB, sh_offset := 120, sh_size := 17 } := by
  decide +kernel

theorem covered_segments : coveredOk.SegmentsFit := by
  intro i hi
  rw [covered_eh] at hi
  obtain rfl : i = 0 := Nat.lt_one_iff.1 hi
  rw [covered_ph]
  decide

/-- The file offset in the header, which is in the segment. -/
theorem covered_shift :
    (coveredOk.shiftSections (fun _ => 0) 4095 1).map (fun ei' =>
      ei'.data_ ((ei'.ph 0).p_offset + 0x28)) = .ok 24 := by decide +kernel

/-- Where the parts of the file are. -/
theorem covered_in {x : ℕ} {p : Part} (h : coveredOk.In x p) :
    p = .header ∧ x < 64 ∨ p = .programs ∧ 64 ≤ x ∧ x < 120 ∨
      p = .contents 2 ∧ 120 ≤ x ∧ x < 137 ∨ p = .contents 1 ∧ 4095 ≤ x ∧ x < 4119 ∨
      p = .sections ∧ 4119 ≤ x := by
  obtain ⟨hnull, hsymtab, hstrtab⟩ := covered_sh
  cases p with
  | header => exact .inl ⟨rfl, h⟩
  | programs =>
    rw [Image.In, covered_eh] at h
    exact .inr (.inl ⟨rfl, h⟩)
  | sections =>
    rw [Image.In, covered_eh] at h
    exact .inr (.inr (.inr (.inr ⟨rfl, h.1⟩)))
  | contents i =>
    rw [Image.In, covered_eh] at h
    obtain ⟨hi, -, hx⟩ := h
    obtain rfl | rfl | rfl : i = 0 ∨ i = 1 ∨ i = 2 := by
      dsimp only at hi
      omega
    · rw [hnull] at hx
      exact absurd hx.2 (Nat.not_lt_zero x)
    · rw [hsymtab] at hx
      exact .inr (.inr (.inr (.inl ⟨rfl, hx⟩)))
    · rw [hstrtab] at hx
      exact .inr (.inr (.inl ⟨rfl, hx⟩))

theorem covered_apart : coveredOk.Apart := by
  intro x p q hp hq
  rcases covered_in hp with ⟨rfl, hx⟩ | ⟨rfl, hx⟩ | ⟨rfl, hx⟩ | ⟨rfl, hx⟩ | ⟨rfl, hx⟩ <;>
    rcases covered_in hq with ⟨rfl, hy⟩ | ⟨rfl, hy⟩ | ⟨rfl, hy⟩ | ⟨rfl, hy⟩ | ⟨rfl, hy⟩ <;>
    first | rfl | omega

theorem covered_returns : ∃ ei', coveredOk.shiftSections (fun _ => 0) (coveredOk.sh 1).sh_offset
      (PAGESIZE - (coveredOk.sh 1).sh_offset % PAGESIZE) = .ok ei' ∧
    ei'.data_ ((ei'.ph 0).p_offset + 0x28) = 24 := by
  have hshift := covered_shift
  rw [covered_sh.2.1]
  cases h : coveredOk.shiftSections (fun _ => 0) 4095 1 with
  | error e =>
    rw [h] at hshift
    cases hshift
  | ok ei' =>
    rw [h] at hshift
    exact ⟨ei', h, Except.ok.inj hshift⟩

theorem shiftSections_aligns_covered : ∃ ei',
    coveredOk.shiftSections (fun _ => 0) (coveredOk.sh 1).sh_offset
      (PAGESIZE - (coveredOk.sh 1).sh_offset % PAGESIZE) = .ok ei' ∧
    Aligned coveredOk.toImage ei' 1 := by
  obtain ⟨ei', h, -⟩ := covered_returns
  have hsymtab := covered_sh.2.1
  refine ⟨ei', h, shiftSections_aligns rfl covered_validate covered_segments covered_apart ?_ ?_ ?_
    ?_ h⟩
  · rw [covered_eh]
    decide
  · rw [hsymtab]
  · rw [hsymtab]
    decide
  · rw [hsymtab]
    decide

/-- The segment is not what it was: it covers `e_shoff`. -/
theorem shiftSections_changes_segment : covered.validate = .ok (.pass, coveredOk) ∧
    coveredOk.SegmentsFit ∧ coveredOk.Apart ∧ (coveredOk.sh 1).sh_type = ELF_SHT_SYMTAB ∧
    (coveredOk.sh 1).sh_size ≠ 0 ∧ (coveredOk.sh 1).sh_offset % PAGESIZE ≠ 0 ∧
    ∃ ei', coveredOk.shiftSections (fun _ => 0) (coveredOk.sh 1).sh_offset
        (PAGESIZE - (coveredOk.sh 1).sh_offset % PAGESIZE) = .ok ei' ∧
      ∃ k < (coveredOk.ph 0).p_filesz, ei'.data_ ((ei'.ph 0).p_offset + k) ≠
        coveredOk.data_ ((coveredOk.ph 0).p_offset + k) := by
  have hsymtab := covered_sh.2.1
  refine ⟨covered_validate, covered_segments, covered_apart, ?_, ?_, ?_, ?_⟩
  · rw [hsymtab]
  · rw [hsymtab]
    decide
  · rw [hsymtab]
    decide
  · obtain ⟨ei', h, hbyte⟩ := covered_returns
    refine ⟨ei', h, 0x28, ?_, ?_⟩
    · rw [covered_ph]
      decide
    · rw [hbyte, covered_ph]
      decide +kernel

end ElfInfo

end CProj.Mksymtab
