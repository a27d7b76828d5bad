/-
  Loading the segments of a program.

  `process_setup` copies a segment through the physical address of its first byte, so the bytes end
  up where they belong if the segment's frames follow each other (`load_one`).
-/
import CProj.WeensyOS.Segments

namespace CProj.WeensyOS

variable {L : Layout} {m : Mem} {s t : State} {r v p a dst n : ℕ} {b : ℕ → UInt8}

/-! ## Bytes -/

/-- The bytes of a word. -/
theorem wordOf_byte {g : ℕ → ℕ} (hg : ∀ k, g k < 256) {k : ℕ} (hk : k < 8) :
    wordOf g / 256 ^ k % 256 = g k := by
  have h0 := hg 0
  have h1 := hg 1
  have h2 := hg 2
  have h3 := hg 3
  have h4 := hg 4
  have h5 := hg 5
  have h6 := hg 6
  have h7 := hg 7
  simp only [wordOf, show List.range 8 = [0, 1, 2, 3, 4, 5, 6, 7] from rfl, List.foldr_cons,
    List.foldr_nil]
  rcases (by omega : k = 0 ∨ k = 1 ∨ k = 2 ∨ k = 3 ∨ k = 4 ∨ k = 5 ∨ k = 6 ∨ k = 7) with
    rfl | rfl | rfl | rfl | rfl | rfl | rfl | rfl <;> omega

theorem byte_lt : m.byte a < 256 := Nat.mod_lt _ (by decide)

/-- **The bytes after a store.** -/
theorem byte_write : (m.write dst n b).byte a =
    if dst ≤ a ∧ a < dst + n then (b (a - dst)).toNat else m.byte a := by
  have hbase : a / PAGESIZE * PAGESIZE + a % PAGESIZE / 8 * 8 = a - a % 8 := by
    rw [PAGESIZE]
    omega
  have hidx : a % PAGESIZE / 8 < 512 := by
    rw [PAGESIZE]
    omega
  have hsum : a - a % 8 + a % 8 = a := Nat.sub_add_cancel (Nat.mod_le a 8)
  have hk : a % 8 < 8 := Nat.mod_lt _ (by decide)
  rw [Mem.byte, Mem.write]
  simp only [hbase]
  by_cases htouch : a % PAGESIZE / 8 < 512 ∧ dst < a - a % 8 + 8 ∧ a - a % 8 < dst + n
  · rw [if_pos htouch, wordOf_byte (fun k => ?_) hk, hsum]
    split_ifs
    · exact UInt8.toNat_lt _
    · exact byte_lt
  · rw [if_neg htouch, if_neg]
    · rfl
    · omega

/-- The pages outside the range of a store. -/
theorem write_page (hn : 0 < n) (hp : ∀ a, dst ≤ a → a < dst + n → a / 4096 ≠ p) :
    m.write dst n b p = m p := by
  funext i
  rw [Mem.write]
  refine if_neg ?_
  rintro ⟨hi, h1, h2⟩
  simp only [PAGESIZE] at h1 h2
  exact hp (max dst (p * 4096 + i * 8)) (le_max_left _ _) (by omega) (by omega)

theorem byte_page {m' : Mem} (h : m' (a / 4096) = m (a / 4096)) : m'.byte a = m.byte a := by
  rw [Mem.byte, Mem.byte, PAGESIZE, h]

theorem write_ok (h : dst + n ≤ MEMSIZE_PHYSICAL) :
    ∃ t', t.write dst n b = .ok t' ∧ t' = { t with mem := t'.mem } ∧ (∀ a, t'.mem.byte a =
      if dst ≤ a ∧ a < dst + n then (b (a - dst)).toNat else t.mem.byte a) ∧
      ∀ p, (∀ a, dst ≤ a → a < dst + n → a / 4096 ≠ p) → t'.mem p = t.mem p := by
  rw [State.write]
  by_cases h0 : n = 0
  · refine ⟨t, if_pos h0, rfl, fun a => ?_, fun p _ => rfl⟩
    rw [if_neg (by omega)]
  · exact ⟨_, by rw [if_neg h0, if_pos h], rfl, fun a => byte_write,
      fun p hp => write_page (by omega) hp⟩

/-! ## One segment -/

/-- The pages of the segment are mapped to the frames from `f` on, none of which is a table. -/
structure Run (m : Mem) (r : ℕ) (ph : ElfProgram) (f : ℕ) : Prop where
  here : ∀ v ∈ ph.pages, ∃ q, translate m r v = some (f + (v - ph.va / 4096), q)
  data : ∀ v ∈ ph.pages, f + (v - ph.va / 4096) ∉ tables m 3 r
  lt : ∀ v ∈ ph.pages, f + (v - ph.va / 4096) < NPAGES

theorem Run.agree {m' : Mem} {ph : ElfProgram} {f : ℕ} (h : Run m r ph f)
    (hagree : Agree m m' (tables m 3 r)) : Run m' r ph f := by
  refine ⟨fun v hv => ?_, fun v hv => ?_, h.lt⟩
  · rw [hagree.translate]
    exact h.here v hv
  · rw [hagree.tables]
    exact h.data v hv

/-- The byte `i` of a segment lies in one of its pages. -/
theorem byte_mem_pages {ph : ElfProgram} {i : ℕ} (hi : i < ph.memsz) :
    (ph.va + i) / 4096 ∈ ph.pages := by
  rw [mem_pages]
  omega

/-- The frames that the bytes of a segment lie in. -/
theorem frame_of_byte {ph : ElfProgram} {f a k : ℕ} (hk : k ≤ ph.memsz)
    (h1 : f * 4096 + ph.va % 4096 ≤ a) (h2 : a < f * 4096 + ph.va % 4096 + k) :
    ∃ v ∈ ph.pages, a / 4096 = f + (v - ph.va / 4096) := by
  have hi : a - (f * 4096 + ph.va % 4096) < ph.memsz := by omega
  refine ⟨_, byte_mem_pages hi, ?_⟩
  omega

theorem Run.end_le {ph : ElfProgram} {f : ℕ} (h : Run t.mem r ph f) (hpos : 0 < ph.memsz) :
    f * 4096 + ph.va % 4096 + ph.memsz ≤ MEMSIZE_PHYSICAL := by
  have hlt := h.lt _ (byte_mem_pages (show ph.memsz - 1 < ph.memsz by omega))
  simp only [NPAGES, MEMSIZE_PHYSICAL, PAGESIZE] at hlt ⊢
  omega

/-- The iterator at the start of a segment, in a memory with the same tables. -/
theorem Run.pa {ph : ElfProgram} {f : ℕ} {m' : Mem} (h : Run t.mem r ph f) (hpos : 0 < ph.memsz)
    (hagree : Agree t.mem m' (tables t.mem 3 r)) :
    (vmiterAt t.mem r ph.va).pa m' = f * 4096 + ph.va % 4096 := by
  obtain ⟨q, htr⟩ := (h.agree hagree).here _ (byte_mem_pages hpos)
  rw [Nat.add_zero, Nat.sub_self, Nat.add_zero] at htr
  rw [← hagree.vmiterAt]
  exact vmiterAt_pa htr

/-- **A segment whose frames follow each other** is loaded. -/
theorem load_one (elf : Option Elf) {ph : ElfProgram} (phs : List ElfProgram) {f : ℕ} (x : ℕ)
    (hs : Shaped t.mem r) (hrun : Run t.mem r ph f) (hva : ph.va < 2 ^ 40)
    (hle : ph.filesz ≤ ph.memsz) :
    ∃ t', loadSegments elf (ph :: phs) (vmiterAt t.mem r x) t =
        loadSegments elf phs (vmiterAt t'.mem r ph.va) t' ∧ t' = { t with mem := t'.mem } ∧
      (∀ p, (∀ v ∈ ph.pages, f + (v - ph.va / 4096) ≠ p) → t'.mem p = t.mem p) ∧
      ∀ i < ph.memsz, t'.mem.byte (f * 4096 + ph.va % 4096 + i) =
        if i < ph.filesz then (programData elf ph i).toNat else 0 := by
  have hfind : (vmiterAt t.mem r x).find t.mem ph.va = .ok (vmiterAt t.mem r ph.va) :=
    realFind_eq hs (canonical_of_lt (by omega)) (by omega)
  rw [loadSegments, hfind, ok_bind]
  rcases Nat.eq_zero_or_pos ph.memsz with h0 | hpos
  · -- nothing is stored
    have hf0 : ph.filesz = 0 := by omega
    refine ⟨t, ?_, rfl, fun p _ => rfl, fun i hi => by omega⟩
    rw [h0, hf0]
    rfl
  · have hend := hrun.end_le hpos
    obtain ⟨t₁, hset, hrest₁, hbyte₁, hmem₁⟩ := write_ok (t := t) (b := fun _ => 0) hend
    have hagree₁ : Agree t.mem t₁.mem (tables t.mem 3 r) := by
      intro p hp i
      rw [hmem₁ p fun a h1 h2 heq => ?_]
      obtain ⟨v, hv, hv'⟩ := frame_of_byte le_rfl h1 h2
      exact hrun.data v hv (hv' ▸ heq ▸ hp)
    obtain ⟨t₂, hcpy, hrest₂, hbyte₂, hmem₂⟩ := write_ok (t := t₁) (b := programData elf ph)
      (show f * 4096 + ph.va % 4096 + ph.filesz ≤ MEMSIZE_PHYSICAL by omega)
    have hmem : ∀ p, (∀ v ∈ ph.pages, f + (v - ph.va / 4096) ≠ p) → t₂.mem p = t.mem p := by
      intro p hp
      rw [hmem₂ p fun a h1 h2 heq => ?_, hmem₁ p fun a h1 h2 heq => ?_]
      · obtain ⟨v, hv, hv'⟩ := frame_of_byte le_rfl h1 h2
        exact hp v hv (hv' ▸ heq)
      · obtain ⟨v, hv, hv'⟩ := frame_of_byte hle h1 h2
        exact hp v hv (hv' ▸ heq)
    have hagree₂ : Agree t.mem t₂.mem (tables t.mem 3 r) := by
      intro p hp i
      rw [hmem p fun v hv heq => hrun.data v hv (heq ▸ hp)]
    refine ⟨t₂, ?_, by rw [hrest₂, hrest₁], hmem, fun i hi => ?_⟩
    · rw [hrun.pa hpos fun _ _ _ => rfl]
      simp only [memset, hset, ok_bind]
      rw [hrun.pa hpos hagree₁]
      simp only [memcpy, hcpy, ok_bind]
      rw [hagree₂.vmiterAt]
    · rw [hbyte₂, hbyte₁, Nat.add_sub_cancel_left]
      by_cases hi' : i < ph.filesz
      · rw [if_pos (by omega), if_pos hi']
      · rw [if_neg (by omega), if_pos (by omega), if_neg hi']
        rfl

/-! ## All segments -/

/-- **The second loop over the segments**, if the frames of each follow each other. -/
theorem loadSegments_spec (elf : Option Elf) (base : ElfProgram → ℕ) (phs : List ElfProgram) :
    ∀ (x : ℕ) (t : State), Shaped t.mem r → WellPlaced phs →
      (∀ ph ∈ phs, Run t.mem r ph (base ph)) →
    (∀ ph ∈ phs, ∀ v ∈ ph.pages, ∀ ph' ∈ phs, ∀ v' ∈ ph'.pages,
      base ph + (v - ph.va / 4096) = base ph' + (v' - ph'.va / 4096) → v = v') →
    ∃ t' x', loadSegments elf phs (vmiterAt t.mem r x) t = .ok (vmiterAt t'.mem r x', t') ∧
      t' = { t with mem := t'.mem } ∧
      (∀ p, (∀ ph ∈ phs, ∀ v ∈ ph.pages, base ph + (v - ph.va / 4096) ≠ p) → t'.mem p = t.mem p) ∧
      ∀ ph ∈ phs, ∀ i < ph.memsz, t'.mem.byte (base ph * 4096 + ph.va % 4096 + i) =
        if i < ph.filesz then (programData elf ph i).toNat else 0 := by
  induction phs with
  | nil =>
    intro x t _ _ _ _
    exact ⟨t, x, rfl, rfl, fun _ _ => rfl, fun _ h => absurd h List.not_mem_nil⟩
  | cons ph phs ih =>
    intro x t hs hwell hrun hinj
    obtain ⟨-, hhigh⟩ := hwell.range ph List.mem_cons_self
    simp only [MEMSIZE_VIRTUAL, PAGESIZE] at hhigh
    obtain ⟨t₁, hone, hrest₁, hmem₁, hbyte₁⟩ := load_one elf phs x hs
      (hrun ph List.mem_cons_self) (by omega) (hwell.filesz_le ph List.mem_cons_self)
    have hagree : Agree t.mem t₁.mem (tables t.mem 3 r) := by
      intro p hp i
      rw [hmem₁ p fun v hv heq => (hrun ph List.mem_cons_self).data v hv (heq ▸ hp)]
    obtain ⟨t', x', hloop, hrest, hmem, hbyte⟩ := ih ph.va t₁ (hagree.shaped hs) hwell.tail
      (fun ph' hph' => (hrun ph' (List.mem_cons_of_mem _ hph')).agree hagree)
      (fun ph₁ h₁ v hv ph₂ h₂ v' hv' =>
        hinj ph₁ (List.mem_cons_of_mem _ h₁) v hv ph₂ (List.mem_cons_of_mem _ h₂) v' hv')
    refine ⟨t', x', hone.trans hloop, by rw [hrest, hrest₁], fun p hp => ?_,
      fun ph' hph' i hi => ?_⟩
    · rw [hmem p fun ph' hph' => hp ph' (List.mem_cons_of_mem _ hph'),
        hmem₁ p (hp ph List.mem_cons_self)]
    · rcases List.mem_cons.1 hph' with rfl | hph'
      · -- the later segments lie elsewhere
        rw [← hbyte₁ i hi]
        refine byte_page (hmem _ fun ph₂ h₂ v hv heq => ?_)
        have hpage := byte_mem_pages hi
        have hsame : v = (ph'.va + i) / 4096 := by
          refine hinj ph₂ (List.mem_cons_of_mem _ h₂) v hv ph' List.mem_cons_self _ hpage ?_
          rw [heq]
          omega
        have hdisj := hwell.disjoint
        rw [List.flatMap_cons] at hdisj
        exact (List.nodup_append.1 hdisj).2.2 _ hpage _
          (List.mem_flatMap.2 ⟨ph₂, h₂, hsame ▸ hv⟩) rfl
      · exact hbyte ph' hph' i hi

/-! ## Frames that follow each other -/

section
variable {l l' : List ℕ} {w f g : ℕ}

theorem zip_inj_right : ∀ {l l' : List ℕ}, l'.Nodup → (v, f) ∈ l.zip l' → (w, f) ∈ l.zip l' → v = w
  | [], _, _, h, _ => by
    rw [List.zip_nil_left] at h
    exact absurd h List.not_mem_nil
  | _ :: _, [], _, h, _ => absurd h List.not_mem_nil
  | x :: l, y :: l', hN, h, h' => by
    rw [List.zip_cons_cons] at h h'
    obtain ⟨hy, hN⟩ := List.nodup_cons.1 hN
    rcases List.mem_cons.1 h with heq | hmem
    · rcases List.mem_cons.1 h' with heq' | hmem'
      · cases heq
        cases heq'
        rfl
      · cases heq
        exact absurd (List.of_mem_zip hmem').2 hy
    · rcases List.mem_cons.1 h' with heq' | hmem'
      · cases heq'
        exact absurd (List.of_mem_zip hmem).2 hy
      · exact zip_inj_right hN hmem hmem'

theorem exists_mem_zip : ∀ {l l' : List ℕ}, l.length ≤ l'.length → v ∈ l → ∃ f, (v, f) ∈ l.zip l'
  | [], _, _, h => absurd h List.not_mem_nil
  | _ :: _, [], h, _ => absurd h (Nat.not_succ_le_zero _)
  | x :: l, y :: l', hlen, h => by
    rw [List.zip_cons_cons]
    rcases List.mem_cons.1 h with rfl | h
    · exact ⟨y, List.mem_cons_self⟩
    · obtain ⟨f, hf⟩ := exists_mem_zip (Nat.le_of_succ_le_succ hlen) h
      exact ⟨f, List.mem_cons_of_mem _ hf⟩

end

/-- The frames of a segment, from the first one. -/
theorem Contiguous.base {phs : List ElfProgram} (h : Contiguous L s phs)
    (htotal : ∀ ph ∈ phs, ∀ v ∈ ph.pages, ∃ f, (v, f) ∈ placement L s phs) {ph : ElfProgram}
    (hph : ph ∈ phs) :
    ∃ f, ∀ v ∈ ph.pages, (v, f + (v - ph.va / 4096)) ∈ placement L s phs := by
  by_cases hne : ph.va / 4096 ∈ ph.pages
  · obtain ⟨f, hf⟩ := htotal ph hph _ hne
    refine ⟨f, fun v hv => ?_⟩
    obtain ⟨hge, hlt⟩ := mem_pages.1 hv
    obtain ⟨k, rfl⟩ := Nat.exists_eq_add_of_le hge
    rw [Nat.add_sub_cancel_left]
    induction k with
    | zero => exact hf
    | succ k ih =>
      have hv' : ph.va / 4096 + k ∈ ph.pages := mem_pages.2 ⟨by omega, by omega⟩
      obtain ⟨g, hg⟩ := htotal ph hph _ hv
      have hnext := h ph hph _ (ih hv' (by omega) (by omega)) _ hg hv' hv rfl
      simp only at hnext
      rw [hnext] at hg
      exact hg
  · refine ⟨0, fun v hv => absurd (mem_pages.2 ?_) hne⟩
    have := mem_pages.1 hv
    omega

end CProj.WeensyOS
