/-
  A segment with a gap between its frames is not loaded.

  The image is one of zeros.  Stores of zeros stay between the first frame of a segment and the last
  (`Hit`), so the last page of a segment with a gap is never written.  They may hit a table of level 0
  that was allocated inside the gap; its entries then stay as they are or become absent (`Zeroed`).
-/
import CProj.WeensyOS.ProcessSetup

namespace CProj.WeensyOS

variable {L : Layout} {s t t' t₁ : State} {r v w p f g pid : ℕ} {elf : Elf} {phs : List ElfProgram}

/-! ## The frames of a segment, in order -/

theorem pairwise_lt_add {l : List ℕ} (h : l.Pairwise (· < ·)) {i j : ℕ} (hj : i + j < l.length) :
    l[i] + j ≤ l[i + j] := by
  induction j with
  | zero => exact le_rfl
  | succ j ih =>
    have hlt := List.pairwise_iff_getElem.1 h (i + j) (i + (j + 1)) (by omega) hj (by omega)
    have hle := ih (by omega)
    omega

theorem mem_zip_range' {l : List ℕ} {v₀ n : ℕ} (h : (v, f) ∈ (List.range' v₀ n).zip l) :
    v₀ ≤ v ∧ l[v - v₀]? = some f := by
  obtain ⟨k, hk⟩ := List.mem_iff_getElem?.1 h
  obtain ⟨h1, h2⟩ := List.getElem?_zip_eq_some.1 hk
  obtain ⟨hlt, heq⟩ := List.getElem?_eq_some_iff.1 h1
  rw [List.getElem_range'] at heq
  simp only at heq
  have hk : v - v₀ = k := by omega
  rw [hk]
  exact ⟨by omega, h2⟩

/-- The frames of one segment: they are ascending, and the frames of the other pages lie below or above
    all of them. -/
theorem Loadable.segment (h : Loadable L s elf) {ph : ElfProgram} (hph : ph ∈ elf.segments) :
    ∃ l : List ℕ, l.length = ph.pages.length ∧ l.Pairwise (· < ·) ∧
      (∀ v f, v ∈ ph.pages → (v, f) ∈ placement L s elf.segments → l[v - ph.va / 4096]? = some f) ∧
      ∀ w g, w ∉ ph.pages → (w, g) ∈ placement L s elf.segments → (∀ f ∈ l, g < f) ∨
        ∀ f ∈ l, f < g := by
  have htaken := h.taken_le
  have hsorted : (frames false (elf.segments.flatMap ElfProgram.pages) ((freeList L s.pages).drop 4)).Pairwise
      (· < ·) := freeList_sorted.sublist placement_sublist
  obtain ⟨phs₁, phs₂, hsplit⟩ := List.append_of_mem hph
  rw [placement]
  have hnodup := h.placed.disjoint
  rw [hsplit, List.flatMap_append, List.flatMap_cons] at htaken hsorted hnodup ⊢
  generalize phs₁.flatMap ElfProgram.pages = V₁ at htaken hsorted hnodup ⊢
  generalize phs₂.flatMap ElfProgram.pages = V₂ at htaken hsorted hnodup ⊢
  generalize (freeList L s.pages).drop 4 = F at htaken hsorted ⊢
  rw [taken_append, taken_append] at htaken
  rw [frames_append (by omega), frames_append (by rw [List.length_drop]; omega)] at hsorted ⊢
  have hlen₁ : (frames false V₁ F).length = V₁.length := frames_length (by omega)
  have hlen : (frames (crossed false V₁) ph.pages (F.drop (taken false V₁))).length =
      ph.pages.length :=
    frames_length (by rw [List.length_drop]; omega)
  generalize frames false V₁ F = l₁ at hsorted hlen₁ ⊢
  generalize frames (crossed false V₁) ph.pages (F.drop (taken false V₁)) = l at hsorted hlen ⊢
  rw [List.zip_append hlen₁.symm, List.zip_append hlen.symm]
  obtain ⟨-, hsorted', h₁⟩ := List.pairwise_append.1 hsorted
  obtain ⟨hl, -, h₂⟩ := List.pairwise_append.1 hsorted'
  refine ⟨l, hlen, hl, fun v f hv hmem => ?_, fun w g hw hmem => ?_⟩
  · rcases List.mem_append.1 hmem with hmem | hmem
    · exact absurd rfl ((List.nodup_append.1 hnodup).2.2 v (List.of_mem_zip hmem).1 v
        (List.mem_append_left _ hv))
    · rcases List.mem_append.1 hmem with hmem | hmem
      · exact (mem_zip_range' hmem).2
      · exact absurd rfl ((List.nodup_append.1 (List.nodup_append.1 hnodup).2.1).2.2 v hv v
          (List.of_mem_zip hmem).1)
  · rcases List.mem_append.1 hmem with hmem | hmem
    · exact Or.inl fun f hf => h₁ g (List.of_mem_zip hmem).2 f (List.mem_append_left _ hf)
    · rcases List.mem_append.1 hmem with hmem | hmem
      · exact absurd (List.of_mem_zip hmem).1 hw
      · exact Or.inr fun f hf => h₂ f hf g (List.of_mem_zip hmem).2

/-- The page lies between the first frame of a segment and the last that its length reaches. -/
def Hit (L : Layout) (s : State) (phs : List ElfProgram) (p : ℕ) : Prop :=
  ∃ ph ∈ phs, ∃ f, (ph.va / 4096, f) ∈ placement L s phs ∧ ph.va / 4096 ∈ ph.pages ∧ f ≤ p ∧
    p + ph.va / 4096 < f + (ph.va + ph.memsz + 4095) / 4096

theorem pages_length (ph : ElfProgram) :
    ph.pages.length = (ph.va + ph.memsz + 4095) / 4096 - ph.va / 4096 := by
  rw [ElfProgram.pages, List.length_range']
  rfl

/-- **The last page of a segment with a gap** has a frame that no segment reaches. -/
theorem Loadable.gap (h : Loadable L s elf) (hgap : ¬ Contiguous L s elf.segments) :
    ∃ ph ∈ elf.segments, ∃ v g, v ∈ ph.pages ∧ ph.va < v * 4096 ∧
      (v, g) ∈ placement L s elf.segments ∧
      ¬ Hit L s elf.segments g := by
  rw [Contiguous] at hgap
  push Not at hgap
  obtain ⟨ph, hph, ⟨a, fa⟩, ha, ⟨b, fb⟩, hb, hap, hbp, hab, hne⟩ := hgap
  simp only at hap hbp hab hne
  subst hab
  obtain ⟨ha1, ha2⟩ := mem_pages.1 hap
  obtain ⟨hb1, hb2⟩ := mem_pages.1 hbp
  -- the last page of the segment
  have hlast : (ph.va + ph.memsz + 4095) / 4096 - 1 ∈ ph.pages := mem_pages.2 ⟨by omega, by omega⟩
  obtain ⟨g, hg⟩ := h.total hph hlast
  refine ⟨ph, hph, _, g, hlast, by omega, hg, ?_⟩
  rintro ⟨ph', hph', f, hf, hfp, hle, hlt⟩
  obtain ⟨l, hlen, hl, hseg, hother⟩ := h.segment hph'
  rw [pages_length] at hlen
  obtain ⟨hf1, hf2⟩ := mem_pages.1 hfp
  have hgf := hseg _ _ hfp hf
  rw [Nat.sub_self] at hgf
  obtain ⟨h0, hf0⟩ := List.getElem?_eq_some_iff.1 hgf
  by_cases hsame : ph' = ph
  · -- the segment itself: its frames go further than its length
    subst hsame
    obtain ⟨hka, hfa⟩ := List.getElem?_eq_some_iff.1 (hseg _ _ hap ha)
    obtain ⟨hkb, hfb⟩ := List.getElem?_eq_some_iff.1 (hseg _ _ hbp hb)
    obtain ⟨hkg, hfg⟩ := List.getElem?_eq_some_iff.1 (hseg _ _ hlast hg)
    have h1 := pairwise_lt_add hl (i := 0) (j := a - ph'.va / 4096) (by omega)
    have h2 := pairwise_lt_add hl (i := a - ph'.va / 4096) (j := 1) (by omega)
    have h3 := pairwise_lt_add hl (i := a + 1 - ph'.va / 4096)
      (j := (ph'.va + ph'.memsz + 4095) / 4096 - 1 - (a + 1)) (by omega)
    simp only [Nat.zero_add, show a - ph'.va / 4096 + 1 = a + 1 - ph'.va / 4096 by omega,
      show a + 1 - ph'.va / 4096 + ((ph'.va + ph'.memsz + 4095) / 4096 - 1 - (a + 1)) =
        (ph'.va + ph'.memsz + 4095) / 4096 - 1 - ph'.va / 4096 by omega] at h1 h2 h3
    omega
  · -- another segment: all its frames lie on one side
    have hout : (ph.va + ph.memsz + 4095) / 4096 - 1 ∉ ph'.pages := fun hin =>
      disjoint_of_nodup_flatMap h.placed.disjoint hph hph' (Ne.symm hsame) hlast hin
    have hlast' := pairwise_lt_add hl (i := 0) (j := l.length - 1) (by omega)
    rcases hother _ _ hout hg with hall | hall
    · have := hall _ (List.getElem_mem h0)
      omega
    · have := hall _ (List.getElem_mem (show 0 + (l.length - 1) < l.length by omega))
      omega

/-! ## Stores of zeros -/

/-- The memory `m` is `m₁` after stores of zeros that hit, among the tables, only some of level 0. -/
structure Zeroed (m₁ m : Mem) (r : ℕ) (hit : ℕ → Prop) : Prop where
  away : ∀ p, ¬ hit p → m p = m₁ p
  even : ∀ p ∈ tables m₁ 3 r, ∀ i, m p i = m₁ p i ∨ m p i % 2 = 0

section
variable {m₁ m : Mem} {hit : ℕ → Prop}

theorem Zeroed.upper (h : Zeroed m₁ m r hit) (hleaf : ∀ p ∈ tables m₁ 3 r, hit p → Leaf m₁ r p) :
    UpperAgree m₁ m 3 r := by
  intro p hp hnot i
  rw [h.away p fun hhit => ?_]
  obtain ⟨v, hpage, hl⟩ := hleaf p hp hhit
  exact hnot v initialPerm hpage hl

/-- A page is mapped as before, or absent. -/
theorem Zeroed.translate (h : Zeroed m₁ m r hit) (hleaf : ∀ p ∈ WeensyOS.tables m₁ 3 r, hit p →
    Leaf m₁ r p)
    (htree : (WeensyOS.tables m₁ 3 r).Nodup) (v : ℕ) :
    translate m r v = WeensyOS.translate m₁ r v ∨ WeensyOS.translate m r v = none := by
  have hstop : stop m r v = stop m₁ r v := (h.upper hleaf).walk htree
  rw [WeensyOS.translate, WeensyOS.translate, hstop]
  rcases h.even _ stop_page_mem (stop m₁ r v).idx with heq | heven
  · rw [heq]
    exact Or.inl rfl
  · exact Or.inr (if_neg (by omega))

theorem wordOf_mod_two (b : ℕ → ℕ) : wordOf b % 2 = b 0 % 2 := by
  simp only [wordOf, show List.range 8 = [0, 1, 2, 3, 4, 5, 6, 7] from rfl, List.foldr_cons,
    List.foldr_nil]
  omega

/-- A word that a store of zeros touches is even, unless the store begins in its page. -/
theorem write_zero_even {dst n p i : ℕ} (hp : p ≠ dst / 4096) :
    m.write dst n (fun _ => 0) p i = m p i ∨ m.write dst n (fun _ => 0) p i % 2 = 0 := by
  have hpage : p * PAGESIZE = p * 4096 := rfl
  rw [Mem.write]
  by_cases h : i < 512 ∧ dst < p * PAGESIZE + i * 8 + 8 ∧ p * PAGESIZE + i * 8 < dst + n
  · simp only [if_pos h, wordOf_mod_two]
    rw [if_pos (by omega)]
    exact Or.inr rfl
  · simp only [if_neg h]
    exact Or.inl trivial

theorem Zeroed.write {dst n : ℕ} (h : Zeroed m₁ m r hit) (hdst : dst / 4096 ∉ tables m₁ 3 r)
    (hn : 0 < n)
    (hhit : ∀ a, dst ≤ a → a < dst + n → hit (a / 4096)) :
    Zeroed m₁ (m.write dst n fun _ => 0) r hit := by
  refine ⟨fun p hp => ?_, fun p hp i => ?_⟩
  · rw [write_page hn fun a h1 h2 (heq : a / 4096 = p) => hp (heq ▸ hhit a h1 h2)]
    exact h.away p hp
  · have hne : p ≠ dst / 4096 := fun heq => hdst (heq ▸ hp)
    rcases write_zero_even (m := m) (n := n) (i := i) hne with heq | heven
    · rw [heq]
      exact h.even p hp i
    · exact Or.inr heven

/-- A store of zeros to a segment that may have become absent. -/
theorem Zeroed.store {pa dst n : ℕ} (h : Zeroed m₁ t.mem r hit) (hpa : pa = dst ∨ pa = NEG_ONE)
    (hdst : 0 < n → dst / 4096 ∉ tables m₁ 3 r) (hhit : ∀ a, dst ≤ a → a < dst + n → hit (a / 4096))
    (hres : t.write pa n (fun _ => 0) = .ok t') :
    Zeroed m₁ t'.mem r hit ∧ t' = { t with mem := t'.mem } := by
  rw [State.write] at hres
  by_cases h0 : n = 0
  · rw [if_pos h0] at hres
    cases hres
    exact ⟨h, rfl⟩
  · rw [if_neg h0] at hres
    split_ifs at hres with hbound
    cases hres
    refine ⟨?_, rfl⟩
    rcases hpa with rfl | rfl
    · exact h.write (hdst (by omega)) (by omega) hhit
    · rw [NEG_ONE, MEMSIZE_PHYSICAL] at hbound
      omega

end

/-! ## Loading zeros -/

/-- The segment lies between the frames that may be hit. -/
structure Spans (m₁ : Mem) (r : ℕ) (hit : ℕ → Prop) (ph : ElfProgram) (f : ℕ) : Prop where
  here : 0 < ph.memsz → ∃ q, translate m₁ r (ph.va / 4096) = some (f, q)
  data : 0 < ph.memsz → f ∉ tables m₁ 3 r
  hit : ∀ a, f * 4096 + ph.va % 4096 ≤ a → a < f * 4096 + ph.va % 4096 + ph.memsz → hit (a / 4096)

/-- An iterator that has been moved stands at the address it was moved to. -/
theorem vmiterAt_find {m : Mem} {x va : ℕ} {it : Vmiter} (hx : x < 2 ^ 40) (hva : va < 2 ^ 40)
    (h : (vmiterAt m r x).find m va = .ok it) : it = vmiterAt m r va := by
  have hcan : ∀ y, y < 2 ^ 40 → vaIsCanonical y = true := fun y hy =>
    (canonical_iff (by omega)).2 (canonical_of_lt (by omega))
  rw [Vmiter.find, (valid_vmiterAt (hcan x hx) (by omega)).realFind,
    create_canonical (hcan va hva)] at h
  split_ifs at h
  exact (Except.ok.inj h).symm

/-- **The second loop over the segments**, for an image of zeros. -/
theorem loadSegments_zeroed (hit : ℕ → Prop) (htree : (tables t₁.mem 3 r).Nodup)
    (hleaf : ∀ p ∈ tables t₁.mem 3 r, hit p → Leaf t₁.mem r p) (helf : ∀ i, elf.byte i = 0)
    (phs : List ElfProgram) :
    ∀ (x : ℕ) (t : State) (pit : Vmiter), x < 2 ^ 40 → Zeroed t₁.mem t.mem r hit →
      t = { t₁ with mem := t.mem } →
    (∀ ph ∈ phs, ph.va < 2 ^ 40 ∧ ph.filesz ≤ ph.memsz ∧ ∃ f, Spans t₁.mem r hit ph f) →
    loadSegments (some elf) phs (vmiterAt t.mem r x) t = .ok (pit, t') →
    Zeroed t₁.mem t'.mem r hit ∧ t' = { t₁ with mem := t'.mem } ∧
      ∃ x' < 2 ^ 40, pit = vmiterAt t'.mem r x' := by
  induction phs with
  | nil =>
    intro x t pit hx hz hrest _ hres
    cases hres
    exact ⟨hz, hrest, x, hx, rfl⟩
  | cons ph phs ih =>
    intro x t pit hx hz hrest hphs hres
    obtain ⟨hva, hle, f, hreach⟩ := hphs ph List.mem_cons_self
    rw [loadSegments] at hres
    obtain ⟨it, hfind, hres⟩ := bind_eq_ok.1 hres
    obtain ⟨t₂, hset, hres⟩ := bind_eq_ok.1 hres
    obtain ⟨t₃, hcpy, hres⟩ := bind_eq_ok.1 hres
    obtain rfl := vmiterAt_find hx hva hfind
    have hstop : ∀ {m : Mem}, Zeroed t₁.mem m r hit →
        ∀ va, vmiterAt m r va = vmiterAt t₁.mem r va := by
      intro m hz va
      have hwalk : ∀ w, stop m r w = stop t₁.mem r w := fun w => (hz.upper hleaf).walk htree
      simp only [vmiterAt, hwalk]
    -- the address of the segment, or that of an absent page
    have hpa : ∀ {m : Mem}, Zeroed t₁.mem m r hit → 0 < ph.memsz →
        (vmiterAt t.mem r ph.va).pa m = f * 4096 + ph.va % 4096 ∨
          (vmiterAt t.mem r ph.va).pa m = NEG_ONE := by
      intro m hz' hpos
      obtain ⟨q, htr⟩ := hreach.here hpos
      rw [hstop hz, ← hstop hz']
      rcases hz'.translate hleaf htree (ph.va / 4096) with heq | hnone
      · rw [htr] at heq
        exact Or.inl (vmiterAt_pa heq)
      · exact Or.inr (vmiterAt_pa_none hnone)
    have hstore : ∀ {n : ℕ} {u u' : State}, n ≤ ph.memsz → Zeroed t₁.mem u.mem r hit →
        u.write ((vmiterAt t.mem r ph.va).pa u.mem) n (fun _ => 0) = .ok u' →
        Zeroed t₁.mem u'.mem r hit ∧ u' = { u with mem := u'.mem } := by
      intro n u u' hn hu hw
      rcases Nat.eq_zero_or_pos ph.memsz with h0 | hpos
      · obtain rfl : n = 0 := by omega
        cases hw
        exact ⟨hu, rfl⟩
      · refine hu.store (hpa hu hpos) (fun _ => ?_) (fun a h1 h2 => hreach.hit a h1 (by omega)) hw
        rw [show (f * 4096 + ph.va % 4096) / 4096 = f by omega]
        exact hreach.data hpos
    have hdata : programData (some elf) ph = fun _ => 0 := funext fun i => helf _
    obtain ⟨hz₂, hrest₂⟩ := hstore le_rfl hz hset
    rw [memcpy, hdata] at hcpy
    obtain ⟨hz₃, hrest₃⟩ := hstore hle hz₂ hcpy
    rw [hstop hz, ← hstop hz₃] at hres
    exact ih ph.va t₃ pit hva hz₃ (by rw [hrest₃, hrest₂, hrest])
      (fun ph' hph' => hphs ph' (List.mem_cons_of_mem _ hph')) hres

/-! ## The stack -/

/-- What mapping the stack leaves as it is. -/
theorem stack_keeps (u : State) {u' : State} {x : ℕ} {pit : Vmiter} {F : List ℕ} (hx : x < 2 ^ 40)
    (htree : (tables u.mem 3 r).Nodup) (hused : TablesUsed u r)
    (hfree : freeList L u.pages = f :: F)
    (hdo : (do
      let (stackPa, s) := kalloc L u PAGESIZE
      let pit ← (vmiterAt u.mem r x).find s.mem (MEMSIZE_VIRTUAL - PAGESIZE)
      pit.map L s stackPa (PTE_P ||| PTE_W ||| PTE_U)) = .ok (pit, u')) :
    u'.ptable = u.ptable ∧ (∀ g, u.pages g ≠ 0 → g ∉ tables u.mem 3 r → u'.mem g = u.mem g) ∧
      ∀ w, Canonical w → w ≠ STACK_PAGE → translate u'.mem r w = translate u.mem r w := by
  obtain ⟨-, h0⟩ := mem_freeList.1 (hfree ▸ List.mem_cons_self : f ∈ freeList L u.pages)
  have hnot : f ∉ tables u.mem 3 r := fun hf => hused f hf h0
  have hagree : Agree u.mem (u.alloc f 0xCCCCCCCCCCCCCCCC).mem (tables u.mem 3 r) := agree_fill hnot
  have htree' : (tables (u.alloc f 0xCCCCCCCCCCCCCCCC).mem 3 r).Nodup := by rwa [hagree.tables]
  have hused' : TablesUsed (u.alloc f 0xCCCCCCCCCCCCCCCC) r := by
    intro p hp
    rw [hagree.tables] at hp
    have hpf : p ≠ f := fun heq => hnot (heq ▸ hp)
    simp only [State.alloc, Function.update_of_ne hpf]
    exact hused p hp
  simp only [(kalloc_freeList hfree).1] at hdo
  obtain ⟨it, hfind, hmap⟩ := bind_eq_ok.1 hdo
  rw [← hagree.vmiterAt] at hfind
  obtain rfl := vmiterAt_find hx (by decide) hfind
  rw [Vmiter.map] at hmap
  obtain ⟨⟨k, it, s''⟩, htry, hmap⟩ := bind_eq_ok.1 hmap
  obtain ⟨_, hassert, hmap⟩ := bind_eq_ok.1 hmap
  cases hmap
  have hk := assert_eq_ok.1 hassert
  change (vmiterAt (u.alloc f 0xCCCCCCCCCCCCCCCC).mem r (STACK_PAGE * 4096)).tryMapIt L _ _ _ =
    _ at htry
  obtain ⟨t, new, hg, -, -, -, hcases⟩ := tryMapIt_spec (I := fun _ => True)
    (fun _ _ _ _ _ _ => trivial) trivial htree' hused'.freeOutside htry
  rcases hcases with ⟨h1, -⟩ | ⟨-, hl, rfl⟩ | ⟨-, h1, -⟩
  · rw [h1] at hk
    exact absurd hk (by decide)
  · refine ⟨by rw [State.put, hg.rest]; rfl, fun g hg0 hgt => ?_, fun w hw hne => ?_⟩
    · have hgf : g ≠ f := fun heq => hg0 (heq ▸ h0)
      have hgnew : g ∉ new := by
        intro hmem
        have hzero := (hg.fresh g hmem).1
        simp only [State.alloc, Function.update_of_ne hgf] at hzero
        exact hg0 hzero
      have hpage : g ≠ (stop t.mem r STACK_PAGE).page := by
        rintro rfl
        refine (hg.mem_tables.1 stop_page_mem).elim (fun hmem => hgt ?_) hgnew
        rwa [hagree.tables] at hmem
      rw [State.put]
      refine (funext (set_page_ne hpage)).trans ?_
      rw [hg.mem g (by rwa [hagree.tables]) hgnew]
      exact funext (fill_of_ne hgf)
    · refine (translate_set_other hg.tree hl (by decide) hw hne).trans ?_
      rw [hg.translate, hagree.translate]
  · exact absurd h1 (by decide)

/-! ## Programs with gaps -/

/-- The tables of a process that is being set up lie below the frames of its segments, or are of
    level 0. -/
theorem Built.below_frames {t₀ : State} {n : ℕ} (h₀ : Built L s r t₀)
    (hfree : freeList L t₀.pages = (freeList L s.pages).drop n)
    (hp : p ∈ WeensyOS.tables t₀.mem 3 r)
    (hf : f ∈ (freeList L s.pages).drop n) : p < f := by
  have hnew := h₀.tables p hp
  have hmem : p ∈ freeList L s.pages := mem_freeList.2 ⟨h₀.alloc hnew, hnew.1⟩
  have hnot : p ∉ freeList L t₀.pages := fun hmem => by
    have h1 := (mem_freeList.1 hmem).2
    rw [hnew.2] at h1
    exact absurd h1 (by decide)
  have hsorted : (freeList L s.pages).Pairwise (· < ·) := freeList_sorted
  rw [hfree] at hnot
  rw [← List.take_append_drop n (freeList L s.pages)] at hmem hsorted
  exact (List.pairwise_append.1 hsorted).2.2 p ((List.mem_append.1 hmem).resolve_right hnot) f hf

section
variable {t₀ t₁ t₂ : State} {pit : Vmiter} {x g : ℕ} (h : Loadable L s elf)
  (hset : SetPages L (s.enter pid r) r false (elf.segments.flatMap ElfProgram.pages)
    ((freeList L s.pages).drop 4) (pageFlags elf.segments) t₀ t₁)

include hset in
/-- The stores hit no tables but those of level 0. -/
theorem SetPages.hit_leaf (h₀ : Built L (s.enter pid r) r t₀)
    (hfree₀ : freeList L t₀.pages = (freeList L s.pages).drop 4) :
    ∀ p ∈ WeensyOS.tables t₁.mem 3 r, Hit L s elf.segments p → Leaf t₁.mem r p := by
  intro p hp hhit
  refine (hset.tables p hp).resolve_left fun hp => ?_
  obtain ⟨ph', -, f, hf', -, hle, -⟩ := hhit
  have hlt := h₀.below_frames (n := 4) hfree₀ hp (frames_sublist.subset (List.of_mem_zip hf').2)
  omega

include h hset in
/-- Loading an image of zeros. -/
theorem Loadable.load_zeros (helf : ∀ i, elf.byte i = 0)
    (hleaf : ∀ p ∈ tables t₁.mem 3 r, Hit L s elf.segments p → Leaf t₁.mem r p) (hx : x < 2 ^ 40)
    (hload : loadSegments (some elf) elf.segments (vmiterAt t₁.mem r x) t₁ = .ok (pit, t₂)) :
    Zeroed t₁.mem t₂.mem r (Hit L s elf.segments) ∧ t₂ = { t₁ with mem := t₂.mem } ∧
      ∃ x' < 2 ^ 40, pit = vmiterAt t₂.mem r x' := by
  refine loadSegments_zeroed (Hit L s elf.segments) hset.built.shaped.tree hleaf helf elf.segments
    x t₁ pit hx ⟨fun _ _ => rfl, fun _ _ _ => Or.inl rfl⟩ rfl (fun ph hph => ?_) hload
  obtain ⟨-, hhigh⟩ := h.placed.range ph hph
  simp only [MEMSIZE_VIRTUAL, PAGESIZE] at hhigh
  refine ⟨by omega, h.placed.filesz_le ph hph, ?_⟩
  rcases Nat.eq_zero_or_pos ph.memsz with h0 | hpos
  · exact ⟨0, fun hpos => by omega, fun hpos => by omega, fun a h1 h2 => by omega⟩
  · have hfirst : ph.va / 4096 ∈ ph.pages := byte_mem_pages hpos
    obtain ⟨f, hf⟩ := h.total hph hfirst
    have hp := hset.placed _ hf
    obtain ⟨q, htr, -⟩ := hp.here
    exact ⟨f, fun _ => ⟨q, htr⟩, fun _ => hp.data, fun a h1 h2 =>
      ⟨ph, hph, f, hf, hfirst, by omega, by omega⟩⟩

end

/-- A frame that no store hits still holds what the allocator has filled it with, and its page is
    mapped to it or to nothing. -/
theorem Loadable.unwritten {s' : State} {g : ℕ} (h : Loadable L s elf) (helf : ∀ i, elf.byte i = 0)
    (hres : processSetup L s pid (some elf) = .ok s') (hg : (v, g) ∈ placement L s elf.segments)
    (hhit : ¬ Hit L s elf.segments g) :
    s'.mem g 0 = 0xCCCCCCCCCCCCCCCC ∧
      ∀ n q, translate s'.mem (s'.root pid) v = some (n, q) → n = g := by
  obtain ⟨r, t₀, t₁, x, hx, h₀, -, hfree₀, -, hset, heq⟩ :=
    processSetup_eq pid h.kernel h.magic h.placed h.enough
  have hp : Placed (s.enter pid r) r t₁ v g (pageFlags elf.segments v) := hset.placed _ hg
  rw [heq, finishSetup] at hres
  obtain ⟨⟨pit, t₂⟩, hload, hres⟩ := bind_eq_ok.1 hres
  have hleaf := hset.hit_leaf h₀ hfree₀
  obtain ⟨hz, hrest, x', hx', rfl⟩ := h.load_zeros hset helf hleaf hx hload
  have hpages : t₂.pages = t₁.pages := by rw [hrest]
  have htables : tables t₂.mem 3 r = tables t₁.mem 3 r :=
    congrArg (r :: ·) ((hz.upper hleaf).subtables hset.built.shaped.tree)
  -- there is memory for the stack
  obtain ⟨f, F, hF, -⟩ := h.stack_room
  have hfree : freeList L t₂.pages = f :: F := by rw [hpages, hset.free, hF]
  simp only at hres
  cases hk : kalloc L _ PAGESIZE with
  | mk stackPa u =>
    rw [hk] at hres
    obtain ⟨it, hfind, hres⟩ := bind_eq_ok.1 hres
    obtain ⟨⟨it', u'⟩, hmap, hres⟩ := bind_eq_ok.1 hres
    cases hres
    obtain ⟨hptable, hmem, htr⟩ := stack_keeps (t₂.setProc pid
        { t₂.ptable pid with regs := { (t₂.ptable pid).regs with rip := programEntry (some elf) } }) hx'
      (show (tables t₂.mem 3 r).Nodup by rw [htables]; exact hset.built.shaped.tree)
      (fun p hp' => by
        change t₂.pages p ≠ 0
        rw [hpages]
        exact hset.built.used p (htables ▸ hp')) hfree (by
        rw [hk]
        exact bind_eq_ok.2 ⟨it, hfind, hmap⟩)
    have hroot : State.root (u'.setProc pid { u'.ptable pid with
        regs := { (u'.ptable pid).regs with rsp := MEMSIZE_VIRTUAL }
        state := .runnable }) pid = r := by
      have hpid : t₂.ptable = (s.enter pid r).ptable := by rw [hrest, hset.built.rest]
      simp only [State.root, State.setProc, Function.update_self, hptable, hpid, State.enter,
        page_div]
    constructor
    · have hg₂ : u'.mem g = t₂.mem g := hmem g
        (show t₂.pages g ≠ 0 by
          rw [hpages, hp.new.2]
          decide)
        (show g ∉ tables t₂.mem 3 r by
          rw [htables]
          exact hp.data)
      change u'.mem g 0 = _
      rw [hg₂, hz.away g hhit]
      exact hp.fresh 0
    · intro n q hn
      rw [hroot] at hn
      obtain ⟨ph, hph, hv⟩ := List.mem_flatMap.1 (List.of_mem_zip hg).1
      obtain ⟨-, hlt⟩ := h.placed.page_range hph hv
      have hkept : translate u'.mem r v = translate t₂.mem r v :=
        htr v (canonical_of_lt (by omega)) (by rw [STACK_PAGE]; omega)
      have hn' : translate u'.mem r v = some (n, q) := hn
      obtain ⟨q', hq', -⟩ := hp.here
      rw [hn'] at hkept
      rcases hz.translate hleaf hset.built.shaped.tree v with hsame | hnone
      · rw [← hkept, hq'] at hsame
        exact congrArg Prod.fst (Option.some.inj hsame)
      · rw [hnone] at hkept
        cases hkept

/-- **A program with a gap is not loaded as its image says**, if the image is one of zeros. -/
theorem Loadable.contiguous {s' : State} (h : Loadable L s elf) (helf : ∀ i, elf.byte i = 0)
    (hres : processSetup L s pid (some elf) = .ok s') (hf : Faithful s s' pid elf) :
    Contiguous L s elf.segments := by
  by_contra hgap
  obtain ⟨ph, hph, v, g, hv, hva, hg, hhit⟩ := h.gap hgap
  obtain ⟨hword, hframe⟩ := h.unwritten helf hres hg hhit
  have hin := mem_pages.1 hv
  obtain ⟨n, q, hn, -, -, hbyte⟩ := hf.loaded ph hph (v * 4096 - ph.va) (by omega)
  have hlast : (ph.va + (v * 4096 - ph.va)) / PAGESIZE = v := by
    rw [PAGESIZE]
    omega
  have hoff : (ph.va + (v * 4096 - ph.va)) % PAGESIZE = 0 := by
    rw [PAGESIZE]
    omega
  rw [hlast] at hn
  have hword_start : g * PAGESIZE % 8 = 0 := by
    rw [PAGESIZE]
    omega
  -- the first byte of the frame is not the zero of the image
  rw [hoff, Nat.add_zero, helf, hframe n q hn, Mem.byte, Nat.mul_div_cancel g (by decide),
    Nat.mul_mod_left, hword_start] at hbyte
  change s'.mem g 0 / _ % _ = _ at hbyte
  rw [hword, show (0 : UInt8).toNat = 0 by rfl, ite_self] at hbyte
  exact absurd hbyte (by decide)

/-- **When programs are loaded.**  The process sees its segments as the image says, whatever is in the
    image, if and only if the frames of each segment follow each other. -/
theorem processSetup_faithful (h : Loadable L s elf) (pid : ℕ) :
    (∀ byte, ∃ s', processSetup L s pid (some { elf with byte := byte }) = .ok s' ∧
      Faithful s s' pid { elf with byte := byte }) ↔ Contiguous L s elf.segments := by
  constructor
  · intro hall
    obtain ⟨s', hres, hf⟩ := hall fun _ => 0
    have h' : Loadable L s { elf with byte := fun _ => 0 } :=
      ⟨h.kernel, h.magic, h.placed, h.enough⟩
    exact h'.contiguous (fun _ => rfl) hres hf
  · intro hcontig byte
    have h' : Loadable L s { elf with byte := byte } := ⟨h.kernel, h.magic, h.placed, h.enough⟩
    exact h'.faithful hcontig pid

/-- The kernel before its first process. -/
def beforeSetup : State :=
  { stateOf [] (fun _ _ => 0) fun _ => 0 with mem := kernelMem smallKernel (fun _ _ => 0) kernelEntries }

/-- An executable with one page that is read-only and two that are writable, each segment with
    zeros behind its bytes. -/
def twoSegmentElf : Elf where
  magic := ELF_MAGIC
  entry := 0x100000
  programs := [⟨ELF_PTYPE_LOAD, 0, 0x1000, 0x100000, 0x800, 0x1000⟩,
    ⟨ELF_PTYPE_LOAD, ELF_PFLAG_WRITE, 0x1800, 0x102000, 0x1200, 0x1C00⟩]
  byte := fun _ => 0

theorem twoSegmentElf_loadable : Loadable smallKernel beforeSetup twoSegmentElf :=
  ⟨kernelMem_kernelTable smallKernel _, rfl, ⟨by decide, by decide, by decide⟩, by decide +kernel⟩

/-- Below 2 MiB the pages get free pages that follow each other. -/
theorem processSetup_faithful_twoSegments : Loadable smallKernel beforeSetup twoSegmentElf ∧
    ∀ byte, ∃ s', processSetup smallKernel beforeSetup 1
        (some { twoSegmentElf with byte := byte }) = .ok s' ∧
      Faithful beforeSetup s' 1 { twoSegmentElf with byte := byte } :=
  ⟨twoSegmentElf_loadable, (processSetup_faithful twoSegmentElf_loadable 1).2 (by decide +kernel)⟩

/-- An executable with one writable segment of two pages of zeros. -/
def twoPageElf (va : ℕ) : Elf :=
  ⟨ELF_MAGIC, va, [⟨ELF_PTYPE_LOAD, ELF_PFLAG_WRITE, 0x1000, va, 0x2000, 0x2000⟩], fun _ => 0⟩

theorem twoPageElf_loadable {va : ℕ} (hva : va = 0x100000 ∨ va = 0x200000) :
    Loadable smallKernel beforeSetup (twoPageElf va) := by
  have hkernel : KernelTable smallKernel beforeSetup.mem := kernelMem_kernelTable smallKernel _
  rcases hva with rfl | rfl
  · exact ⟨hkernel, rfl, ⟨by decide, by decide, by decide⟩, by decide +kernel⟩
  · exact ⟨hkernel, rfl, ⟨by decide, by decide, by decide⟩, by decide +kernel⟩

/-- From 2 MiB on the table comes between the two pages. -/
theorem twoPageElf_not_faithful : Loadable smallKernel beforeSetup (twoPageElf 0x200000) ∧
    ¬ ∃ s', processSetup smallKernel beforeSetup 1 (some (twoPageElf 0x200000)) = .ok s' ∧
      Faithful beforeSetup s' 1 (twoPageElf 0x200000) := by
  refine ⟨twoPageElf_loadable (Or.inr rfl), ?_⟩
  rintro ⟨s', hres, hf⟩
  have hcontig := (twoPageElf_loadable (Or.inr rfl)).contiguous (fun _ => rfl) hres hf
  have hgap : ¬ Contiguous smallKernel beforeSetup (twoPageElf 0x200000).segments := by
    decide +kernel
  exact hgap hcontig

end CProj.WeensyOS
