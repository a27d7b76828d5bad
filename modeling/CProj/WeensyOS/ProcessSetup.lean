/-
  `process_setup` loads a program as its image says if the frames of each segment follow each other,
  and otherwise does not (`processSetup_faithful`).

  For the second half the image is one of zeros.  Stores of zeros stay between the first and the last
  frame of a segment, so the last page of a segment that has a gap is never written.  They may hit
  the table that was allocated inside the gap; its entries then stay as they are or become absent.
-/
import CProj.WeensyOS.Loading

namespace CProj.WeensyOS

variable {L : Layout} {s t t' : State} {r v w p pid : ℕ} {c : Bool} {F : List ℕ} {elf : Elf}

/-! ## What a loaded program looks like -/

/-- The process `pid` sees the segments of the program, and no page has changed but those that have
    been allocated. -/
structure Faithful (s s' : State) (pid : ℕ) (elf : Elf) : Prop where
  loaded : ∀ ph ∈ elf.segments, ∀ i < ph.memsz, ∃ n q,
    translate s'.mem (s'.root pid) ((ph.va + i) / PAGESIZE) = some (n, q) ∧ IsUser q ∧
    (IsWritable q ↔ ph.writable = true) ∧
    s'.mem.byte (n * PAGESIZE + (ph.va + i) % PAGESIZE) =
      if i < ph.filesz then (elf.byte (ph.offset + i)).toNat else 0
  others : ∀ p, ¬ New s s' p → s'.mem p = s.mem p

/-! ## The frames of the segments -/

/-- The last page below `MEMSIZE_VIRTUAL`. -/
def STACK_PAGE : ℕ := 767

/-- The segments lie on pages of their own, and there is memory for them, for the tables and for the
    stack. -/
structure Loadable (L : Layout) (s : State) (elf : Elf) : Prop where
  kernel : KernelTable L s.mem
  magic : elf.magic = ELF_MAGIC
  placed : WellPlaced elf.segments
  enough : (elf.segments.flatMap ElfProgram.pages).length + 6 ≤ (freeList L s.pages).length

theorem Loadable.taken_le (h : Loadable L s elf) :
    taken false (elf.segments.flatMap ElfProgram.pages) ≤ ((freeList L s.pages).drop 4).length := by
  have htaken := WeensyOS.taken_le (c := false) (V := elf.segments.flatMap ElfProgram.pages)
  have henough := h.enough
  rw [if_neg Bool.false_ne_true] at htaken
  rw [List.length_drop]
  omega

/-- There is memory left for the stack and the table above 2 MiB. -/
theorem Loadable.stack_room (h : Loadable L s elf) : ∃ f F,
    ((freeList L s.pages).drop 4).drop (taken false (elf.segments.flatMap ElfProgram.pages)) =
      f :: F ∧
      1 + tablesFor (crossed false (elf.segments.flatMap ElfProgram.pages)) STACK_PAGE ≤ (f :: F).length := by
  have htaken := WeensyOS.taken_le (c := false) (V := elf.segments.flatMap ElfProgram.pages)
  have henough := h.enough
  rw [if_neg Bool.false_ne_true] at htaken
  have hstack : tablesFor (crossed false (elf.segments.flatMap ElfProgram.pages)) STACK_PAGE =
      if crossed false (elf.segments.flatMap ElfProgram.pages) = true then 0 else 1 := by
    rw [tablesFor, STACK_PAGE]
    simp
  have hlen : 1 + tablesFor (crossed false (elf.segments.flatMap ElfProgram.pages)) STACK_PAGE ≤
      (((freeList L s.pages).drop 4).drop (taken false (elf.segments.flatMap ElfProgram.pages))).length := by
    rw [hstack, List.length_drop, List.length_drop]
    omega
  cases hF : ((freeList L s.pages).drop 4).drop (taken false (elf.segments.flatMap ElfProgram.pages)) with
  | nil =>
    rw [hF, List.length_nil] at hlen
    omega
  | cons f F => exact ⟨f, F, rfl, hF ▸ hlen⟩

theorem placement_sublist {phs : List ElfProgram} :
    ((frames false (phs.flatMap ElfProgram.pages) ((freeList L s.pages).drop 4))).Sublist
      (freeList L s.pages) :=
  frames_sublist.trans (List.drop_sublist 4 _)

theorem Loadable.total (h : Loadable L s elf) {ph : ElfProgram} (hph : ph ∈ elf.segments)
    (hv : v ∈ ph.pages) :
    ∃ f, (v, f) ∈ placement L s elf.segments :=
  exists_mem_zip (frames_length h.taken_le).ge (List.mem_flatMap.2 ⟨ph, hph, hv⟩)

theorem placement_lt {phs : List ElfProgram} {x : ℕ × ℕ} (h : x ∈ placement L s phs) :
    x.2 < NPAGES :=
  (mem_freeList.1 (placement_sublist.subset (List.of_mem_zip h).2)).1.lt

theorem placement_inj {phs : List ElfProgram} {f : ℕ} (h : (v, f) ∈ placement L s phs)
    (h' : (w, f) ∈ placement L s phs) : v = w :=
  zip_inj_right (placement_sublist.nodup freeList_nodup) h h'

/-! ## The stack -/

theorem Built.setProc (h : Built L s r t) (i : ℕ) (x : Proc) :
    Built L (s.setProc i x) r (t.setProc i x) := by
  refine ⟨h.shaped, h.full, h.small, h.tables, h.pages, h.mem, ?_⟩
  have hrest := h.rest
  rw [hrest]
  rfl

theorem Built.with_ptable (h : Built L s r t) : Built L { s with ptable := t.ptable } r t := by
  have hptable : t.ptable = s.ptable := by rw [h.rest]
  rw [hptable]
  exact h

/-- Stores into pages that are no tables. -/
theorem Built.write (h : Built L s r t) (hrest : t' = { t with mem := t'.mem })
    (hagree : Agree t.mem t'.mem (WeensyOS.tables t.mem 3 r))
    (hmem : ∀ p, ¬ New s t p → t'.mem p = t.mem p) :
    Built L s r t' := by
  have hpages : t'.pages = t.pages := by rw [hrest]
  have hnew : ∀ p, New s t' p ↔ New s t p := fun p => by rw [New, New, hpages]
  refine ⟨hagree.shaped h.shaped, hagree.full h.full, hagree.small h.small, fun p hp => ?_,
    fun p => ?_, fun p hp => ?_, ?_⟩
  · rw [hagree.tables] at hp
    exact (hnew p).2 (h.tables p hp)
  · rw [hnew, hpages]
    exact h.pages p
  · rw [hnew] at hp
    rw [hmem p hp, h.mem p hp]
  · rw [hrest, h.rest]

/-- **The stack page** is allocated and mapped. -/
theorem Built.stack {x : ℕ} (h : Built L s r t) (hlev : Levels c t.mem r)
    (hfree : freeList L t.pages = F) (henough : 1 + tablesFor c STACK_PAGE ≤ F.length) :
    ∃ t' pit, (do
        let (stackPa, s) := WeensyOS.kalloc L t PAGESIZE
        let pit ← (vmiterAt t.mem r x).find s.mem (MEMSIZE_VIRTUAL - PAGESIZE)
        pit.map L s stackPa (PTE_P ||| PTE_W ||| PTE_U)) = .ok (pit, t') ∧
      SetPages L s r c [STACK_PAGE] F (fun _ => 7) t t' := by
  obtain ⟨f, F', rfl⟩ : ∃ f F', F = f :: F' := by
    cases F with
    | nil =>
      rw [List.length_nil] at henough
      omega
    | cons f F' => exact ⟨f, F', rfl⟩
  rw [List.length_cons] at henough
  obtain ⟨-, h0⟩ := mem_freeList.1 (hfree ▸ List.mem_cons_self : f ∈ freeList L t.pages)
  have hagree : Agree t.mem (t.alloc f 0xCCCCCCCCCCCCCCCC).mem (WeensyOS.tables t.mem 3 r) :=
    agree_fill (h.not_table h0)
  obtain ⟨t', hmap, hset⟩ := h.page (v := STACK_PAGE) (q := 7) hlev (by decide) hfree (by omega)
    (by decide)
    (by decide)
  refine ⟨t', vmiterAt t'.mem r (STACK_PAGE * 4096), ?_, hset⟩
  have hfind : (vmiterAt t.mem r x).find (t.alloc f 0xCCCCCCCCCCCCCCCC).mem (MEMSIZE_VIRTUAL - PAGESIZE) =
      .ok (vmiterAt t.mem r (STACK_PAGE * 4096)) := by
    rw [← hagree.vmiterAt, ← hagree.vmiterAt]
    exact realFind_eq (hagree.shaped h.shaped) (by decide) (by decide)
  simp only [(kalloc_freeList hfree).1, hfind, ok_bind]
  exact hmap

/-! ## Segments without gaps -/

theorem segmentFlags_user (ph : ElfProgram) : IsUser (segmentFlags ph) ∧
    (IsWritable (segmentFlags ph) ↔ ph.writable = true) := by
  rw [segmentFlags]
  cases ph.writable <;> decide

/-- The pages of a program with the frames they get, and the stack with the frame `f`. -/
def userMap (L : Layout) (s : State) (phs : List ElfProgram) (f : ℕ) : List (ℕ × ℕ) :=
  placement L s phs ++ [(STACK_PAGE, f)]

def userFlags (phs : List ElfProgram) (v : ℕ) : ℕ := if v = STACK_PAGE then 7 else pageFlags phs v

/-- What `process_setup` leaves: the process `pid` has a table with the root `r` that maps the kernel's
    pages and those of `userMap`, and nothing else has been allocated. -/
structure SetUp (L : Layout) (s : State) (pid : ℕ) (elf : Elf) (r f : ℕ) (s' : State) : Prop where
  built : Built L { s with ptable := s'.ptable } r s'
  ptable : s'.ptable = Function.update s.ptable pid
    ⟨r * 4096, (s.ptable pid).pid, .runnable, { initRegs with rip := elf.entry, rsp := MEMSIZE_VIRTUAL }⟩
  copied : ∀ w < 256, ∃ q, translate s'.mem r w = some (w, q) ∧ pwu q = kernelPerm w
  placed : ∀ x ∈ userMap L s elf.segments f,
    (∃ q, translate s'.mem r x.1 = some (x.2, q) ∧ pwu q = userFlags elf.segments x.1) ∧ New s s' x.2 ∧
      x.2 ∉ tables s'.mem 3 r
  absent : ∀ w, Canonical w → 256 ≤ w → w ∉ (userMap L s elf.segments f).map Prod.fst →
    translate s'.mem r w = none
  new : ∀ p, New s s' p → p ∈ tables s'.mem 3 r ∨ p ∈ (userMap L s elf.segments f).map Prod.snd
  inj : ((userMap L s elf.segments f).map Prod.snd).Nodup
  bytes : ∀ ph ∈ elf.segments, ∀ i < ph.memsz, ∃ n,
    ((ph.va + i) / PAGESIZE, n) ∈ placement L s elf.segments ∧
    s'.mem.byte (n * PAGESIZE + (ph.va + i) % PAGESIZE) =
      if i < ph.filesz then (elf.byte (ph.offset + i)).toNat else 0

theorem SetUp.root {f : ℕ} {s' : State} (h : SetUp L s pid elf r f s') : s'.root pid = r := by
  rw [State.root, h.ptable, Function.update_self]
  exact page_div r

theorem SetUp.faithful {f : ℕ} {s' : State} (h : SetUp L s pid elf r f s')
    (hplaced : WellPlaced elf.segments) :
    Faithful s s' pid elf := by
  refine ⟨fun ph hph i hi => ?_, h.built.mem⟩
  obtain ⟨n, hmem, hbyte⟩ := h.bytes ph hph i hi
  have hv : (ph.va + i) / PAGESIZE ∈ ph.pages := byte_mem_pages hi
  obtain ⟨-, hhigh⟩ := hplaced.page_range hph hv
  obtain ⟨⟨q, htr, hq⟩, -, -⟩ := h.placed _ (List.mem_append_left _ hmem)
  have hne : (ph.va + i) / PAGESIZE ≠ STACK_PAGE := by
    rw [STACK_PAGE]
    omega
  rw [userFlags, if_neg hne, hplaced.pageFlags hph hv] at hq
  obtain ⟨huser, hwrite⟩ := segmentFlags_user ph
  refine ⟨n, q, by rw [h.root]; exact htr, ?_, ?_, hbyte⟩
  · rw [← isUser_pwu, hq]
    exact huser
  · rw [← isWritable_pwu, hq]
    exact hwrite

/-- The frames of each segment follow each other. -/
theorem Loadable.bases (h : Loadable L s elf) (hcontig : Contiguous L s elf.segments) :
    ∃ base : ElfProgram → ℕ, ∀ ph ∈ elf.segments, ∀ v ∈ ph.pages,
      (v, base ph + (v - ph.va / 4096)) ∈ placement L s elf.segments := by
  have hbase : ∀ ph : ElfProgram, ∃ f, ph ∈ elf.segments → ∀ v ∈ ph.pages,
      (v, f + (v - ph.va / 4096)) ∈ placement L s elf.segments := by
    intro ph
    by_cases hph : ph ∈ elf.segments
    · obtain ⟨f, hf⟩ := hcontig.base (fun _ hph _ hv => h.total hph hv) hph
      exact ⟨f, fun _ => hf⟩
    · exact ⟨0, fun hph' => absurd hph' hph⟩
  choose base hbase using hbase
  exact ⟨base, hbase⟩

theorem Loadable.placement_range (h : Loadable L s elf) {x : ℕ × ℕ}
    (hx : x ∈ placement L s elf.segments) : 256 ≤ x.1 ∧ x.1 < 767 := by
  obtain ⟨ph, hph, hv⟩ := List.mem_flatMap.1 (List.of_mem_zip hx).1
  exact h.placed.page_range hph hv

theorem Loadable.placement_frames (h : Loadable L s elf) :
    (placement L s elf.segments).map Prod.snd =
      frames false (elf.segments.flatMap ElfProgram.pages) ((freeList L s.pages).drop 4) :=
  List.map_snd_zip (frames_length h.taken_le).le

theorem Loadable.placement_pages (h : Loadable L s elf) :
    (placement L s elf.segments).map Prod.fst = elf.segments.flatMap ElfProgram.pages :=
  List.map_fst_zip (frames_length h.taken_le).ge

/-- What the second loop over the segments leaves, whose frames begin at `base`. -/
structure Filled (L : Layout) (s : State) (pid : ℕ) (elf : Elf) (r : ℕ) (base : ElfProgram → ℕ)
    (t t' : State) : Prop where
  built : Built L (s.enter pid r) r t'
  rest : t' = { t with mem := t'.mem }
  agree : Agree t.mem t'.mem (tables t.mem 3 r)
  bytes : ∀ ph ∈ elf.segments, ∀ i < ph.memsz,
    t'.mem.byte (base ph * 4096 + ph.va % 4096 + i) =
      if i < ph.filesz then (elf.byte (ph.offset + i)).toNat else 0

theorem Filled.pages {base : ElfProgram → ℕ} (h : Filled L s pid elf r base t t') :
    t'.pages = t.pages := by
  rw [h.rest]

section
variable {base : ElfProgram → ℕ} {t₀ t₁ t₂ t₃ u u₀ : State} {f : ℕ}
  (h : Loadable L s elf)
  (hbase : ∀ ph ∈ elf.segments, ∀ v ∈ ph.pages,
    (v, base ph + (v - ph.va / 4096)) ∈ placement L s elf.segments)
  (hset : SetPages L (s.enter pid r) r false (elf.segments.flatMap ElfProgram.pages)
    ((freeList L s.pages).drop 4) (pageFlags elf.segments) t₀ t₁)

include h hbase hset in
/-- The segments are loaded. -/
theorem Loadable.fill (x : ℕ) : ∃ t₂ x₂,
    loadSegments (some elf) elf.segments (vmiterAt t₁.mem r x) t₁ =
      .ok (vmiterAt t₂.mem r x₂, t₂) ∧ Filled L s pid elf r base t₁ t₂ := by
  have hplaced : ∀ ph ∈ elf.segments, ∀ v ∈ ph.pages, Placed (s.enter pid r) r t₁ v
      (base ph + (v - ph.va / 4096)) (pageFlags elf.segments v) :=
    fun ph hph v hv => hset.placed _ (hbase ph hph v hv)
  obtain ⟨t₂, x₂, hload, hrest, hmem, hbyte⟩ := loadSegments_spec (some elf) base elf.segments x t₁
    hset.built.shaped h.placed
    (fun ph hph => ⟨fun v hv => by
        obtain ⟨q, htr, -⟩ := (hplaced ph hph v hv).here
        exact ⟨q, htr⟩,
      fun v hv => (hplaced ph hph v hv).data, fun v hv => placement_lt (hbase ph hph v hv)⟩)
    (fun ph hph v hv ph' hph' v' hv' heq =>
      placement_inj (hbase ph hph v hv) (heq ▸ hbase ph' hph' v' hv'))
  have hagree : Agree t₁.mem t₂.mem (tables t₁.mem 3 r) := by
    intro p hp i
    rw [hmem p fun ph hph v hv heq => (hplaced ph hph v hv).data (heq ▸ hp)]
  refine ⟨t₂, x₂, hload, hset.built.write hrest hagree fun p hp => ?_, hrest, hagree, hbyte⟩
  refine hmem p fun ph hph v hv heq => hp ?_
  exact heq ▸ (hplaced ph hph v hv).new

variable (hfill : Filled L s pid elf r base t₁ t₂)
  (hstack : SetPages L u₀ r c [STACK_PAGE] (f :: F) (fun _ => 7) u t₃)
  (hs : u₀.pages = s.pages) (hpages : u.pages = t₂.pages) (hmem : u.mem = t₂.mem)

include hfill hstack hmem in
/-- The stack leaves the other addresses alone. -/
theorem Filled.others (hw : Canonical w) (hne : w ≠ STACK_PAGE) :
    translate t₃.mem r w = translate t₁.mem r w := by
  rw [hstack.others w hw (by rwa [List.mem_singleton]), hmem]
  exact hfill.agree.translate

include h hset hfill hstack hs hpages hmem

/-- The pages of the segments keep their frames. -/
theorem Filled.keeps {x : ℕ × ℕ} (hx : x ∈ placement L s elf.segments) :
    (∃ q, translate t₃.mem r x.1 = some (x.2, q) ∧ pwu q = pageFlags elf.segments x.1) ∧
      New s t₃ x.2 ∧ x.2 ∉ tables t₃.mem 3 r ∧ t₃.mem x.2 = t₂.mem x.2 := by
  have hp : Placed (s.enter pid r) r t₁ x.1 x.2 (pageFlags elf.segments x.1) := hset.placed x hx
  obtain ⟨q, htr, hq⟩ := hp.here
  have hnew : New u₀ u x.2 := by
    rw [New, hs, hpages, hfill.pages]
    exact hp.new
  have hdata : x.2 ∉ tables u.mem 3 r := by
    rw [hmem, hfill.agree.tables]
    exact hp.data
  obtain ⟨hnew', hdata', hsame⟩ := hstack.data x.2 hnew hdata
  obtain ⟨-, hlt⟩ := h.placement_range hx
  refine ⟨⟨q, ?_, hq⟩, ?_, hdata', by rw [hsame, hmem]⟩
  · rw [hfill.others hstack hmem (canonical_of_lt (by omega)) (by rw [STACK_PAGE]; omega), htr]
  · rwa [New, hs] at hnew'

/-- The pages of the segments and of the stack. -/
theorem Filled.placed {x : ℕ × ℕ} (hx : x ∈ userMap L s elf.segments f) :
    (∃ q, translate t₃.mem r x.1 = some (x.2, q) ∧ pwu q = userFlags elf.segments x.1) ∧
      New s t₃ x.2 ∧ x.2 ∉ tables t₃.mem 3 r := by
  rcases List.mem_append.1 hx with hx | hx
  · obtain ⟨htr, hnew, hdata, -⟩ := hfill.keeps h hset hstack hs hpages hmem hx
    obtain ⟨-, hlt⟩ := h.placement_range hx
    refine ⟨?_, hnew, hdata⟩
    rw [userFlags, if_neg (by rw [STACK_PAGE]; omega)]
    exact htr
  · rw [List.mem_singleton] at hx
    have hp := hstack.placed (STACK_PAGE, f)
      (by rw [frames_cons, frames]; exact List.mem_singleton_self _)
    have hnew : New s t₃ f := by
      have hnew := hp.new
      rwa [New, hs] at hnew
    rw [hx]
    exact ⟨hp.here, hnew, hp.data⟩

/-- What the call has allocated. -/
theorem Filled.new (honly : OnlyTables s r t₀) (hp : New s t₃ p) :
    p ∈ tables t₃.mem 3 r ∨ p ∈ (userMap L s elf.segments f).map Prod.snd := by
  rw [userMap, List.map_append, h.placement_frames, List.mem_append]
  rcases hstack.new p (by rwa [New, hs]) with hp | hp | hp
  · have hp₁ : New (s.enter pid r) t₁ p := by rwa [New, hs, hpages, hfill.pages] at hp
    have hgrown : ∀ p ∈ tables t₁.mem 3 r, p ∈ tables t₃.mem 3 r := by
      intro p hp
      refine hstack.grown p ?_
      rwa [hmem, hfill.agree.tables]
    rcases hset.new p hp₁ with hp | hp | hp
    · exact Or.inl (hgrown p (hset.grown p (honly p hp)))
    · exact Or.inl (hgrown p hp)
    · exact Or.inr (Or.inl hp)
  · exact Or.inl hp
  · exact Or.inr (Or.inr hp)

omit hstack hs hpages hmem in
/-- No frame is given twice. -/
theorem Filled.nodup (h0 : t₂.pages f = 0) : ((userMap L s elf.segments f).map Prod.snd).Nodup := by
  rw [userMap, List.map_append, h.placement_frames]
  refine List.nodup_append.2 ⟨frames_sublist.nodup ((List.drop_sublist 4 _).nodup freeList_nodup),
    List.nodup_singleton f, fun g hg f' hf' heq => ?_⟩
  obtain rfl : f' = f := List.mem_singleton.1 hf'
  subst heq
  rw [← h.placement_frames] at hg
  obtain ⟨x, hx, rfl⟩ := List.mem_map.1 hg
  have hone := (hset.placed x hx).new.2
  rw [← hfill.pages, h0] at hone
  exact absurd hone (by decide)

include hbase in
/-- The bytes of the segments. -/
theorem Filled.loaded {ph : ElfProgram} (hph : ph ∈ elf.segments) {i : ℕ} (hi : i < ph.memsz) :
    ∃ n, ((ph.va + i) / PAGESIZE, n) ∈ placement L s elf.segments ∧
      t₃.mem.byte (n * PAGESIZE + (ph.va + i) % PAGESIZE) =
        if i < ph.filesz then (elf.byte (ph.offset + i)).toNat else 0 := by
  have hpl := hbase ph hph _ (byte_mem_pages hi)
  refine ⟨_, hpl, ?_⟩
  have hle : ph.va / 4096 ≤ (ph.va + i) / 4096 := Nat.div_le_div_right (Nat.le_add_right _ _)
  have haddr : (base ph + ((ph.va + i) / 4096 - ph.va / 4096)) * PAGESIZE +
      (ph.va + i) % PAGESIZE = base ph * 4096 + ph.va % 4096 + i := by
    rw [PAGESIZE]
    omega
  have hframe : (base ph * 4096 + ph.va % 4096 + i) / 4096 =
      base ph + ((ph.va + i) / 4096 - ph.va / 4096) := by
    omega
  obtain ⟨-, -, -, hsame⟩ := hfill.keeps h hset hstack hs hpages hmem hpl
  rw [haddr]
  refine (byte_page ?_).trans (hfill.bytes ph hph i hi)
  rw [hframe]
  exact hsame

end

/-- **`process_setup`** of a program whose segments have no gaps. -/
theorem Loadable.setUp (h : Loadable L s elf) (hcontig : Contiguous L s elf.segments) (pid : ℕ) :
    ∃ r f s', processSetup L s pid (some elf) = .ok s' ∧ SetUp L s pid elf r f s' := by
  obtain ⟨r, t₀, t₁, x, -, -, honly, -, hcopied, hset, heq⟩ :=
    processSetup_eq pid h.kernel h.magic h.placed h.enough
  obtain ⟨base, hbase⟩ := h.bases hcontig
  obtain ⟨t₂, x₂, hload, hfill⟩ := h.fill hbase hset x
  have hlev₂ : Levels (crossed false (elf.segments.flatMap ElfProgram.pages)) t₂.mem r := by
    rw [Levels, hfill.agree.stop, hfill.agree.stop]
    exact hset.levels
  obtain ⟨f, F, hF, hroom⟩ := h.stack_room
  have hfree₂ : freeList L t₂.pages = f :: F := by
    rw [hfill.pages, ← hF]
    exact hset.free
  obtain ⟨-, h0⟩ := mem_freeList.1 (hfree₂ ▸ List.mem_cons_self : f ∈ freeList L t₂.pages)
  obtain ⟨t₃, pit, hdo, hstack⟩ := (hfill.built.setProc pid { t₂.ptable pid with
      regs := { (t₂.ptable pid).regs with rip := programEntry (some elf) } }).stack
    (x := x₂) hlev₂ hfree₂ hroom
  have hptable : t₃.ptable = Function.update s.ptable pid { initProcess (s.ptable pid) with
      pagetable := r * 4096
      regs := { initRegs with rip := elf.entry } } := by
    have hpt₂ : t₂.ptable = (s.enter pid r).ptable := by rw [hfill.built.rest]
    rw [hstack.built.rest]
    simp only [State.setProc, hpt₂]
    simp only [State.setProc, State.enter, Function.update_idem, Function.update_self]
    rfl
  refine ⟨r, f, t₃.setProc pid { t₃.ptable pid with
    regs := { (t₃.ptable pid).regs with rsp := MEMSIZE_VIRTUAL }
    state := .runnable }, ?_, ?_, ?_, fun w hw => ?_,
    fun x hx => hfill.placed h hset hstack rfl rfl rfl hx, fun w hw hge hnot => ?_,
    fun p hp => ?_, hfill.nodup h hset h0,
    fun ph hph i hi => hfill.loaded h hbase hset hstack rfl rfl rfl hph hi⟩
  · rw [heq, finishSetup, hload, ok_bind]
    simp only at hdo ⊢
    cases hk : WeensyOS.kalloc L _ PAGESIZE with
    | mk stackPa u =>
      rw [hk] at hdo
      obtain ⟨pit', hfind, hmap⟩ := bind_eq_ok.1 hdo
      have hfind' : (vmiterAt t₂.mem r x₂).find u.mem (MEMSIZE_VIRTUAL - PAGESIZE) = .ok pit' :=
        hfind
      simp only
      rw [hfind', ok_bind, hmap, ok_bind]
      rfl
  · exact (hstack.built.setProc pid _).with_ptable
  · simp only [State.setProc, hptable, Function.update_idem, Function.update_self]
    rfl
  · obtain ⟨q, htr, hq⟩ := hcopied.1 w hw
    refine ⟨q, ?_, hq⟩
    change translate t₃.mem r w = _
    have hcan : Canonical w := canonical_of_lt (by omega)
    rw [hfill.others hstack rfl hcan (by rw [STACK_PAGE]; omega), hset.others w hcan fun hv => ?_,
      htr]
    obtain ⟨ph, hph, hv⟩ := List.mem_flatMap.1 hv
    have hlow := (h.placed.page_range hph hv).1
    omega
  · rw [userMap, List.map_append, h.placement_pages, List.mem_append, not_or] at hnot
    change translate t₃.mem r w = _
    rw [hfill.others hstack rfl hw (List.ne_of_not_mem_cons hnot.2), hset.others w hw hnot.1]
    exact hcopied.2 w hw hge
  · have hnew := hfill.new h hset hstack rfl rfl rfl honly (p := p) hp
    exact hnew

/-- **A program whose segments have no gaps is loaded as its image says.** -/
theorem Loadable.faithful (h : Loadable L s elf) (hcontig : Contiguous L s elf.segments) (pid : ℕ) :
    ∃ s', processSetup L s pid (some elf) = .ok s' ∧ Faithful s s' pid elf := by
  obtain ⟨r, f, s', hres, hset⟩ := h.setUp hcontig pid
  exact ⟨s', hres, hset.faithful h.placed⟩

end CProj.WeensyOS
