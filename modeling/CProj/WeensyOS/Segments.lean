/-
  Where `process_setup` puts the segments of a program.

  The segments' pages are allocated in the order of the program (`placement`): one free page for
  each of them, and one more for the table that the first page above 2 MiB needs.
-/
import CProj.WeensyOS.Frames

namespace CProj.WeensyOS

variable {L : Layout} {s t t' : State} {r v w f q : ℕ} {c : Bool} {F V : List ℕ}

/-! ## Frames -/

/-- The pages that `process_setup` allocates for a segment. -/
def ElfProgram.pages (ph : ElfProgram) : List ℕ :=
  List.range' (ph.va / PAGESIZE) ((ph.va + ph.memsz + PAGESIZE - 1) / PAGESIZE - ph.va / PAGESIZE)

/-- The frames that the pages `V` get from the free pages `F`; `c` tells whether there is a table
    above 2 MiB already. -/
def frames : Bool → List ℕ → List ℕ → List ℕ
  | _, [], _ => []
  | _, _ :: _, [] => []
  | c, v :: V, f :: F => f :: frames (c || decide (512 ≤ v)) V (F.drop (tablesFor c v))

/-- The number of free pages that the pages `V` take, with their table. -/
def taken : Bool → List ℕ → ℕ
  | _, [] => 0
  | c, v :: V => 1 + tablesFor c v + taken (c || decide (512 ≤ v)) V

/-- There is a table above 2 MiB after the pages `V`. -/
def crossed (c : Bool) (V : List ℕ) : Bool := c || V.any fun v => 512 ≤ v

/-- The frames of the segments' pages, when four pages have been taken for the tables. -/
def placement (L : Layout) (s : State) (phs : List ElfProgram) : List (ℕ × ℕ) :=
  let V := phs.flatMap ElfProgram.pages
  V.zip (frames false V ((freeList L s.pages).drop 4))

/-- The pages of every segment get frames that follow each other. -/
def Contiguous (L : Layout) (s : State) (phs : List ElfProgram) : Prop :=
  ∀ ph ∈ phs, ∀ x ∈ placement L s phs, ∀ y ∈ placement L s phs,
    x.1 ∈ ph.pages → y.1 ∈ ph.pages → y.1 = x.1 + 1 → y.2 = x.2 + 1

instance (L : Layout) (s : State) (phs : List ElfProgram) : Decidable (Contiguous L s phs) :=
  inferInstanceAs (Decidable (∀ _ ∈ _, _))

theorem crossed_cons : crossed c (v :: V) = crossed (c || decide (512 ≤ v)) V := by
  rw [crossed, crossed, List.any_cons, Bool.or_assoc]

theorem crossed_append {V' : List ℕ} : crossed c (V ++ V') = crossed (crossed c V) V' := by
  rw [crossed, crossed, crossed, List.any_append, Bool.or_assoc]

theorem taken_append {V' : List ℕ} : taken c (V ++ V') = taken c V + taken (crossed c V) V' := by
  induction V generalizing c with
  | nil => rw [List.nil_append, crossed, List.any_nil, Bool.or_false, taken, Nat.zero_add]
  | cons v V ih =>
    rw [List.cons_append, taken, taken, ih, crossed_cons]
    omega

theorem frames_cons {f : ℕ} : frames c (v :: V) (f :: F) =
    f :: frames (c || decide (512 ≤ v)) V (F.drop (tablesFor c v)) := rfl

theorem frames_append {V' : List ℕ} (h : taken c V ≤ F.length) :
    frames c (V ++ V') F = frames c V F ++ frames (crossed c V) V' (F.drop (taken c V)) := by
  induction V generalizing c F with
  | nil => rw [List.nil_append, crossed, List.any_nil, Bool.or_false, taken, List.drop_zero, frames,
      List.nil_append]
  | cons v V ih =>
    rw [taken] at h
    cases F with
    | nil =>
      rw [List.length_nil] at h
      omega
    | cons f F =>
      rw [List.length_cons] at h
      rw [List.cons_append, frames_cons, frames_cons, ih (by rw [List.length_drop]; omega), taken,
        crossed_cons, List.drop_drop, List.cons_append,
        show 1 + tablesFor c v + taken (c || decide (512 ≤ v)) V =
          tablesFor c v + taken (c || decide (512 ≤ v)) V + 1 by omega, List.drop_succ_cons]

theorem frames_length (h : taken c V ≤ F.length) : (frames c V F).length = V.length := by
  induction V generalizing c F with
  | nil => rfl
  | cons v V ih =>
    rw [taken] at h
    cases F with
    | nil =>
      rw [List.length_nil] at h
      omega
    | cons f F =>
      rw [List.length_cons] at h
      rw [frames_cons, List.length_cons, List.length_cons, ih (by rw [List.length_drop]; omega)]

/-- Pages take the free pages in order. -/
theorem frames_sublist : (frames c V F).Sublist F := by
  induction V generalizing c F with
  | nil => exact List.nil_sublist F
  | cons v V ih =>
    cases F with
    | nil => exact List.nil_sublist []
    | cons f F => exact (ih.trans (List.drop_sublist _ F)).cons_cons f

theorem taken_le : taken c V + (if crossed c V then 0 else 1) ≤ V.length + if c then 0 else 1 := by
  induction V generalizing c with
  | nil => rw [crossed, List.any_nil, Bool.or_false, taken, List.length_nil]
  | cons v V ih =>
    have h := ih (c := c || decide (512 ≤ v))
    rw [taken, crossed_cons, List.length_cons, tablesFor]
    by_cases hv : 512 ≤ v
    · rw [decide_eq_true hv, Bool.or_true] at h ⊢
      cases c with
      | false => simp [show ¬ v < 512 by omega] at h ⊢; omega
      | true => simp at h ⊢; omega
    · rw [decide_eq_false hv, Bool.or_false] at h ⊢
      rw [if_pos (Or.inl (by omega))]
      omega

/-! ## One page -/

/-- The page is a table of level 0. -/
def Leaf (m : Mem) (r p : ℕ) : Prop := ∃ v, (stop m r v).page = p ∧ (stop m r v).level = 0

/-- The page `v` has been given the new frame `f`, which `kalloc` has filled. -/
structure Placed (s : State) (r : ℕ) (t : State) (v f q : ℕ) : Prop where
  here : ∃ q', translate t.mem r v = some (f, q') ∧ pwu q' = q
  new : New s t f
  data : f ∉ tables t.mem 3 r
  fresh : ∀ i, t.mem f i = 0xCCCCCCCCCCCCCCCC

/-- The pages `V` have been given frames, in order, from the free pages `F`. -/
structure SetPages (L : Layout) (s : State) (r : ℕ) (c : Bool) (V F : List ℕ) (q : ℕ → ℕ) (t t' : State) :
    Prop where
  built : Built L s r t'
  levels : Levels (crossed c V) t'.mem r
  free : freeList L t'.pages = F.drop (taken c V)
  placed : ∀ x ∈ V.zip (frames c V F), Placed s r t' x.1 x.2 (q x.1)
  data : ∀ f, New s t f → f ∉ WeensyOS.tables t.mem 3 r →
    New s t' f ∧ f ∉ WeensyOS.tables t'.mem 3 r ∧ t'.mem f = t.mem f
  others : ∀ w, Canonical w → w ∉ V → translate t'.mem r w = translate t.mem r w
  tables : ∀ p ∈ WeensyOS.tables t'.mem 3 r, p ∈ WeensyOS.tables t.mem 3 r ∨ Leaf t'.mem r p
  leaves : ∀ w, (stop t.mem r w).level = 0 → stop t'.mem r w = stop t.mem r w
  grown : ∀ p ∈ WeensyOS.tables t.mem 3 r, p ∈ WeensyOS.tables t'.mem 3 r
  new : ∀ p, New s t' p → New s t p ∨ p ∈ WeensyOS.tables t'.mem 3 r ∨ p ∈ frames c V F

theorem SetPages.nil {q : ℕ → ℕ} (h : Built L s r t) (hlev : Levels c t.mem r)
    (hfree : freeList L t.pages = F) : SetPages L s r c [] F q t t := by
  refine ⟨h, ?_, hfree, fun x hx => absurd hx List.not_mem_nil, fun f hf hnot => ⟨hf, hnot, rfl⟩,
    fun _ _ _ => rfl, fun p hp => Or.inl hp, fun _ _ => rfl, fun _ hp => hp, fun _ hp => Or.inl hp⟩
  rw [crossed, List.any_nil, Bool.or_false]
  exact hlev

/-- The other pages keep their frames. -/
theorem SetPages.keeps {q : ℕ → ℕ} {p : ℕ} (h : SetPages L s r c V F q t t') (hv : Canonical v)
    (hnot : v ∉ V)
    (hp : Placed s r t v f p) : Placed s r t' v f p := by
  obtain ⟨q', htr, hpwu⟩ := hp.here
  obtain ⟨hnew, hdata, hmem⟩ := h.data f hp.new hp.data
  refine ⟨⟨q', ?_, hpwu⟩, hnew, hdata, fun i => ?_⟩
  · rw [h.others v hv hnot, htr]
  · rw [hmem]
    exact hp.fresh i

theorem SetPages.trans {t'' : State} {V' : List ℕ} {q : ℕ → ℕ} (h : SetPages L s r c V F q t t')
    (h' : SetPages L s r (crossed c V) V' (F.drop (taken c V)) q t' t'')
    (htaken : taken c V ≤ F.length)
    (hdisj : ∀ v ∈ V, v ∉ V') (hV : ∀ v ∈ V, Canonical v) :
    SetPages L s r c (V ++ V') F q t t'' := by
  refine ⟨h'.built, ?_, ?_, fun x hx => ?_, fun f hf hdata => ?_, fun w hw hnot => ?_,
    fun p hp => ?_, fun w hw => ?_, fun p hp => h'.grown p (h.grown p hp), fun p hp => ?_⟩
  · rw [crossed_append]
    exact h'.levels
  · rw [taken_append, h'.free, List.drop_drop]
  · rw [frames_append htaken, List.zip_append (frames_length htaken).symm] at hx
    rcases List.mem_append.1 hx with hx | hx
    · have hmem := List.of_mem_zip hx
      exact h'.keeps (hV _ hmem.1) (hdisj _ hmem.1) (h.placed x hx)
    · exact h'.placed x hx
  · obtain ⟨hf', hdata', hmem⟩ := h.data f hf hdata
    obtain ⟨hf'', hdata'', hmem'⟩ := h'.data f hf' hdata'
    exact ⟨hf'', hdata'', hmem'.trans hmem⟩
  · rw [List.mem_append, not_or] at hnot
    exact (h'.others w hw hnot.2).trans (h.others w hw hnot.1)
  · rcases h'.tables p hp with hp | hleaf
    · refine (h.tables p hp).imp_right ?_
      rintro ⟨w, hpage, hl⟩
      exact ⟨w, by rw [h'.leaves w hl, hpage], by rw [h'.leaves w hl, hl]⟩
    · exact Or.inr hleaf
  · have hw' := h.leaves w hw
    exact (h'.leaves w (by rw [hw', hw])).trans hw'
  · rw [frames_append htaken, List.mem_append]
    rcases h'.new p hp with hp | hp | hp
    · exact (h.new p hp).imp_right (Or.imp (h'.grown p) Or.inl)
    · exact Or.inr (Or.inl hp)
    · exact Or.inr (Or.inr (Or.inr hp))

/-- What a frame that is in use keeps while a page is mapped. -/
theorem MapStep.keep {n q g : ℕ} {G : List ℕ} (h : MapStep L s r v n q G F t t')
    (hG : ∀ p ∈ G, t.pages p = 0) (hone : t.pages g = 1) (hg : g ∉ WeensyOS.tables t.mem 3 r) :
    g ∉ WeensyOS.tables t'.mem 3 r ∧ t'.mem g = t.mem g ∧ t'.pages g = 1 := by
  have hgG : g ∉ G := by
    intro hmem
    rw [hG g hmem] at hone
    exact absurd hone (by decide)
  refine ⟨fun hmem => ((h.tables g).1 hmem).elim hg hgG, h.mem g hg hgG, ?_⟩
  rw [h.pages, if_neg hgG, hone]

/-- A new table that is the only one is of level 0. -/
theorem MapStep.leaf {n q : ℕ} {G : List ℕ} (h : MapStep L s r v n q G F t t') (hlen : G.length ≤ 1)
    (hl : (stop t'.mem r v).level = 0) (hp : p ∈ G) : Leaf t'.mem r p := by
  cases G with
  | nil => exact absurd hp List.not_mem_nil
  | cons g G =>
    rw [List.length_cons] at hlen
    obtain rfl : G = [] := List.length_eq_zero_iff.1 (by omega)
    rw [List.mem_singleton.1 hp]
    exact ⟨v, h.last g rfl, hl⟩

/-- **A page of a segment** is allocated and mapped. -/
theorem Built.page (h : Built L s r t) (hlev : Levels c t.mem r) (hv : v < 1024)
    (hfree : freeList L t.pages = f :: F) (henough : tablesFor c v ≤ F.length) (hq : q % 2 = 1)
    (hq' : q < 8) :
    ∃ t', (vmiterAt t.mem r (v * 4096)).map L (t.alloc f 0xCCCCCCCCCCCCCCCC) (f * 4096) q =
        .ok (vmiterAt t'.mem r (v * 4096), t') ∧ SetPages L s r c [v] (f :: F) (fun _ => q) t t' := by
  obtain ⟨hf, h0⟩ := mem_freeList.1 (hfree ▸ List.mem_cons_self : f ∈ freeList L t.pages)
  have hnot := h.not_table h0
  have hagree : Agree t.mem (t.alloc f 0xCCCCCCCCCCCCCCCC).mem (WeensyOS.tables t.mem 3 r) :=
    agree_fill hnot
  have hb := h.kalloc hfree 0xCCCCCCCCCCCCCCCC
  have hfree' : freeList L (t.alloc f 0xCCCCCCCCCCCCCCCC).pages =
      F.take (tablesFor c v) ++ F.drop (tablesFor c v) := by
    rw [List.take_append_drop]
    exact (kalloc_freeList hfree).2 _
  have hlev' : Levels c (t.alloc f 0xCCCCCCCCCCCCCCCC).mem r := by
    rw [Levels, hagree.stop, hagree.stop]
    exact hlev
  have hlt : f < 2 ^ 20 := hf.lt.trans (by decide)
  obtain ⟨t', hmap, hstep, hlev''⟩ := hb.mapNext hlev' hv hfree'
    (by rw [List.length_take]; exact min_eq_left henough) hlt hq (by omega)
  rw [hagree.vmiterAt] at hmap
  have hG : ∀ p ∈ F.take (tablesFor c v), (t.alloc f 0xCCCCCCCCCCCCCCCC).pages p = 0 := fun p hp =>
    (mem_freeList.1 (hfree' ▸ List.mem_append_left _ hp :
      p ∈ freeList L (t.alloc f 0xCCCCCCCCCCCCCCCC).pages)).2
  refine ⟨t', hmap, hstep.built, ?_, ?_, fun x hx => ?_, fun g hg hdata => ?_, fun w hw hne => ?_,
    fun p hp => ?_, fun w hw => ?_, fun p hp => ?_, fun p hp => ?_⟩
  · rw [crossed, List.any_cons, List.any_nil, Bool.or_false]
    exact hlev''
  · rw [hstep.free, taken, taken, Nat.add_zero, Nat.add_comm, List.drop_succ_cons]
  · rw [frames_cons, frames] at hx
    rw [List.zip_cons_cons, List.zip_nil_left, List.mem_singleton] at hx
    rw [hx]
    obtain ⟨q', htr, hpwu⟩ := hstep.here
    obtain ⟨hdata, hmem, hone⟩ := hstep.keep (g := f) hG (by simp [State.alloc])
      (by rw [hagree.tables]; exact hnot)
    refine ⟨⟨q', htr, ?_⟩, ⟨h.free_before h0, hone⟩, hdata, fun i => ?_⟩
    · rw [hpwu, pwu_eq]
      exact Nat.mod_eq_of_lt hq'
    · rw [hmem]
      exact fill_self
  · have hgf : g ≠ f := by
      rintro rfl
      have h1 := hg.2
      rw [h0] at h1
      exact absurd h1 (by decide)
    obtain ⟨hdata', hmem, hone⟩ := hstep.keep (g := g) hG
      (by simp only [State.alloc, Function.update_of_ne hgf]; exact hg.2)
      (by rw [hagree.tables]; exact hdata)
    exact ⟨⟨hg.1, hone⟩, hdata', hmem.trans (funext (fill_of_ne hgf))⟩
  · rw [List.mem_singleton] at hne
    rw [hstep.others w hw hne, hagree.translate]
  · refine ((hstep.tables p).1 hp).imp (fun hp => by rwa [hagree.tables] at hp) fun hpG => ?_
    -- there is at most one new table
    have hone : (F.take (tablesFor c v)).length ≤ 1 := by
      rw [List.length_take, tablesFor]
      split_ifs <;> omega
    have hl : (stop t'.mem r v).level = 0 := by
      rw [hlev''.level hv, tablesFor]
      by_cases hlow : v < 512
      · exact if_pos (Or.inl hlow)
      · exact if_pos (Or.inr (by rw [decide_eq_true (by omega), Bool.or_true]))
    exact hstep.leaf hone hl hpG
  · rw [← hagree.stop] at hw
    rw [hstep.leaves w hw, hagree.stop]
  · exact (hstep.tables p).2 (Or.inl (by rwa [hagree.tables]))
  · rw [frames_cons, frames, List.mem_singleton]
    rcases hstep.new hp with hp | hp
    · by_cases hpf : p = f
      · exact Or.inr (Or.inr hpf)
      · refine Or.inl ⟨hp.1, ?_⟩
        rw [← hp.2]
        exact (Function.update_of_ne hpf _ _).symm
    · exact Or.inr (Or.inl hp)

/-! ## The first loop over the segments -/

theorem segmentFlags_bits (ph : ElfProgram) : segmentFlags ph % 2 = 1 ∧ segmentFlags ph < 8 := by
  rw [segmentFlags]
  split_ifs <;> decide

theorem SetPages.congr {q : ℕ → ℕ} (q' : ℕ → ℕ) (h : SetPages L s r c V F q t t')
    (hq : ∀ v ∈ V, q v = q' v) :
    SetPages L s r c V F q' t t' := by
  refine ⟨h.built, h.levels, h.free, fun x hx => ?_, h.data, h.others, h.tables, h.leaves, h.grown,
    h.new⟩
  rw [← hq _ (List.of_mem_zip hx).1]
  exact h.placed x hx

/-- **The loop over the pages of a segment.** -/
theorem allocPages_spec (ph : ElfProgram) (hover : ph.va + ph.memsz < 2 ^ 64) (n : ℕ) :
    ∀ (v fuel x : ℕ) (c : Bool) (F : List ℕ) (t : State), v + n = (ph.va + ph.memsz + 4095) / 4096 →
    n < fuel → v + n ≤ 1024 → x < 2 ^ 40 → Built L s r t → Levels c t.mem r →
      freeList L t.pages = F →
    taken c (List.range' v n) ≤ F.length →
    ∃ t' x', allocPages L ph fuel (v * 4096) (vmiterAt t.mem r x) t =
      .ok (vmiterAt t'.mem r x', t') ∧
      x' < 2 ^ 40 ∧ SetPages L s r c (List.range' v n) F (fun _ => segmentFlags ph) t t' := by
  have hend : vaAdd ph.va ph.memsz = ph.va + ph.memsz := Nat.mod_eq_of_lt hover
  induction n with
  | zero =>
    intro v fuel x c F t hv hfuel _ hx h hlev hfree _
    obtain ⟨k, rfl⟩ : ∃ k, fuel = k + 1 := ⟨_, (Nat.succ_pred_eq_of_pos hfuel).symm⟩
    refine ⟨t, x, ?_, hx, .nil h hlev hfree⟩
    rw [allocPages, if_neg]
    rw [hend]
    omega
  | succ n ih =>
    intro v fuel x c F t hv hfuel hlt hx h hlev hfree henough
    obtain ⟨k, rfl⟩ : ∃ k, fuel = k + 1 := ⟨_, (Nat.succ_pred_eq_of_pos (by omega)).symm⟩
    rw [List.range'_succ, taken] at henough
    obtain ⟨f, F', rfl⟩ : ∃ f F', F = f :: F' := by
      cases F with
      | nil =>
        rw [List.length_nil] at henough
        omega
      | cons f F' => exact ⟨f, F', rfl⟩
    rw [List.length_cons] at henough
    obtain ⟨hf, h0⟩ := mem_freeList.1 (hfree ▸ List.mem_cons_self : f ∈ freeList L t.pages)
    have hagree : Agree t.mem (t.alloc f 0xCCCCCCCCCCCCCCCC).mem (tables t.mem 3 r) :=
      agree_fill (h.not_table h0)
    obtain ⟨hodd, hflags⟩ := segmentFlags_bits ph
    obtain ⟨t₁, hmap, hset⟩ := h.page (v := v) hlev (by omega) hfree (by omega) hodd hflags
    have hdrop : (f :: F').drop (taken c [v]) = F'.drop (tablesFor c v) := by
      rw [taken, taken, Nat.add_zero, Nat.add_comm, List.drop_succ_cons]
    have hcross : crossed c [v] = (c || decide (512 ≤ v)) := by
      rw [crossed, List.any_cons, List.any_nil, Bool.or_false]
    have hfree₁ := hset.free
    have hlev₁ := hset.levels
    rw [hdrop] at hfree₁
    rw [hcross] at hlev₁
    obtain ⟨t', x', hloop, hx', hrest⟩ := ih (v + 1) k (v * 4096) _ _ t₁ (by omega) (by omega)
      (by omega) (by omega)
      hset.built hlev₁ hfree₁ (by rw [List.length_drop]; omega)
    refine ⟨t', x', ?_, hx', ?_⟩
    · have hnext : vaAdd (v * 4096) PAGESIZE = (v + 1) * 4096 := by
        rw [vaAdd, PAGESIZE]
        omega
      rw [allocPages, if_pos (by rw [hend]; omega), (kalloc_freeList hfree).1]
      simp only [Vmiter.find]
      rw [← hagree.vmiterAt, realFind_eq (hagree.shaped h.shaped) (canonical_of_lt (by omega)) (by omega),
        ok_bind, hagree.vmiterAt, hmap, ok_bind]
      simp only
      rw [hnext]
      exact hloop
    · rw [← hdrop, ← hcross] at hrest
      rw [List.range'_succ]
      refine hset.trans hrest ?_ ?_ ?_
      · rw [taken, taken, List.length_cons]
        omega
      · intro w hw
        rw [List.mem_singleton.1 hw, List.mem_range'_1]
        omega
      · intro w hw
        rw [List.mem_singleton.1 hw]
        exact canonical_of_lt (by omega)

/-- The segments lie where a program may be loaded, on pages of their own. -/
structure WellPlaced (phs : List ElfProgram) : Prop where
  range : ∀ ph ∈ phs, PROC_START_ADDR ≤ ph.va ∧ ph.va + ph.memsz ≤ MEMSIZE_VIRTUAL - PAGESIZE
  disjoint : (phs.flatMap ElfProgram.pages).Nodup
  filesz_le : ∀ ph ∈ phs, ph.filesz ≤ ph.memsz

theorem WellPlaced.tail {ph : ElfProgram} {phs : List ElfProgram} (h : WellPlaced (ph :: phs)) :
    WellPlaced phs := by
  refine ⟨fun x hx => h.range x (List.mem_cons_of_mem _ hx), ?_,
    fun x hx => h.filesz_le x (List.mem_cons_of_mem _ hx)⟩
  have hdisj := h.disjoint
  rw [List.flatMap_cons] at hdisj
  exact (List.nodup_append.1 hdisj).2.1

theorem mem_pages {ph : ElfProgram} : v ∈ ph.pages ↔
    ph.va / 4096 ≤ v ∧ v < (ph.va + ph.memsz + 4095) / 4096 := by
  rw [ElfProgram.pages, PAGESIZE, List.mem_range'_1]
  omega

theorem WellPlaced.page_range {phs : List ElfProgram} (h : WellPlaced phs) {ph : ElfProgram}
    (hph : ph ∈ phs)
    (hv : v ∈ ph.pages) : 256 ≤ v ∧ v < 767 := by
  have hr := h.range ph hph
  rw [mem_pages] at hv
  simp only [PROC_START_ADDR, MEMSIZE_VIRTUAL, PAGESIZE] at hr
  omega

/-- **The first loop over the segments.** -/
theorem allocSegments_spec {q : ℕ → ℕ} (phs : List ElfProgram) :
    ∀ (x : ℕ) (c : Bool) (F : List ℕ) (t : State),
    WellPlaced phs → (∀ ph ∈ phs, ∀ v ∈ ph.pages, q v = segmentFlags ph) → x < 2 ^ 40 →
    Built L s r t → Levels c t.mem r → freeList L t.pages = F →
    taken c (phs.flatMap ElfProgram.pages) ≤ F.length →
    ∃ t' x', allocSegments L phs (vmiterAt t.mem r x) t = .ok (vmiterAt t'.mem r x', t') ∧
      x' < 2 ^ 40 ∧ SetPages L s r c (phs.flatMap ElfProgram.pages) F q t t' := by
  induction phs with
  | nil =>
    intro x c F t _ _ hx h hlev hfree _
    exact ⟨t, x, rfl, hx, .nil h hlev hfree⟩
  | cons ph phs ih =>
    intro x c F t hwell hq hx h hlev hfree henough
    obtain ⟨hlow, hhigh⟩ := hwell.range ph List.mem_cons_self
    simp only [PROC_START_ADDR, MEMSIZE_VIRTUAL, PAGESIZE] at hlow hhigh
    rw [List.flatMap_cons, taken_append] at henough
    obtain ⟨t₁, x₁, hpages, hx₁, hset⟩ := allocPages_spec (L := L) (s := s) (r := r) ph (by omega)
      ((ph.va + ph.memsz + 4095) / 4096 - ph.va / 4096) (ph.va / 4096) (ph.memsz / 4096 + 3) x c F t
      (by omega) (by omega) (by omega) hx h hlev hfree (Nat.le_of_add_right_le henough)
    have hset' := hset.congr q fun v hv => (hq ph List.mem_cons_self v hv).symm
    obtain ⟨t', x', hrest, hx', hset''⟩ := ih x₁ (crossed c ph.pages)
      (F.drop (taken c ph.pages)) t₁ hwell.tail
      (fun ph' hph' => hq ph' (List.mem_cons_of_mem _ hph')) hx₁ hset.built hset.levels hset.free
      (by rw [List.length_drop]; omega)
    refine ⟨t', x', ?_, hx', ?_⟩
    · have hround : roundDown ph.va PAGESIZE = ph.va / 4096 * 4096 := by
        rw [roundDown, PAGESIZE]
        omega
      rw [allocSegments, hround]
      change (allocPages L ph (ph.memsz / 4096 + 3) _ _ _ >>= fun x =>
        allocSegments L phs x.1 x.2) = _
      rw [hpages, ok_bind]
      exact hrest
    · rw [List.flatMap_cons]
      refine hset'.trans hset'' (Nat.le_of_add_right_le henough) ?_ fun v hv => ?_
      · have hdisj := hwell.disjoint
        rw [List.flatMap_cons] at hdisj
        exact fun v hv hv' => (List.nodup_append.1 hdisj).2.2 v hv v hv' rfl
      · have := hwell.page_range List.mem_cons_self hv
        exact canonical_of_lt (by omega)

/-! ## The first half of `process_setup` -/

/-- The state in which the process `pid` has its registers and its root. -/
def State.enter (s : State) (pid r : ℕ) : State :=
  s.setProc pid { initProcess (s.ptable pid) with pagetable := r * 4096 }

/-- The permission bits of the page `v` of a program. -/
def pageFlags (phs : List ElfProgram) (v : ℕ) : ℕ :=
  match phs.find? fun ph => v ∈ ph.pages with
  | some ph => segmentFlags ph
  | none => 0

theorem WellPlaced.pageFlags {phs : List ElfProgram} (h : WellPlaced phs) {ph : ElfProgram}
    (hph : ph ∈ phs)
    (hv : v ∈ ph.pages) : WeensyOS.pageFlags phs v = segmentFlags ph := by
  induction phs with
  | nil => exact absurd hph List.not_mem_nil
  | cons ph' phs ih =>
    have hdisj := h.disjoint
    rw [List.flatMap_cons] at hdisj
    rw [WeensyOS.pageFlags]
    rcases List.mem_cons.1 hph with rfl | hph
    · rw [List.find?_cons_of_pos (by simpa using hv)]
    · have hv' : v ∉ ph'.pages := fun hv' =>
        (List.nodup_append.1 hdisj).2.2 v hv' v (List.mem_flatMap.2 ⟨ph, hph, hv⟩) rfl
      rw [List.find?_cons_of_neg (by simpa using hv')]
      exact ih h.tail hph

/-- The loaded segments of a program. -/
def Elf.segments (elf : Elf) : List ElfProgram := elf.programs.filter fun ph => ph.type = ELF_PTYPE_LOAD

theorem programLoader_eq {elf : Elf} (h : elf.magic = ELF_MAGIC) :
    programLoader (some elf) = .ok elf.segments := by
  rw [programLoader, assert_ok h]
  rfl

/-- **The first half of `process_setup`** takes the free pages in order: a root, three tables, and the
    segments' pages. -/
theorem processSetup_eq {elf : Elf} (pid : ℕ) (hk : KernelTable L s.mem)
    (hm : elf.magic = ELF_MAGIC)
    (hwell : WellPlaced elf.segments)
    (henough : (elf.segments.flatMap ElfProgram.pages).length + 6 ≤ (freeList L s.pages).length) :
    ∃ r t₀ t₁ x, x < 2 ^ 40 ∧ Built L (s.enter pid r) r t₀ ∧ OnlyTables s r t₀ ∧
      freeList L t₀.pages = (freeList L s.pages).drop 4 ∧ CopiedTo t₀.mem r 256 ∧
      SetPages L (s.enter pid r) r false (elf.segments.flatMap ElfProgram.pages)
        ((freeList L s.pages).drop 4) (pageFlags elf.segments) t₀ t₁ ∧
      processSetup L s pid (some elf) =
        finishSetup L pid (some elf) elf.segments (vmiterAt t₁.mem r x) t₁ := by
  obtain ⟨-, -, hroot⟩ := kernelRoot_bounds L
  obtain ⟨r, F, hfree⟩ : ∃ r F, freeList L s.pages = r :: F := by
    cases h : freeList L s.pages with
    | nil =>
      rw [h, List.length_nil] at henough
      omega
    | cons r F => exact ⟨r, F, rfl⟩
  rw [hfree, List.length_cons] at henough
  have hr0 : 0 < r := (mem_freeList.1 (hfree ▸ List.mem_cons_self : r ∈ freeList L s.pages)).1.pos
  have hfree₁ : freeList L (s.enter pid r).pages = r :: (F.take 3 ++ F.drop 3) := by
    rw [List.take_append_drop]
    exact hfree
  have hk₁ : KernelTable L (s.enter pid r).mem := hk
  have hbuilt := (built_root hfree₁).1
  have hagree := hbuilt.agree_kernel hk₁
  obtain ⟨t₀, hcopy, h₀, honly, hlev₀, hfree₀, hcopied⟩ := copyKernel_spec hk₁ hfree₁
    (by rw [List.length_take]; omega)
  have htaken := taken_le (c := false) (V := elf.segments.flatMap ElfProgram.pages)
  rw [if_neg Bool.false_ne_true] at htaken
  obtain ⟨t₁, x, halloc, hx, hset⟩ := allocSegments_spec elf.segments (256 * 4096) false
    (F.drop 3) t₀ hwell
    (fun ph hph v hv => hwell.pageFlags hph hv) (by decide) h₀ hlev₀ hfree₀ (by rw [List.length_drop]; omega)
  refine ⟨r, t₀, t₁, x, hx, h₀, honly, by rw [hfree]; exact hfree₀, hcopied,
    by rw [hfree]; exact hset, ?_⟩
  have hfree' : freeList L (s.setProc pid (initProcess (s.ptable pid))).pages = r :: F := hfree
  have hne : r * 4096 ≠ 0 := by omega
  -- the state in which the loop over the kernel's mappings begins
  have hstart : processSetup L s pid (some elf) = (do
      let pit ← Vmiter.create ((s.enter pid r).alloc r 0).mem (r * 4096) 0
      let kit ← Vmiter.create ((s.enter pid r).alloc r 0).mem L.kernelPagetable 0
      let x ← copyKernel L (PROC_START_ADDR / PAGESIZE + 1) kit pit ((s.enter pid r).alloc r 0)
      let phs ← programLoader (some elf)
      let y ← allocSegments L phs x.1 x.2
      finishSetup L pid (some elf) phs y.1 y.2) := by
    rw [processSetup]
    simp only [(kalloc_freeList hfree').1, hne, ne_eq, not_false_eq_true, if_true, page_div]
    simp only [State.enter, State.setProc, State.alloc, fill_fill, Function.update_self,
      Function.update_idem]
  rw [hstart, create_eq hbuilt.shaped (by decide) (by decide), ok_bind, ← hroot,
    create_eq (hagree.shaped hk₁.shaped) (by decide) (by decide), ok_bind, hagree.vmiterAt]
  change (copyKernel L (255 + 1 + 1) _ _ _ >>= _) = _
  rw [hcopy, ok_bind, programLoader_eq hm, ok_bind]
  simp only
  rw [halloc, ok_bind]

end CProj.WeensyOS
