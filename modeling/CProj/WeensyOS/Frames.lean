/-
  The pages that `process_setup` takes.

  `kalloc` hands out the free pages in ascending order (`freeList`), and nothing is freed while a
  process is set up.  So the frames of a new process are known beforehand: its tables and pages are
  taken one after the other (`Built.kalloc`, `Built.map`), and the `n`-th page that is taken is the
  `n`-th free page.
-/
import CProj.WeensyOS.KernelMemory

namespace CProj.WeensyOS

variable {L : Layout} {s t : State} {r v w n q p : ℕ} {F G : List ℕ}

/-! ## The free pages -/

/-- The pages that `kalloc` will hand out, in this order. -/
def freeList (L : Layout) (pages : ℕ → UInt8) : List ℕ :=
  (List.range NPAGES).filter fun n => allocatablePhysicalAddress L (n * PAGESIZE) && pages n == 0

section
variable {pages : ℕ → UInt8}

theorem mem_freeList : p ∈ freeList L pages ↔ Alloc L p ∧ pages p = 0 := by
  rw [freeList, List.mem_filter, List.mem_range, Bool.and_eq_true, beq_iff_eq]
  constructor
  · rintro ⟨-, h1, h2⟩
    exact ⟨h1, h2⟩
  · rintro ⟨h1, h2⟩
    exact ⟨h1.lt, h1, h2⟩

theorem firstFree_eq : firstFree L pages = (freeList L pages).head? := by
  rw [firstFree, freeList, List.head?_filter]

theorem freeList_sorted : (freeList L pages).Pairwise (· < ·) :=
  List.pairwise_lt_range.filter _

theorem freeList_nodup : (freeList L pages).Nodup := freeList_sorted.imp fun h => h.ne

/-- The first free page is taken. -/
theorem freeList_update (h : freeList L pages = n :: F) :
    freeList L (Function.update pages n 1) = F := by
  have hnodup : (n :: F).Nodup := h ▸ freeList_nodup
  have hupdate : freeList L (Function.update pages n 1) = (freeList L pages).filter (· ≠ n) := by
    rw [freeList, freeList, List.filter_filter]
    refine List.filter_congr fun k _ => ?_
    rw [Function.update_apply]
    by_cases hk : k = n
    · simp [hk]
    · simp [hk]
  rw [hupdate, h, List.filter_cons_of_neg (by simp), List.filter_eq_self]
  intro k hk
  simp only [decide_eq_true_eq]
  rintro rfl
  exact (List.nodup_cons.1 hnodup).1 hk

end

theorem kalloc_freeList (h : freeList L s.pages = n :: F) :
    kalloc L s PAGESIZE = (n * 4096, s.alloc n 0xCCCCCCCCCCCCCCCC) ∧
      ∀ k, freeList L (s.alloc n k).pages = F :=
  ⟨kalloc_some (by rw [firstFree_eq, h]; rfl), fun _ => freeList_update h⟩

/-! ## A new page table -/

/-- The page has been allocated between the two states. -/
def New (s t : State) (p : ℕ) : Prop := s.pages p = 0 ∧ t.pages p = 1

/-- The state `t` is `s` with some pages allocated, among them the tables of a new root. -/
structure Built (L : Layout) (s : State) (r : ℕ) (t : State) : Prop where
  shaped : Shaped t.mem r
  full : Full t.mem r
  small : Small t.mem r
  tables : ∀ p ∈ tables t.mem 3 r, New s t p
  pages : ∀ p, t.pages p = s.pages p ∨ New s t p ∧ Alloc L p
  mem : ∀ p, ¬ New s t p → t.mem p = s.mem p
  rest : t = { s with mem := t.mem, pages := t.pages }

/-- Nothing but tables has been allocated. -/
def OnlyTables (s : State) (r : ℕ) (t : State) : Prop := ∀ p, New s t p → p ∈ tables t.mem 3 r

theorem Built.used (h : Built L s r t) : TablesUsed t r := by
  intro p hp
  rw [(h.tables p hp).2]
  decide

/-- A free page was free before. -/
theorem Built.free_before (h : Built L s r t) (h0 : t.pages p = 0) : s.pages p = 0 := by
  rcases h.pages p with heq | hnew
  · rw [← heq, h0]
  · exact hnew.1.1

/-- A page that has been allocated belongs to the pool. -/
theorem Built.alloc (h : Built L s r t) (hp : New s t p) : Alloc L p := by
  rcases h.pages p with heq | hnew
  · rw [hp.1, hp.2] at heq
    exact absurd heq (by decide)
  · exact hnew.2

/-- A free page is none of the tables. -/
theorem Built.not_table (h : Built L s r t) (h0 : t.pages p = 0) : p ∉ WeensyOS.tables t.mem 3 r :=
  fun hp => h.used p hp h0

theorem New.mono {u : State} (h : New s t p) (hpages : u.pages p = t.pages p ∨ u.pages p = 1) :
    New s u p := by
  refine ⟨h.1, ?_⟩
  rcases hpages with heq | heq
  · rw [heq, h.2]
  · exact heq

/-- The root of the new process. -/
theorem built_root (hfree : freeList L s.pages = r :: F) :
    Built L s r (s.alloc r 0) ∧ OnlyTables s r (s.alloc r 0) := by
  obtain ⟨hr, h0⟩ := mem_freeList.1 (hfree ▸ List.mem_cons_self : r ∈ freeList L s.pages)
  have hfork : ForkInv L s r r 0 [] [] (s.alloc r 0) := forkInv_init h0 hr
  have hnew : New s (s.alloc r 0) r := ⟨h0, by simp [State.alloc]⟩
  have hempty : ∀ i, (s.alloc r 0).mem r i = 0 := fun i => fill_self
  have htables : WeensyOS.tables (s.alloc r 0).mem 3 r = [r] := by
    rw [tables, subtables_empty hempty]
  have hkeep : ∀ p, p ≠ r → (s.alloc r 0).pages p = s.pages p :=
    fun p hp => Function.update_of_ne hp _ _
  refine ⟨⟨hfork.shaped, hfork.full, hfork.small, fun p hp => ?_, fun p => ?_, fun p hp => ?_, rfl⟩,
    fun p hp => ?_⟩
  · rw [htables, List.mem_singleton] at hp
    rw [hp]
    exact hnew
  · by_cases hp : p = r
    · rw [hp]
      exact Or.inr ⟨hnew, hr⟩
    · exact Or.inl (hkeep p hp)
  · funext i
    refine fill_of_ne ?_ i
    rintro rfl
    exact hp hnew
  · rw [htables, List.mem_singleton]
    by_contra hne
    have h1 := hp.2
    rw [hkeep p hne, hp.1] at h1
    exact absurd h1 (by decide)

/-- **A page is allocated**, for data. -/
theorem Built.kalloc (h : Built L s r t) (hfree : freeList L t.pages = n :: F) (k : ℕ) :
    Built L s r (t.alloc n k) := by
  obtain ⟨hn, h0⟩ := mem_freeList.1 (hfree ▸ List.mem_cons_self : n ∈ freeList L t.pages)
  have hagree : Agree t.mem (t.alloc n k).mem (WeensyOS.tables t.mem 3 r) :=
    agree_fill (h.not_table h0)
  have hpages : ∀ p, (t.alloc n k).pages p = t.pages p ∨ (t.alloc n k).pages p = 1 := by
    intro p
    simp only [State.alloc, Function.update_apply]
    split_ifs
    · exact Or.inr rfl
    · exact Or.inl rfl
  have hnew : New s (t.alloc n k) n := ⟨h.free_before h0, by simp [State.alloc]⟩
  refine ⟨hagree.shaped h.shaped, hagree.full h.full, hagree.small h.small, fun p hp => ?_,
    fun p => ?_, fun p hp => ?_, ?_⟩
  · rw [hagree.tables] at hp
    exact (h.tables p hp).mono (hpages p)
  · by_cases hp : p = n
    · rw [hp]
      exact Or.inr ⟨hnew, hn⟩
    · refine (h.pages p).imp (fun heq => ?_) fun hp => ⟨hp.1.mono (hpages p), hp.2⟩
      rw [← heq]
      simp [State.alloc, Function.update_of_ne hp]
  · have hpn : p ≠ n := by
      rintro rfl
      exact hp hnew
    rw [← h.mem p fun hp' => hp (hp'.mono (hpages p))]
    exact funext (fill_of_ne hpn)
  · have hrest := h.rest
    rw [hrest]
    rfl

/-! ## Mapping a page -/

/-- `map`, where `try_map` succeeds. -/
theorem map_of_tryMap {pa perm : ℕ} {s' : State} (htree : (WeensyOS.tables t.mem 3 r).Nodup)
    (hfree : FreeOutside L t r) (hperm : perm ≠ 0)
    (h : (vmiterAt t.mem r (v * 4096)).tryMap L t pa perm = .ok (0, s')) :
    (vmiterAt t.mem r (v * 4096)).map L t pa perm = .ok (vmiterAt s'.mem r (v * 4096), s') := by
  obtain ⟨⟨k, it', s''⟩, hit, hret⟩ := bind_eq_ok.1 h
  cases hret
  obtain ⟨t₁, new, hg, -, -, rfl, hcases⟩ :=
    tryMapIt_spec (I := fun _ => True) (fun _ _ _ _ _ _ => trivial) trivial htree hfree hit
  rcases hcases with ⟨h0, -⟩ | ⟨-, hl, rfl⟩ | ⟨-, h0, -⟩
  · exact absurd h0 (by decide)
  · rw [Vmiter.map, hit, ok_bind]
    simp only [vmiterAt, State.put, stop_set hg.tree hl]
    rfl
  · exact absurd h0 hperm

/-- What mapping the page `v` to the frame `n` has done, with the new tables `G`. -/
structure MapStep (L : Layout) (s : State) (r v n q : ℕ) (G F : List ℕ) (t t' : State) : Prop where
  built : Built L s r t'
  free : freeList L t'.pages = F
  pages : ∀ p, t'.pages p = if p ∈ G then 1 else t.pages p
  mem : ∀ p, p ∉ WeensyOS.tables t.mem 3 r → p ∉ G → t'.mem p = t.mem p
  tables : ∀ p, p ∈ WeensyOS.tables t'.mem 3 r ↔ p ∈ WeensyOS.tables t.mem 3 r ∨ p ∈ G
  here : ∃ q', translate t'.mem r v = some (n, q') ∧ pwu q' = pwu q
  others : ∀ w, Canonical w → w ≠ v → translate t'.mem r w = translate t.mem r w
  /-- the last of the new tables is the one of level 0 -/
  last : ∀ g ∈ G.getLast?, (stop t'.mem r v).page = g
  leaves : ∀ w, (stop t.mem r w).level = 0 → stop t'.mem r w = stop t.mem r w

/-- While tables are added for the page `v`: the first of the free pages `G` have been taken. -/
structure Taking (L : Layout) (r v : ℕ) (G F : List ℕ) (t t' : State) : Prop where
  leaves : ∀ w, (stop t.mem r w).level = 0 → stop t'.mem r w = stop t.mem r w
  taken : ∃ G₁ G₂, G = G₁ ++ G₂ ∧ freeList L t'.pages = G₂ ++ F ∧
    G₂.length = (stop t'.mem r v).level ∧ (∀ g ∈ G₁.getLast?, (stop t'.mem r v).page = g) ∧
    ∀ p, t'.pages p = if p ∈ G₁ then 1 else t.pages p

theorem Taking.start (hfree : freeList L t.pages = G ++ F)
    (hG : G.length = (stop t.mem r v).level) : Taking L r v G F t t :=
  ⟨fun _ _ => rfl, [], G, rfl, hfree, hG, fun _ hg => absurd hg (by simp), fun p => by simp⟩

/-- Every link takes the first free page. -/
theorem Taking.link {t' : State} {k : ℕ} (h : Taking L r v G F t t')
    (hfirst : firstFree L t'.pages = some n) (hlink : Linkable t'.mem r v n k) :
    Taking L r v G F t (t'.link r v n) := by
  obtain ⟨hleaves, G₁, G₂, rfl, hfree, hlen, -, hpages⟩ := h
  have hl := hlink.level
  have hlinked : (stop (t'.link r v n).mem r v).level = k := by
    rw [State.link, hlink.stop_same rfl]
  cases G₂ with
  | nil =>
    rw [hl] at hlen
    cases hlen
  | cons g G₂ =>
    rw [firstFree_eq, hfree] at hfirst
    cases hfirst
    refine ⟨fun w hw => ?_, G₁ ++ [n], G₂, by simp, freeList_update hfree, ?_, fun g hg => ?_,
      fun p => ?_⟩
    · rw [← hleaves w hw]
      refine (hlink.stop_other fun heq => ?_).1
      have hlev := (walk_same_path hlink.shaped.tree heq).1
      rw [← stop, ← stop, hl, hleaves w hw, hw] at hlev
      cases hlev
    · rw [hlinked]
      rw [hl, List.length_cons] at hlen
      exact Nat.succ.inj hlen
    · rw [List.getLast?_concat] at hg
      rw [← Option.some.inj hg, State.link, hlink.stop_same rfl]
    · simp only [State.link, Function.update_apply, hpages, List.mem_append, List.mem_singleton]
      by_cases hp : p = n
      · simp [hp]
      · simp [hp]

/-- The free pages do not run out. -/
theorem Taking.more {t' : State} (h : Taking L r v G F t t') (hl : 0 < (stop t'.mem r v).level) :
    firstFree L t'.pages ≠ none := by
  obtain ⟨-, G₁, G₂, -, hfree, hlen, -⟩ := h
  rw [firstFree_eq, hfree]
  cases G₂ with
  | nil =>
    rw [← hlen] at hl
    exact absurd hl (lt_irrefl 0)
  | cons g G₂ => exact Option.some_ne_none g

/-- At level 0 all of `G` has been taken. -/
theorem Taking.all {t' : State} (h : Taking L r v G F t t') (hl : (stop t'.mem r v).level = 0) :
    freeList L t'.pages = F ∧ (∀ g ∈ G.getLast?, (stop t'.mem r v).page = g) ∧
      ∀ p, t'.pages p = if p ∈ G then 1 else t.pages p := by
  obtain ⟨-, G₁, G₂, rfl, hfree, hlen, hlast, hpages⟩ := h
  obtain rfl : G₂ = [] := List.length_eq_zero_iff.1 (hlen.trans hl)
  rw [List.append_nil]
  exact ⟨hfree, hlast, hpages⟩

/-- The new tables are the pages that are no longer free. -/
theorem Grown.mem_new {t' : State} {new : List ℕ} (hg : Grown L r t t' new)
    (hG : ∀ p ∈ G, t.pages p = 0) (hpages : ∀ p, t'.pages p = if p ∈ G then 1 else t.pages p)
    (p : ℕ) : p ∈ new ↔ p ∈ G := by
  have hsame := (hg.pages p).symm.trans (hpages p)
  constructor
  · intro hp
    by_contra hpG
    rw [if_pos hp, if_neg hpG, (hg.fresh p hp).1] at hsame
    exact absurd hsame (by decide)
  · intro hpG
    by_contra hp
    rw [if_neg hp, if_pos hpG, hG p hpG] at hsame
    exact absurd hsame (by decide)

/-- The page is mapped when its tables are there. -/
theorem Built.mapStep {t' : State} {new : List ℕ} (h : Built L s r t)
    (hfree : freeList L t.pages = G ++ F) (hg : Grown L r t t' new) (htaking : Taking L r v G F t t')
    (hl : (stop t'.mem r v).level = 0) (hv : Canonical v) (hn : n < 2 ^ 20) (hq : q % 2 = 1)
    (hq' : q < 4096) : MapStep L s r v n q G F t (t'.map r v n q) := by
  obtain ⟨hfree', hlast, hpages⟩ := htaking.all hl
  have hGfree : ∀ p ∈ G, Alloc L p ∧ t.pages p = 0 := fun p hp =>
    mem_freeList.1 (hfree ▸ List.mem_append_left F hp : p ∈ freeList L t.pages)
  have hnewG := hg.mem_new (fun p hp => (hGfree p hp).2) hpages
  have htabs : ∀ p, p ∈ WeensyOS.tables (t'.map r v n q).mem 3 r ↔
      p ∈ WeensyOS.tables t.mem 3 r ∨ p ∈ G := by
    intro p
    have htables : WeensyOS.tables (t'.map r v n q).mem 3 r = WeensyOS.tables t'.mem 3 r :=
      tables_set hg.tree hl _
    rw [htables, hg.mem_tables]
    exact or_congr_right (hnewG p)
  have hmem : ∀ p, p ∉ WeensyOS.tables t.mem 3 r → p ∉ G → (t'.map r v n q).mem p = t.mem p := by
    intro p hp hpG
    have hpage : p ≠ (stop t'.mem r v).page := by
      rintro rfl
      exact (hg.mem_tables.1 stop_page_mem).elim hp fun hnew => hpG ((hnewG _).1 hnew)
    rw [← hg.mem p hp fun hnew => hpG ((hnewG p).1 hnew)]
    exact funext (set_page_ne hpage)
  have hnew : ∀ p ∈ G, New s (t'.map r v n q) p := fun p hp =>
    ⟨h.free_before (hGfree p hp).2, by change t'.pages p = 1; rw [hpages, if_pos hp]⟩
  have hmono : ∀ p, New s t p → New s (t'.map r v n q) p := by
    intro p hp
    refine hp.mono ?_
    change t'.pages p = t.pages p ∨ t'.pages p = 1
    rw [hpages]
    split_ifs
    · exact Or.inr rfl
    · exact Or.inl rfl
  refine ⟨⟨shaped_mapped hg.shaped hl hn hq', (hg.full h.full).mapped hg.shaped hl,
    (hg.small h.small).mapped hg.shaped hl, fun p hp => ?_, fun p => ?_, fun p hp => ?_, ?_⟩,
    hfree', hpages, hmem, htabs, ?_, fun w hw hne => ?_, fun g hg' => ?_, fun w hw => ?_⟩
  · exact ((htabs p).1 hp).elim (fun hp => hmono p (h.tables p hp)) (hnew p)
  · by_cases hpG : p ∈ G
    · exact Or.inr ⟨hnew p hpG, (hGfree p hpG).1⟩
    · refine (h.pages p).imp (fun heq => ?_) fun hp => ⟨hmono p hp.1, hp.2⟩
      change t'.pages p = s.pages p
      rw [hpages, if_neg hpG, heq]
  · rw [← h.mem p fun hp' => hp (hmono p hp')]
    exact hmem p (fun hp' => hp (hmono p (h.tables p hp'))) fun hpG => hp (hnew p hpG)
  · have h1 := hg.rest
    have h2 := h.rest
    rw [State.map, h1, h2]
  · refine ⟨q &&& (stop t'.mem r v).perm, ?_, (pwu_and_full (hg.full h.full v) q).2⟩
    change translate (mapped t'.mem r v n q) r v = _
    rw [translate_mapped hg.shaped hl hn hq', if_pos hq]
  · exact (translate_mapped_other hg.shaped hl hv hw hne).trans (hg.translate w)
  · exact (congrArg Stop.page (stop_mapped hg.shaped hl v)).trans (hlast g hg')
  · exact (stop_mapped hg.shaped hl w).trans (htaking.leaves w hw)

/-- **A page is mapped**: its tables are the next free pages. -/
theorem Built.map (h : Built L s r t) {I : State → Prop} (hI : LinkInv L r v I) (hinv : I t)
    (hfree : freeList L t.pages = G ++ F) (hG : G.length = (stop t.mem r v).level)
    (hv : Canonical v)
    (hn : n < 2 ^ 20) (hq : q % 2 = 1) (hq' : q < 4096) :
    ∃ t' t₁, (vmiterAt t.mem r (v * 4096)).map L t (n * 4096) q =
        .ok (vmiterAt t'.mem r (v * 4096), t') ∧ MapStep L s r v n q G F t t' ∧ I t₁ ∧
      (∀ w, stop t'.mem r w = stop t₁.mem r w) ∧ (stop t₁.mem r v).level = 0 := by
  have hJ : LinkInv L r v fun t' => I t' ∧ Taking L r v G F t t' :=
    fun t' n k hinv' hfirst hlink =>
      ⟨hI t' n k hinv'.1 hfirst hlink, hinv'.2.link hfirst hlink⟩
  have habs : 0 < (stop t.mem r v).level →
      t.mem (stop t.mem r v).page (stop t.mem r v).idx % 2 = 0 := by
    intro hl
    refine translate_eq_none ?_
    by_contra hp
    exact hl.ne' (h.small v hp)
  have hfull := pwu_and_full (h.full v)
  obtain ⟨t₁, new, hg, ⟨hinv₁, htaking⟩, -, -, hres⟩ := tryMap_spec hJ ⟨hinv, .start hfree hG⟩
    h.shaped h.used (hn.trans (by norm_num)) hq (hfull q).1 hq' habs
  rcases hres with ⟨hl, hres⟩ | ⟨⟨hl, hnone⟩, -⟩
  · refine ⟨t₁.map r v n q, t₁, ?_, h.mapStep hfree hg htaking hl hv hn hq hq', hinv₁,
      fun w => stop_mapped hg.shaped hl w, hl⟩
    exact map_of_tryMap h.shaped.tree h.used.freeOutside (by omega) hres
  · exact absurd hnone (htaking.more hl)

/-- Mapping a page allocates tables only. -/
theorem MapStep.new {t' : State} (h : MapStep L s r v n q G F t t') (hp : New s t' p) :
    New s t p ∨ p ∈ WeensyOS.tables t'.mem 3 r := by
  by_cases hpG : p ∈ G
  · exact Or.inr ((h.tables p).2 (Or.inr hpG))
  · have h1 := hp.2
    rw [h.pages, if_neg hpG] at h1
    exact Or.inl ⟨hp.1, h1⟩

theorem MapStep.onlyTables {t' : State} (h : MapStep L s r v n q G F t t')
    (hnew : OnlyTables s r t) :
    OnlyTables s r t' := by
  intro p hp
  rcases h.new hp with hp | hp
  · exact (h.tables p).2 (Or.inl (hnew p hp))
  · exact hp

/-! ## How many tables a page takes -/

/-- Pages of one table of level 0 have walks that end at the same level. -/
theorem level_region {m : Mem} (h : w / 512 = v / 512) :
    (stop m r w).level = (stop m r v).level := by
  have hix : ∀ j, 0 < j → ix w j = ix v j := by
    intro j hj
    obtain ⟨i, rfl⟩ : ∃ i, j = i + 1 := ⟨_, (Nat.succ_pred_eq_of_pos hj).symm⟩
    have hdiv : ∀ x : ℕ, x / 512 ^ (i + 1) = x / 512 / 512 ^ i := fun x => by
      rw [Nat.div_div_eq_div_mul, pow_succ, Nat.mul_comm]
    rw [ix, ix, hdiv, hdiv, h]
  rcases Nat.eq_zero_or_pos (stop m r v).level with h0 | hl
  · have hres : stop m r w = walk m w (stop m r v).level (stop m r v).page (stop m r v).perm :=
      walk_resume fun k hk _ => hix k (by omega)
    rw [hres, h0]
    rfl
  · rw [stop_eq_of_ix hl fun k hk _ => hix k (by omega)]

/-- The first 2 MiB have a table of level 0; the next 2 MiB have one if `c`. -/
def Levels (c : Bool) (m : Mem) (r : ℕ) : Prop :=
  (stop m r 0).level = 0 ∧ (stop m r 512).level = if c then 0 else 1

/-- The number of tables that mapping the page `v` takes. -/
def tablesFor (c : Bool) (v : ℕ) : ℕ := if v < 512 ∨ c = true then 0 else 1

section
variable {c : Bool} {m : Mem}

theorem Levels.level (h : Levels c m r) (hv : v < 1024) : (stop m r v).level = tablesFor c v := by
  rw [tablesFor]
  by_cases hlow : v < 512
  · rw [if_pos (Or.inl hlow), ← h.1]
    exact level_region (by omega)
  · rw [level_region (show v / 512 = 512 / 512 by omega), h.2]
    cases c with
    | false =>
      rw [if_neg (by decide), if_neg]
      rintro (h | h)
      · exact hlow h
      · cases h
    | true => rw [if_pos rfl, if_pos (Or.inr rfl)]

/-- The first page is mapped in an empty table. -/
theorem Built.mapFirst (h : Built L s r t) (hlev : ∀ v, (stop t.mem r v).level = 3)
    (hfree : freeList L t.pages = G ++ F) (hG : G.length = 3) (hn : n < 2 ^ 20) (hq : q % 2 = 1)
    (hq' : q < 4096) : ∃ t', (vmiterAt t.mem r (0 * 4096)).map L t (n * 4096) q =
        .ok (vmiterAt t'.mem r (0 * 4096), t') ∧ MapStep L s r 0 n q G F t t' ∧
          Levels false t'.mem r := by
  -- the second region has the tables that the first one has, but for that of level 0
  have hI : LinkInv L r 0 fun t => (stop t.mem r 512).level = max 1 (stop t.mem r 0).level := by
    intro t n k hinv _ hlink
    have h0 := hlink.level_eq (w := 0) fun _ _ _ => rfl
    change (stop (linked t.mem r 0 n) r 512).level = max 1 (stop (linked t.mem r 0 n) r 0).level
    rw [h0.2]
    cases k with
    | zero =>
      have hne : ((stop t.mem r 512).page, (stop t.mem r 512).idx) ≠
          ((stop t.mem r 0).page, (stop t.mem r 0).idx) := by
        intro heq
        have hix := (walk_same_path hlink.shaped.tree heq).2 1 (by rw [← stop, h0.1]) (by decide)
        exact absurd hix (by decide)
      rw [(hlink.stop_other hne).1, hinv, h0.1]
      rfl
    | succ k =>
      rw [(hlink.level_eq (w := 512) fun j hj hj3 => ?_).2]
      · omega
      · rcases (by omega : j = 2 ∨ j = 3) with rfl | rfl <;> decide
  obtain ⟨t', t₁, hmap, hstep, hinv, hstop, hl⟩ := h.map hI (by rw [hlev, hlev]; rfl) hfree
    (by rw [hG, hlev]) (canonical_of_lt (by decide)) hn hq hq'
  refine ⟨t', hmap, hstep, by rw [hstop, hl], ?_⟩
  rw [hstop, hinv, hl]
  rfl

/-- **Another page is mapped.** -/
theorem Built.mapNext (h : Built L s r t) (hlev : Levels c t.mem r) (hv : v < 1024)
    (hfree : freeList L t.pages = G ++ F) (hG : G.length = tablesFor c v) (hn : n < 2 ^ 20)
    (hq : q % 2 = 1) (hq' : q < 4096) : ∃ t', (vmiterAt t.mem r (v * 4096)).map L t (n * 4096) q =
        .ok (vmiterAt t'.mem r (v * 4096), t') ∧ MapStep L s r v n q G F t t' ∧
      Levels (c || decide (512 ≤ v)) t'.mem r := by
  have hI : LinkInv L r v fun t => (stop t.mem r 0).level = 0 ∧
      (v < 512 → (stop t.mem r 512).level = if c then 0 else 1) := by
    intro t n k hinv _ hlink
    have hle := hlink.level_le 0
    refine ⟨Nat.le_zero.1 (hle.trans_eq hinv.1), fun hlow => ?_⟩
    have hl := hlink.level
    rw [level_region (show v / 512 = 0 / 512 by omega), hinv.1] at hl
    cases hl
  obtain ⟨t', t₁, hmap, hstep, hinv, hstop, hl⟩ := h.map hI ⟨hlev.1, fun _ => hlev.2⟩ hfree
    (by rw [hG, hlev.level hv]) (canonical_of_lt (by omega)) hn hq hq'
  refine ⟨t', hmap, hstep, by rw [hstop, hinv.1], ?_⟩
  rw [hstop]
  by_cases hlow : v < 512
  · rw [hinv.2 hlow, decide_eq_false (by omega), Bool.or_false]
  · rw [level_region (show 512 / 512 = v / 512 by omega), hl, decide_eq_true (by omega),
      Bool.or_true]
    rfl

end

/-! ## The kernel's mappings -/

theorem Built.agree_kernel (h : Built L s r t) (hk : KernelTable L s.mem) :
    Agree s.mem t.mem (WeensyOS.tables s.mem 3 (kernelRoot L)) :=
  hk.agree fun p hp _ => h.mem p fun hnew => hp (h.alloc hnew)

theorem Agree.vmiterAt {m m' : Mem} {va : ℕ} (h : Agree m m' (WeensyOS.tables m 3 r)) :
    vmiterAt m' r va = WeensyOS.vmiterAt m r va := by
  simp only [WeensyOS.vmiterAt, h.stop]

/-- The table maps the pages below `v` as the kernel's does, and no others. -/
def CopiedTo (m : Mem) (r v : ℕ) : Prop :=
  (∀ w < v, ∃ q, translate m r w = some (w, q) ∧ pwu q = kernelPerm w) ∧
    ∀ w, Canonical w → v ≤ w → translate m r w = none

theorem MapStep.copiedTo {t' : State} (h : MapStep L s r v v q G F t t') (hv : v < 256)
    (hcopied : CopiedTo t.mem r v) (hq : pwu q = kernelPerm v) : CopiedTo t'.mem r (v + 1) := by
  constructor
  · intro w hw
    rcases Nat.lt_succ_iff_lt_or_eq.1 hw with hlt | rfl
    · rw [h.others w (canonical_of_lt (by omega)) hlt.ne]
      exact hcopied.1 w hlt
    · obtain ⟨q', htr, hq'⟩ := h.here
      exact ⟨q', htr, hq'.trans hq⟩
  · intro w hw hge
    rw [h.others w hw (by omega)]
    exact hcopied.2 w hw (by omega)

/-- One iteration. -/
theorem copyKernel_succ {t' : State} (h : Built L s r t) (h' : Built L s r t')
    (hk : KernelTable L s.mem)
    (hv : v < 256) (htr : translate s.mem (kernelRoot L) v = some (v, q))
    (hmap : (vmiterAt t.mem r (v * 4096)).map L t (v * 4096) q = .ok (vmiterAt t'.mem r (v * 4096), t'))
    (fuel : ℕ) : copyKernel L (fuel + 1) (vmiterAt s.mem (kernelRoot L) (v * 4096))
        (vmiterAt t.mem r (v * 4096)) t =
      copyKernel L fuel (vmiterAt s.mem (kernelRoot L) ((v + 1) * 4096))
        (vmiterAt t'.mem r ((v + 1) * 4096)) t' := by
  have hagree := h.agree_kernel hk
  have hagree' := h'.agree_kernel hk
  have hdiv : v * 4096 / 4096 = v := Nat.mul_div_cancel v (by decide)
  have hnext : vaAdd (v * 4096) PAGESIZE = (v + 1) * 4096 := by
    rw [vaAdd, PAGESIZE]
    omega
  have htr' : translate t.mem (kernelRoot L) (v * 4096 / 4096) = some (v, q) := by
    rw [hdiv, hagree.translate, htr]
  have hpa : (vmiterAt s.mem (kernelRoot L) (v * 4096)).pa t.mem = v * 4096 := by
    rw [← hagree.vmiterAt, vmiterAt_pa htr']
    omega
  have hperm : (vmiterAt s.mem (kernelRoot L) (v * 4096)).permissions t.mem = q := by
    rw [← hagree.vmiterAt, vmiterAt_permissions, htr']
  rw [copyKernel, if_pos (by rw [vmiterAt_va, PROC_START_ADDR]; omega), hpa, hperm, hmap, ok_bind]
  simp only [Vmiter.advance, Vmiter.find, vmiterAt_va]
  rw [hnext, realFind_eq h'.shaped (canonical_of_lt (by omega)) (by omega), ok_bind,
    ← hagree'.vmiterAt,
    realFind_eq (hagree'.shaped hk.shaped) (canonical_of_lt (by omega)) (by omega), ok_bind,
    hagree'.vmiterAt]

/-- The rest of the loop. -/
theorem copyKernel_rest (hk : KernelTable L s.mem) (j : ℕ) : ∀ v t, j + v = 256 → Built L s r t →
    OnlyTables s r t → Levels false t.mem r → freeList L t.pages = F → CopiedTo t.mem r v →
    ∃ t', copyKernel L (j + 1) (vmiterAt s.mem (kernelRoot L) (v * 4096)) (vmiterAt t.mem r (v * 4096)) t =
        .ok (vmiterAt t'.mem r (256 * 4096), t') ∧ Built L s r t' ∧ OnlyTables s r t' ∧
      Levels false t'.mem r ∧ freeList L t'.pages = F ∧ CopiedTo t'.mem r 256 := by
  induction j with
  | zero =>
    intro v t hv h honly hlev hfree hcopied
    obtain rfl : v = 256 := by omega
    refine ⟨t, ?_, h, honly, hlev, hfree, hcopied⟩
    rw [copyKernel, if_neg]
    rw [vmiterAt_va, PROC_START_ADDR]
    omega
  | succ j ih =>
    intro v t hv h honly hlev hfree hcopied
    obtain ⟨q, htr, hq⟩ := hk.map v (by rw [NPAGES, MEMSIZE_PHYSICAL, PAGESIZE]; omega)
    rw [if_pos (by omega)] at hq
    obtain ⟨hodd, hlt⟩ := translate_perm htr
    obtain ⟨t', hmap, hstep, hlev'⟩ := h.mapNext (v := v) (G := []) (F := F) (n := v) hlev
      (by omega)
      hfree (by rw [tablesFor, if_pos (Or.inl (by omega))]; rfl) (by omega) hodd hlt
    rw [decide_eq_false (show ¬ 512 ≤ v by omega), Bool.or_false] at hlev'
    obtain ⟨t'', hloop, hrest⟩ :=
      ih (v + 1) t' (by omega) hstep.built (hstep.onlyTables honly) hlev' hstep.free
        (hstep.copiedTo (by omega) hcopied hq)
    exact ⟨t'', (copyKernel_succ h hstep.built hk (by omega) htr hmap (j + 1)).trans hloop, hrest⟩

/-- **The loop over the kernel's mappings** takes three tables. -/
theorem copyKernel_spec (hk : KernelTable L s.mem) (hfree : freeList L s.pages = r :: (G ++ F))
    (hG : G.length = 3) :
    ∃ t', copyKernel L (255 + 1 + 1) (vmiterAt s.mem (kernelRoot L) 0) (vmiterAt (s.alloc r 0).mem r 0)
        (s.alloc r 0) = .ok (vmiterAt t'.mem r (256 * 4096), t') ∧ Built L s r t' ∧
          OnlyTables s r t' ∧
      Levels false t'.mem r ∧ freeList L t'.pages = F ∧ CopiedTo t'.mem r 256 := by
  obtain ⟨h, honly⟩ := built_root hfree
  have hempty : ∀ i, (s.alloc r 0).mem r i = 0 := fun i => fill_self
  have hstop : ∀ w, stop (s.alloc r 0).mem r w = ⟨3, r, ix w 3, initialPerm⟩ :=
    fun w => walk_empty hempty
  have hnone : CopiedTo (s.alloc r 0).mem r 0 := by
    refine ⟨fun w hw => absurd hw (Nat.not_lt_zero w), fun w _ _ => ?_⟩
    rw [translate, hstop]
    simp only [hempty]
    rfl
  obtain ⟨q, htr, hq⟩ := hk.map 0 (by decide)
  rw [if_pos (by decide)] at hq
  obtain ⟨hodd, hlt⟩ := translate_perm htr
  obtain ⟨t', hmap, hstep, hlev⟩ := h.mapFirst (F := F) (n := 0) (fun v => by rw [hstop])
    (freeList_update hfree) hG (by decide) hodd hlt
  have hsucc := copyKernel_succ h hstep.built hk (by decide) htr hmap (255 + 1)
  rw [Nat.zero_mul] at hsucc
  obtain ⟨t'', hloop, hrest⟩ := copyKernel_rest hk 255 1 t' rfl hstep.built
    (hstep.onlyTables honly) hlev
    hstep.free (hstep.copiedTo (by decide) hnone hq)
  exact ⟨t'', hsucc.trans hloop, hrest⟩

end CProj.WeensyOS
