/-
  What `kalloc`, `kfree` and `try_map` do.

  `kalloc` hands out a page whose count is 0.  `try_map` grows a page table (`Grown`) by pages it
  has allocated, which no translation notices, and then stores one entry.  All that is needed of
  the state is that the tables themselves are in use (`TablesUsed`).
-/
import CProj.WeensyOS.Kernel

namespace CProj.WeensyOS

variable {L : Layout} {s s' : State}

/-! ## The page allocator -/

/-- The page `n` belongs to the pool of `kalloc`. -/
def Alloc (L : Layout) (n : ℕ) : Prop := allocatablePhysicalAddress L (n * PAGESIZE) = true

theorem Alloc.pos {n : ℕ} (h : Alloc L n) : 0 < n := by
  rcases Nat.eq_zero_or_pos n with rfl | hn
  · simp [Alloc, allocatablePhysicalAddress, reservedPhysicalAddress, PAGESIZE] at h
  · exact hn

theorem Alloc.lt {n : ℕ} (h : Alloc L n) : n < NPAGES := by
  have hlt : n * PAGESIZE < MEMSIZE_PHYSICAL := of_decide_eq_true (Bool.and_eq_true_iff.1 h).2
  simp only [NPAGES, MEMSIZE_PHYSICAL, PAGESIZE] at hlt ⊢
  omega

theorem Alloc.not_console {n : ℕ} (h : Alloc L n) : n * 4096 ≠ CONSOLE_ADDR := by
  intro heq
  simp only [Alloc, PAGESIZE, heq] at h
  simp [allocatablePhysicalAddress, reservedPhysicalAddress, CONSOLE_ADDR, PAGESIZE, IOPHYSMEM,
    EXTPHYSMEM] at h

theorem firstFree_some {pages : ℕ → UInt8} {n : ℕ} (h : firstFree L pages = some n) :
    Alloc L n ∧ pages n = 0 := by
  have := List.find?_some h
  simpa only [Alloc, Bool.and_eq_true, beq_iff_eq] using this

theorem firstFree_none {pages : ℕ → UInt8} (h : firstFree L pages = none) {n : ℕ}
    (hn : Alloc L n) : pages n ≠ 0 := by
  intro h0
  rw [firstFree, List.find?_eq_none] at h
  refine h n (List.mem_range.2 hn.lt) ?_
  rw [h0]
  simp only [Bool.and_eq_true, beq_self_eq_true, and_true]
  exact hn

/-- The state after the page `n` has been allocated and filled with words `w`. -/
def State.alloc (s : State) (n w : ℕ) : State :=
  { s with pages := Function.update s.pages n 1, mem := s.mem.fill n w }

theorem kalloc_some {n : ℕ} (h : firstFree L s.pages = some n) :
    kalloc L s PAGESIZE = (n * 4096, s.alloc n 0xCCCCCCCCCCCCCCCC) := by
  rw [kalloc, if_neg (lt_irrefl _), h]; rfl

theorem kalloc_none (h : firstFree L s.pages = none) : kalloc L s PAGESIZE = (0, s) := by
  rw [kalloc, if_neg (lt_irrefl _), h]

theorem fill_fill {m : Mem} {n w w' : ℕ} : (m.fill n w).fill n w' = m.fill n w' := by
  funext p i
  simp only [Mem.fill]
  split_ifs <;> rfl

theorem page_div (n : ℕ) : n * 4096 / PAGESIZE = n := Nat.mul_div_cancel n (by decide)

theorem kfree_eq {n : ℕ} (hpos : 0 < n) (hlt : n < NPAGES) (hn : s.pages n ≠ 0) :
    kfree s (n * 4096) = .ok { s with pages := Function.update s.pages n (s.pages n - 1) } := by
  have hdiv : n * 4096 / PAGESIZE = n := page_div n
  have hgt : s.pages n > 0 := UInt8.pos_iff_ne_zero.2 hn
  rw [kfree, if_neg (by omega), pageinfo, hdiv, if_pos hlt, ok_bind, if_pos hgt]
  rfl

/-! ## Growing a page table -/

/-- The tables of the root `r` are in use. -/
def TablesUsed (s : State) (r : ℕ) : Prop := ∀ p ∈ tables s.mem 3 r, s.pages p ≠ 0

/-- The links of the table grant every permission. -/
def Full (m : Mem) (r : ℕ) : Prop := ∀ v, pwu (stop m r v).perm = 7

/-- The table maps no large page. -/
def Small (m : Mem) (r : ℕ) : Prop := ∀ v, translate m r v ≠ none → (stop m r v).level = 0

theorem Full.mapped {m : Mem} {r v n q : ℕ} (h : Full m r) (hs : Shaped m r)
    (hl : (stop m r v).level = 0) : Full (mapped m r v n q) r := fun w => by
  rw [stop_mapped hs hl]
  exact h w

theorem Small.mapped {m : Mem} {r v n q : ℕ} (h : Small m r) (hs : Shaped m r)
    (hl : (stop m r v).level = 0) : Small (mapped m r v n q) r := by
  intro w hp
  rw [stop_mapped hs hl]
  by_contra hw
  refine hw (h w ?_)
  rwa [translate, stop_mapped hs hl, mapped_high hs hl hw] at hp

theorem Agree.full {m m' : Mem} {r : ℕ} (h : Agree m m' (WeensyOS.tables m 3 r)) (hf : Full m r) :
    Full m' r := fun v => by
  rw [h.stop]
  exact hf v

theorem Agree.small {m m' : Mem} {r : ℕ} (h : Agree m m' (WeensyOS.tables m 3 r)) (hs : Small m r) :
    Small m' r := by
  intro v hp
  rw [h.stop]
  rw [h.translate] at hp
  exact hs v hp

/-- No free page is a table of the root `r`. -/
def FreeOutside (L : Layout) (s : State) (r : ℕ) : Prop :=
  ∀ p, Alloc L p → s.pages p = 0 → p ∉ tables s.mem 3 r

theorem TablesUsed.freeOutside {r : ℕ} (h : TablesUsed s r) : FreeOutside L s r :=
  fun p _ h0 hp => h p hp h0

/-- The state `s'` is `s` after the pages `new` have been allocated and linked as tables below the
    root `r`: no translation has changed. -/
structure Hung (L : Layout) (r : ℕ) (s s' : State) (new : List ℕ) : Prop where
  tree : (tables s'.mem 3 r).Nodup
  subtables : (subtables s'.mem 3 r).Perm (subtables s.mem 3 r ++ new)
  translate : ∀ v, translate s'.mem r v = translate s.mem r v
  mem : ∀ p, p ∉ tables s.mem 3 r → p ∉ new → s'.mem p = s.mem p
  pages : ∀ p, s'.pages p = if p ∈ new then 1 else s.pages p
  nodup : new.Nodup
  fresh : ∀ p ∈ new, s.pages p = 0 ∧ Alloc L p
  rest : s' = { s with mem := s'.mem, pages := s'.pages }

theorem Hung.refl {r : ℕ} (h : (tables s.mem 3 r).Nodup) : Hung L r s s [] :=
  ⟨h, by simp, fun _ => rfl, fun _ _ _ => rfl, fun _ => by simp, List.nodup_nil, by simp, rfl⟩

theorem Hung.mem_tables {r p : ℕ} {new : List ℕ} (h : Hung L r s s' new) :
    p ∈ tables s'.mem 3 r ↔ p ∈ tables s.mem 3 r ∨ p ∈ new := by
  rw [tables, tables, List.mem_cons, List.mem_cons, h.subtables.mem_iff, List.mem_append, or_assoc]

theorem Hung.used {r : ℕ} {new : List ℕ} (h : Hung L r s s' new) (hu : TablesUsed s r) :
    TablesUsed s' r := by
  intro p hp
  rw [h.pages]
  split_ifs with hnew
  · decide
  · exact hu p ((h.mem_tables.1 hp).resolve_right hnew)

theorem Hung.freeOutside {r : ℕ} {new : List ℕ} (h : Hung L r s s' new) (hf : FreeOutside L s r) :
    FreeOutside L s' r := by
  intro p hp h0 hmem
  rw [h.pages] at h0
  split_ifs at h0 with hnew
  · exact absurd h0 (by decide)
  · exact hf p hp h0 ((h.mem_tables.1 hmem).resolve_right hnew)

theorem Hung.trans {r : ℕ} {s₁ s₂ s₃ : State} {as bs : List ℕ} (h1 : Hung L r s₁ s₂ as)
    (h2 : Hung L r s₂ s₃ bs) : Hung L r s₁ s₃ (as ++ bs) := by
  have hdisj : ∀ p ∈ bs, p ∉ as := by
    intro p hp has
    have := (h2.fresh p hp).1
    rw [h1.pages, if_pos has] at this
    exact absurd this (by decide)
  refine ⟨h2.tree, ?_, fun v => (h2.translate v).trans (h1.translate v), fun p hp hnew => ?_,
    fun p => ?_, ?_, fun p hp => ?_, ?_⟩
  · rw [← List.append_assoc]
    exact h2.subtables.trans (h1.subtables.append_right _)
  · simp only [List.mem_append, not_or] at hnew
    rw [h2.mem p (fun h => (h1.mem_tables.1 h).elim hp hnew.1) hnew.2, h1.mem p hp hnew.1]
  · rw [h2.pages, h1.pages]
    simp only [List.mem_append]
    split_ifs <;> simp_all
  · exact List.nodup_append.2 ⟨h1.nodup, h2.nodup, by
      intro a ha b hb
      rintro rfl
      exact hdisj a hb ha⟩
  · rcases List.mem_append.1 hp with has | hbs
    · exact h1.fresh p has
    · have := h2.fresh p hbs
      rw [h1.pages, if_neg (hdisj p hbs)] at this
      exact this
  · rw [h2.rest, h1.rest]

/-- The same for a table that is well-shaped and stays so. -/
structure Grown (L : Layout) (r : ℕ) (s s' : State) (new : List ℕ) : Prop extends Hung L r s s' new where
  shaped : Shaped s'.mem r
  full : Full s.mem r → Full s'.mem r
  small : Small s.mem r → Small s'.mem r

theorem pwu_and_link (p n : ℕ) : pwu (p &&& (n * 4096 + 7)) = pwu p := by
  rw [pwu, Nat.and_assoc, entry_and_perm (by norm_num) (by decide), pwu]
  rfl

/-- The state after the page `n` has been allocated and linked, empty, at the end of the walk for
    the page `v`. -/
def State.link (s : State) (r v n : ℕ) : State :=
  { s with pages := Function.update s.pages n 1, mem := linked s.mem r v n }

theorem hung_link {r v n k : ℕ} (h : Hangs s.mem r v n k) (h0 : s.pages n = 0) (hn : Alloc L n) :
    Hung L r s (s.link r v n) [n] := by
  refine ⟨h.tree_linked, h.subtables, h.translate, fun p hp hnew => ?_, fun p => ?_,
    List.nodup_singleton n, fun p hp => ?_, rfl⟩
  · rw [List.mem_singleton] at hnew
    funext i
    have hpage : p ≠ (stop s.mem r v).page := by
      rintro rfl
      exact hp stop_page_mem
    change linked s.mem r v n p i = s.mem p i
    rw [linked, set_page_ne hpage, fill_of_ne hnew]
  · simp only [State.link, Function.update_apply, List.mem_singleton]
  · rw [List.mem_singleton.1 hp]
    exact ⟨h0, hn⟩

theorem Hangs.full {m : Mem} {r v n k : ℕ} (h : Hangs m r v n k) (hfull : Full m r) :
    Full (linked m r v n) r := by
  intro v'
  by_cases heq : ((stop m r v').page, (stop m r v').idx) = ((stop m r v).page, (stop m r v).idx)
  · rw [h.stop_same heq, pwu_and_link]
    exact hfull v'
  · rw [(h.stop_other heq).1]
    exact hfull v'

theorem Hangs.small {m : Mem} {r v n k : ℕ} (h : Hangs m r v n k) (hsmall : Small m r) :
    Small (linked m r v n) r := by
  intro v' hp
  rw [h.translate] at hp
  by_cases heq : ((stop m r v').page, (stop m r v').idx) = ((stop m r v).page, (stop m r v).idx)
  · -- the walk that goes on ends at the entry that was absent
    obtain ⟨h1, h2⟩ := Prod.ext_iff.1 heq
    refine absurd (if_neg ?_) hp
    simp only at h1 h2
    rw [h1, h2, h.absent]
    decide
  · rw [(h.stop_other heq).1]
    exact hsmall v' hp

theorem grown_link {r v n k : ℕ} (h : Linkable s.mem r v n k) (h0 : s.pages n = 0)
    (hn : Alloc L n) : Grown L r s (s.link r v n) [n] :=
  ⟨hung_link h.toHangs h0 hn, h.shaped_linked, h.full, h.small⟩

/-- An iterator that stands above a new link goes down through it. -/
theorem Hangs.down {m : Mem} {r v n k : ℕ} (h : Hangs m r v n k) :
    (vmiterAt m r (v * 4096)).down (linked m r v n) =
      .ok (vmiterAt (linked m r v n) r (v * 4096)) := by
  have hdiv : v * 4096 / 4096 = v := by omega
  have hidx : (stop m r v).idx = ix v (k + 1) := by
    have : (stop m r v).idx = ix v (stop m r v).level := walk_idx
    rw [this, h.level]
  have hentry : linked m r v n (stop m r v).page (ix v (k + 1)) = n * 4096 + 7 := by
    rw [← hidx, linked, set_self]
  have hwalk : walk (linked m r v n) v (k + 1) (stop m r v).page (stop m r v).perm =
      stop (linked m r v n) r v := by
    have hlink : IsLink (linked m r v n (stop m r v).page (ix v (k + 1))) := by
      rw [hentry]; exact isLink_entry n
    rw [walk_link hlink, hentry, pageOf_entry (h.lt.trans (by norm_num)) (by norm_num),
      walk_empty h.empty, h.stop_same rfl]
  have hit : vmiterAt m r (v * 4096) = ⟨r * 4096, .entry (stop m r v).page (pageindex (v * 4096) (k + 1)),
      k + 1, (stop m r v).perm, v * 4096⟩ := by
    rw [vmiterAt, pageindex_eq, hdiv, ← hidx, h.level]
  rw [hit]
  refine down_eq (by rw [hdiv]; exact hwalk) ?_
  rw [hdiv, h.stop_same rfl, h.empty]
  decide

/-- What every link that `try_map` stores for the page `v` preserves. -/
def HangInv (L : Layout) (r v : ℕ) (I : State → Prop) : Prop :=
  ∀ s n k, I s → firstFree L s.pages = some n → Hangs s.mem r v n k → I (s.link r v n)

/-- **The loop of `try_map`** allocates tables until the walk ends at level 0, or until there is no
    memory. -/
theorem tryMapLoop_hangs {r v q : ℕ} (hq : q ≠ 0) {I : State → Prop} (hI : HangInv L r v I)
    (k : ℕ) :
    ∀ s : State, I s → (tables s.mem 3 r).Nodup → FreeOutside L s r → (stop s.mem r v).level = k →
    (0 < k → s.mem (stop s.mem r v).page (stop s.mem r v).idx % 2 = 0) →
    ∃ ok s' new, (vmiterAt s.mem r (v * 4096)).tryMapLoop L q k s =
        .ok (ok, vmiterAt s'.mem r (v * 4096), s') ∧ Hung L r s s' new ∧ I s' ∧
      pwu (stop s'.mem r v).perm = pwu (stop s.mem r v).perm ∧
      new.length + (stop s'.mem r v).level = k ∧
      (ok = true → (stop s'.mem r v).level = 0) ∧
      (ok = false → 0 < (stop s'.mem r v).level ∧ firstFree L s'.pages = none) := by
  induction k with
  | zero =>
    intro s hinv hs _ hl _
    exact ⟨true, s, [], rfl, .refl hs, hinv, rfl, by simpa using hl, fun _ => hl, by simp⟩
  | succ k ih =>
    intro s hinv hs hu hl habs
    have hdiv : v * 4096 / 4096 = v := by omega
    have hlevel : (vmiterAt s.mem r (v * 4096)).level = k + 1 := by
      rw [vmiterAt, hdiv]; exact hl
    have hpep : (vmiterAt s.mem r (v * 4096)).pep =
        .entry (stop s.mem r v).page (stop s.mem r v).idx := by rw [vmiterAt, hdiv]
    have habsent := habs (Nat.succ_pos k)
    have hassert : assert ((vmiterAt s.mem r (v * 4096)).pep.load s.mem &&& PTE_P = 0) =
        .ok () := by
      rw [assert, if_pos]
      rw [hpep, Pep.load, and_one]
      exact habsent
    rw [Vmiter.tryMapLoop, if_pos ⟨by rw [hlevel]; exact Nat.succ_pos k, hq⟩, hassert, ok_bind]
    cases hfree : firstFree L s.pages with
    | none =>
      refine ⟨false, s, [], ?_, .refl hs, hinv, rfl, by simpa using hl, by simp,
        fun _ => ⟨by omega, hfree⟩⟩
      rw [kalloc_none hfree]; rfl
    | some n =>
      obtain ⟨hn, h0⟩ := firstFree_some hfree
      have hpos := hn.pos
      have hlt : n < 2 ^ 20 := lt_trans hn.lt (by decide)
      have hlink : Hangs s.mem r v n k := ⟨hs, hl, habsent, hu n hn h0, hlt⟩
      have hg : Hung L r s (s.link r v n) [n] := hung_link hlink h0 hn
      have hstop := hlink.stop_same rfl
      -- the state after the two stores, and the iterator after `down`
      have hmem : (vmiterAt s.mem r (v * 4096)).pep.store (s.alloc n 0).mem
          (n * 4096 ||| PTE_P ||| PTE_W ||| PTE_U) = linked s.mem r v n := by
        have hor : n * 4096 ||| PTE_P ||| PTE_W ||| PTE_U = n * 4096 + 7 := by
          rw [Nat.or_assoc, Nat.or_assoc]
          exact page_or_perm (by decide)
        rw [hpep, hor]; rfl
      have hdown : (vmiterAt s.mem r (v * 4096)).down (linked s.mem r v n) =
          .ok (vmiterAt (linked s.mem r v n) r (v * 4096)) :=
        hlink.down
      obtain ⟨ok, s', new, hloop, hgrown, hinv', hperm, hlen, htrue, hfalse⟩ := ih (s.link r v n)
        (hI s n k hinv hfree hlink) hg.tree (hg.freeOutside hu) (by rw [State.link, hstop])
        (fun _ => by rw [State.link, hstop]; simp only [hlink.empty])
      refine ⟨ok, s', n :: new, ?_, hg.trans hgrown, hinv', ?_,
        by simp only [List.length_cons]; omega, htrue, hfalse⟩
      · rw [kalloc_some hfree]
        have hne : ¬ n * 4096 = 0 := by omega
        have hpep' : ¬ (vmiterAt s.mem r (v * 4096)).pep = .zeroPe := by
          rw [hpep]
          exact Pep.noConfusion
        simp only [hne, hpep', if_false, page_div, State.alloc, fill_fill]
        simp only [State.alloc] at hmem
        rw [hmem, hdown, ok_bind]
        exact hloop
      · rw [hperm, State.link, hstop]
        exact pwu_and_link _ n

/-- What every link that `try_map` stores for the page `v` in a well-shaped table preserves. -/
def LinkInv (L : Layout) (r v : ℕ) (I : State → Prop) : Prop :=
  ∀ s n k, I s → firstFree L s.pages = some n → Linkable s.mem r v n k → I (s.link r v n)

/-- The loop of `try_map` keeps a table well-shaped. -/
theorem tryMapLoop_spec {r v q : ℕ} (hq : q ≠ 0) {I : State → Prop} (hI : LinkInv L r v I) (k : ℕ)
    (s : State) (hinv : I s) (hs : Shaped s.mem r) (hu : TablesUsed s r)
    (hl : (stop s.mem r v).level = k)
    (habs : 0 < k → s.mem (stop s.mem r v).page (stop s.mem r v).idx % 2 = 0) :
    ∃ ok s' new, (vmiterAt s.mem r (v * 4096)).tryMapLoop L q k s =
        .ok (ok, vmiterAt s'.mem r (v * 4096), s') ∧ Grown L r s s' new ∧ I s' ∧
      pwu (stop s'.mem r v).perm = pwu (stop s.mem r v).perm ∧
      new.length + (stop s'.mem r v).level = k ∧
      (ok = true → (stop s'.mem r v).level = 0) ∧
      (ok = false → 0 < (stop s'.mem r v).level ∧ firstFree L s'.pages = none) := by
  have hI' : HangInv L r v fun s' => I s' ∧ Shaped s'.mem r ∧ (Full s.mem r → Full s'.mem r) ∧
      (Small s.mem r → Small s'.mem r) := by
    rintro t n k ⟨h1, h2, h3, h4⟩ hfree hlink
    have hlinkable : Linkable t.mem r v n k := ⟨hlink, h2⟩
    exact ⟨hI t n k h1 hfree hlinkable, hlinkable.shaped_linked, fun h => hlink.full (h3 h),
      fun h => hlink.small (h4 h)⟩
  obtain ⟨ok, s', new, hloop, hg, ⟨h1, h2, h3, h4⟩, hrest⟩ :=
    tryMapLoop_hangs hq hI' k s ⟨hinv, hs, id, id⟩ hs.tree hu.freeOutside hl habs
  exact ⟨ok, s', new, hloop, ⟨hg, h2, h3, h4⟩, h1, hrest⟩

/-! ## `try_map` -/

/-- The state after the page `v` has been mapped, in a table that reaches down to level 0. -/
def State.map (s : State) (r v n q : ℕ) : State := { s with mem := mapped s.mem r v n q }

theorem assert_ok {c : Prop} [Decidable c] (h : c) : assert c = .ok () := if_pos h

theorem assert_error {c : Prop} [Decidable c] (h : ¬ c) : assert c = .error .assertion := if_neg h

theorem assert_eq_ok {p : Prop} [Decidable p] : assert p = .ok () ↔ p := by
  rw [assert]
  split_ifs with hp
  · simp [hp]
  · simp [hp]

theorem aligned (v : ℕ) : v * 4096 &&& (PAGESIZE - 1) = 0 := by
  rw [show PAGESIZE - 1 = 2 ^ 12 - 1 by decide, Nat.and_two_pow_sub_one_eq_mod]
  omega

theorem vmiterAt_level {m : Mem} {r v : ℕ} :
    (vmiterAt m r (v * 4096)).level = (stop m r v).level := by
  rw [vmiterAt, Nat.mul_div_cancel v (by decide)]

theorem vmiterAt_perm {m : Mem} {r v : ℕ} :
    (vmiterAt m r (v * 4096)).perm = (stop m r v).perm := by
  rw [vmiterAt, Nat.mul_div_cancel v (by decide)]

theorem vmiterAt_pep {m : Mem} {r v : ℕ} :
    (vmiterAt m r (v * 4096)).pep = .entry (stop m r v).page (stop m r v).idx := by
  rw [vmiterAt, Nat.mul_div_cancel v (by decide)]

/-- Mapping nothing clears the entry, if there is one. -/
theorem tryMap_zero {r v : ℕ} : (vmiterAt s.mem r (v * 4096)).tryMap L s NEG_ONE 0 =
    .ok (0, if (stop s.mem r v).level = 0 then s.map r v 0 0 else s) := by
  have hasserts : (vmiterAt s.mem r (v * 4096)).tryMapAsserts 0 0 = .ok () := by
    rw [Vmiter.tryMapAsserts, assert_ok (by exact aligned v), ok_bind,
      assert_ok (by rw [if_neg (by decide)]; rfl), ok_bind,
        assert_ok (by rw [Nat.zero_and, Nat.zero_and])]
  have hloop : ∀ k, (vmiterAt s.mem r (v * 4096)).tryMapLoop L 0 k s =
      .ok (true, vmiterAt s.mem r (v * 4096), s)
    | 0 => rfl
    | k + 1 => by rw [Vmiter.tryMapLoop, if_neg fun h => h.2 rfl]
  rw [Vmiter.tryMap, Vmiter.tryMapIt]
  simp only [and_self, if_true, hasserts, ok_bind, hloop, vmiterAt_level]
  by_cases hl : (stop s.mem r v).level = 0
  · simp only [hl, if_true, vmiterAt_pep]
    rfl
  · simp only [hl, if_false]
    rfl

section
variable {r v n q : ℕ}

theorem tryMapAsserts_ok (hn : n < 2 ^ 40) (hq : q % 2 = 1)
    (hperm : pwu q &&& (stop s.mem r v).perm = pwu q) :
    (vmiterAt s.mem r (v * 4096)).tryMapAsserts (n * 4096) q = .ok () := by
  have h1 : n * 4096 ≠ NEG_ONE := by rw [NEG_ONE]; omega
  have h2 : n * 4096 &&& PTE_PAMASK = n * 4096 := by
    rw [and_pamask, pageOf_eq]; omega
  rw [Vmiter.tryMapAsserts, assert_ok (by exact aligned v), ok_bind,
    assert_ok (by rw [if_pos (by rw [and_one]; omega)]; exact ⟨h1, h2⟩), ok_bind]
  exact assert_ok (by rw [vmiterAt_perm]; exact hperm)

/-- `try_map` checks that the links on the way grant the permissions. -/
theorem tryMap_denied (hn : n < 2 ^ 40) (hq : q % 2 = 1)
    (hperm : ¬ pwu q &&& (stop s.mem r v).perm = pwu q) :
    (vmiterAt s.mem r (v * 4096)).tryMap L s (n * 4096) q = .error .assertion := by
  have h1 : n * 4096 ≠ NEG_ONE := by rw [NEG_ONE]; omega
  have h2 : n * 4096 &&& PTE_PAMASK = n * 4096 := by
    rw [and_pamask, pageOf_eq]; omega
  have hasserts : (vmiterAt s.mem r (v * 4096)).tryMapAsserts (n * 4096) q = .error .assertion := by
    rw [Vmiter.tryMapAsserts, assert_ok (by exact aligned v), ok_bind,
      assert_ok (by rw [if_pos (by rw [and_one]; omega)]; exact ⟨h1, h2⟩), ok_bind]
    exact assert_error (by rw [vmiterAt_perm]; exact hperm)
  have hq0 : ¬ (n * 4096 = NEG_ONE ∧ q = 0) := by omega
  rw [Vmiter.tryMap, Vmiter.tryMapIt]
  simp only [hq0, if_false, hasserts, error_bind]

/-- **`try_map` of a present page** grows the table as far as there is memory, and then stores the
    entry. -/
theorem tryMap_spec {I : State → Prop} (hI : LinkInv L r v I) (hinv : I s) (hs : Shaped s.mem r)
    (hu : TablesUsed s r) (hn : n < 2 ^ 40) (hq : q % 2 = 1)
    (hperm : pwu q &&& (stop s.mem r v).perm = pwu q) (hq' : q < 4096)
    (habs : 0 < (stop s.mem r v).level → s.mem (stop s.mem r v).page (stop s.mem r v).idx % 2 = 0) :
    ∃ s' new, Grown L r s s' new ∧ I s' ∧ pwu (stop s'.mem r v).perm = pwu (stop s.mem r v).perm ∧
      new.length + (stop s'.mem r v).level = (stop s.mem r v).level ∧
      ((stop s'.mem r v).level = 0 ∧
          (vmiterAt s.mem r (v * 4096)).tryMap L s (n * 4096) q = .ok (0, s'.map r v n q) ∨
        (0 < (stop s'.mem r v).level ∧ firstFree L s'.pages = none) ∧
          (vmiterAt s.mem r (v * 4096)).tryMap L s (n * 4096) q = .ok (-1, s')) := by
  obtain ⟨ok, s', new, hloop, hg, hinv', hpwu, hlen, htrue, hfalse⟩ :=
    tryMapLoop_spec (q := q) (by omega) hI _ s hinv hs hu rfl habs
  refine ⟨s', new, hg, hinv', hpwu, hlen, ?_⟩
  have hq0 : ¬ (n * 4096 = NEG_ONE ∧ q = 0) := by omega
  rw [Vmiter.tryMap, Vmiter.tryMapIt]
  simp only [hq0, if_false, tryMapAsserts_ok hn hq hperm, ok_bind, vmiterAt_level, hloop]
  cases ok with
  | true =>
    left
    have hl := htrue rfl
    refine ⟨hl, ?_⟩
    simp only [hl, if_true, vmiterAt_pep, page_or_perm hq']
    rfl
  | false => exact Or.inr ⟨hfalse rfl, rfl⟩

/-- A large page is not split. -/
theorem tryMap_large (hn : n < 2 ^ 40) (hq : q % 2 = 1)
    (hperm : pwu q &&& (stop s.mem r v).perm = pwu q) (hl : 0 < (stop s.mem r v).level)
    (hp : s.mem (stop s.mem r v).page (stop s.mem r v).idx % 2 = 1) :
    (vmiterAt s.mem r (v * 4096)).tryMap L s (n * 4096) q = .error .assertion := by
  have hq0 : ¬ (n * 4096 = NEG_ONE ∧ q = 0) := by omega
  rw [Vmiter.tryMap, Vmiter.tryMapIt]
  simp only [hq0, if_false, tryMapAsserts_ok hn hq hperm, ok_bind, vmiterAt_level]
  obtain ⟨k, hk⟩ : ∃ k, (stop s.mem r v).level = k + 1 := ⟨_, (Nat.succ_pred_eq_of_pos hl).symm⟩
  rw [hk, Vmiter.tryMapLoop, if_pos ⟨by rw [vmiterAt_level]; exact hl, by omega⟩, assert_error]
  · rfl
  · rw [vmiterAt_pep, Pep.load, and_one]
    omega

end

end CProj.WeensyOS
