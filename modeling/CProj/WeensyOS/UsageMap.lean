/-
  The usage map is exact.

  The map lies in a page that is none of the page tables, so that the iterators of `refresh` read
  the same entries whatever has been marked.  `ptiter` visits the tables below a root
  (`markTables_spec`); `vmiter` passes over the regions to which the user has no access, and
  comes to every page of the others (`markUser_spec`).
-/
import CProj.WeensyOS.Frames
import CProj.WeensyOS.Isolation
import CProj.WeensyOS.MemoryViewer

namespace CProj.WeensyOS

variable {L : Layout} {s : State} {m m' m₀ : Mem} {v r n b l t flags pid : ℕ}

/-! ## The tables below a root -/

/-- The page `t` is a table of level `l` of the page table with root `r`. -/
def TableAt (m : Mem) (r l t : ℕ) : Prop := l = 3 ∧ t = r ∨ Below m 3 r l t

theorem Below.child {k p i : ℕ} (h : Below m l t k p) (hi : i < 512) (hlink : IsLink (m p i)) :
    ∀ {j : ℕ}, k = j + 1 → Below m l t j (pageOf (m p i)) := by
  induction h with
  | link hi' hlink' =>
    rintro j rfl
    exact .under hi' hlink' (.link hi hlink)
  | under hi' hlink' _ ih =>
    intro j hj
    exact .under hi' hlink' (ih hlink hj)

theorem TableAt.mem (h : TableAt m r l t) : t ∈ tables m 3 r := by
  rcases h with ⟨-, rfl⟩ | h
  · exact List.mem_cons_self
  · exact List.mem_cons_of_mem _ (mem_subtables_iff.2 ⟨l, h⟩)

theorem TableAt.child {i : ℕ} (h : TableAt m r (l + 1) t) (hi : i < 512) (hlink : IsLink (m t i)) :
    TableAt m r l (pageOf (m t i)) := by
  rcases h with ⟨h3, rfl⟩ | h
  · obtain rfl : l = 2 := by omega
    exact Or.inr (.link hi hlink)
  · exact Or.inr (h.child hi hlink rfl)

/-- `ptiter` stands in a table, above level 0. -/
def Ptiter.Stands (m : Mem) (r : ℕ) (it : Ptiter) : Prop :=
  ∃ l t va, 1 ≤ l ∧ l ≤ 3 ∧ TableAt m r l t ∧ it = ptAt r l t va

/-- `ptiter::down` reads the tables below the root only, and stands in one of them afterwards. -/
theorem ptAt_loop (hagree : Agree m m' (tables m 3 r)) :
    ∀ (fuel : ℕ) {l t va stop : ℕ} {skip : Bool}, TableAt m r l t → 1 ≤ stop → stop ≤ l → l ≤ 3 →
    Cfg.loop m' fuel ⟨ptAt r l t va, stop, skip⟩ = Cfg.loop m fuel ⟨ptAt r l t va, stop, skip⟩ ∧
      ∀ it, Cfg.loop m fuel ⟨ptAt r l t va, stop, skip⟩ = .ok it → it.active = true → it.Stands m r
  | 0, l, t, va, stop, skip, _, _, _, _ => by
    refine ⟨rfl, fun it h => ?_⟩
    cases h
  | fuel + 1, l, t, va, stop, skip, ht, h1, hstop, h3 => by
    have hentry : m' t (va / regionSize l % 512) = m t (va / regionSize l % 512) :=
      hagree t ht.mem _
    by_cases hdown : IsLink (m t (va / regionSize l % 512)) ∧ skip = false
    · obtain ⟨hlink, rfl⟩ := hdown
      have hlink' : IsLink (m' t (va / regionSize l % 512)) := by rwa [hentry]
      by_cases hl : l = stop
      · subst hl
        rw [step_stop hlink, step_stop hlink']
        refine ⟨rfl, fun it h _ => ?_⟩
        cases h
        exact ⟨l, t, va, h1, h3, ht, rfl⟩
      · obtain ⟨l, rfl⟩ : ∃ k, l = k + 1 := ⟨l - 1, by omega⟩
        rw [step_down hlink hl, step_down hlink' hl, hentry]
        have hi := Nat.mod_lt (va / regionSize (l + 1)) (show 0 < 512 by decide)
        exact ptAt_loop hagree fuel (ht.child hi hlink) h1 (by omega) (by omega)
    · have hdone : ¬ IsLink (m t (va / regionSize l % 512)) ∨ skip = true := by
        by_cases hskip : skip = true
        · exact Or.inr hskip
        · exact Or.inl fun hlink => hdown ⟨hlink, Bool.eq_false_of_not_eq_true hskip⟩
      have hdone' : ¬ IsLink (m' t (va / regionSize l % 512)) ∨ skip = true := by rwa [hentry]
      by_cases hlast : va / regionSize l % 512 = 511
      swap
      · rw [step_next hdone hlast, step_next hdone' hlast]
        exact ptAt_loop hagree fuel ht h1 hstop h3
      by_cases hl : l = 3
      · subst hl
        rw [step_end hdone hlast, step_end hdone' hlast]
        refine ⟨rfl, fun it h hactive => ?_⟩
        cases h
        exact absurd (of_decide_eq_true hactive) (Nat.not_succ_le_self _)
      · rw [step_up hdone hlast hl, step_up hdone' hlast hl]
        exact ptAt_loop hagree fuel (Or.inl ⟨rfl, rfl⟩) (by omega) (by omega) le_rfl

/-- The rest of the loop, which visits the tables `ns`. -/
theorem markTables_visits (hv : v / PAGESIZE ∉ tables m₀ 3 r) (hf : flags < 2 ^ 32) :
    ∀ (fuel : ℕ) {it : Ptiter} {m : Mem} {ns : List ℕ}, Agree m₀ m (tables m₀ 3 r) →
    (it.active = true → it.Stands m₀ r) → it.visits m₀ fuel = .ok ns →
    ∃ m', markTables v flags fuel it m = .ok m' ∧
      Marked v (fun n b => n ∈ ns ∧ flags.testBit b = true) m m'
  | 0, it, m, ns, _, _, h => by cases h
  | fuel + 1, it, m, ns, hagree, hstands, h => by
    rw [Ptiter.visits] at h
    rw [markTables]
    by_cases hactive : it.active = true
    swap
    · rw [if_neg hactive] at h ⊢
      cases h
      exact ⟨m, rfl, marked_refl.congr fun n b => by simp⟩
    rw [if_pos hactive] at h ⊢
    obtain ⟨next, hnext, h⟩ := bind_eq_ok.1 h
    obtain ⟨rest, hrest, h⟩ := bind_eq_ok.1 h
    cases h
    obtain ⟨l, t, va, h1, h3, ht, rfl⟩ := hstands hactive
    have hpa : (ptAt r l t va).pa m = (ptAt r l t va).pa m₀ := by
      rw [ptAt_pa, ptAt_pa, hagree t ht.mem]
    have hmark := marked_mark (m := m) (v := v) hf ((ptAt r l t va).pa m₀)
    have hagree' : Agree m₀ (mark m v ((ptAt r l t va).pa m₀) flags) (tables m₀ 3 r) := by
      intro p hp i
      rw [hmark.others p fun heq => hv (heq ▸ hp), hagree p hp]
    obtain ⟨hloop, hstands'⟩ :=
      @ptAt_loop _ _ _ hagree' Ptiter.fuel l t va 1 true ht le_rfl h1 h3
    obtain ⟨m', hm', hmarked⟩ := markTables_visits hv hf fuel hagree' (hstands' next hnext) hrest
    refine ⟨m', ?_, (hmark.trans hmarked).congr fun n b => ?_⟩
    · rw [hpa]
      change (Cfg.loop _ Ptiter.fuel ⟨ptAt r l t va, 1, true⟩ >>= _) = _
      rw [hloop]
      change ((ptAt r l t va).next m₀ >>= _) = _
      rw [hnext, ok_bind, hm']
    · rw [List.mem_cons, or_and_right]

/-- **The loop over the page tables** marks the tables below the root. -/
theorem markTables_spec (hv : v / PAGESIZE ∉ tables m 3 r) (hf : flags < 2 ^ 32) :
    ∃ m', (Ptiter.create m (r * 4096) 0 >>= fun it => markTables v flags Ptiter.fuel it m) =
      .ok m' ∧
      Marked v (fun n b => n ∈ subtables m 3 r ∧ flags.testBit b = true) m m' := by
  obtain ⟨it, hcreate, hvisits⟩ := bind_eq_ok.1 (ptiterLoop_eq m r)
  rw [hcreate, ok_bind]
  refine markTables_visits hv hf Ptiter.fuel (fun _ _ _ => rfl) (fun hactive => ?_) hvisits
  rw [ptiter_create] at hcreate
  exact (ptAt_loop (fun _ _ _ => rfl) Ptiter.fuel (Or.inl ⟨rfl,
    rfl⟩) le_rfl (by decide) le_rfl).2 it
    hcreate hactive

/-! ## The pages of a user -/

/-- The user of the page table has access to the page `n`, at a low canonical address. -/
def UserMaps (m : Mem) (r n : ℕ) : Prop := ∃ w < 2 ^ 35, userPage m r w = some n

theorem grants_user {w : ℕ} :
    Grants m r (w * 4096) (PTE_P ||| PTE_U) ↔ ∃ n, userPage m r w = some n := by
  rw [Grants, Nat.mul_div_cancel w (by decide)]
  exact exists_congr fun n => userPage_eq_some.symm

theorem low_iff (it : Vmiter) : it.low = true ↔ it.va < VA_LOWEND := by
  rw [Vmiter.low, decide_eq_true_iff, VA_LOWMAX, VA_LOWEND]
  omega

/-- The iterator stands at a page, or at the end of the low addresses. -/
structure AtPage (m : Mem) (r : ℕ) (it : Vmiter) : Prop where
  le : it.va ≤ VA_LOWEND
  aligned : it.va % 4096 = 0
  at_va : it.va < VA_LOWEND → it = vmiterAt m r it.va

theorem atPage_move {it : Vmiter} {va : ℕ} (hb : Below4G m r) (hv : Valid m r it)
    (hle : va ≤ VA_LOWEND)
    (hva : va % 4096 = 0) : ∃ it', it.realFind m va = .ok it' ∧ AtPage m r it' ∧ it'.va = va := by
  obtain ⟨it', hmove, -, hva', hat⟩ := hv.realFind_low hb hle
  refine ⟨it', hmove, ⟨?_, ?_, fun hlt => ?_⟩, hva'⟩
  · rw [hva']; exact hle
  · rw [hva']; exact hva
  · rw [hva'] at hlt ⊢
    exact hat hlt

section
variable {va : ℕ}

theorem valid_low (hlow : va < VA_LOWEND) : Valid m r (vmiterAt m r va) := by
  have hlt : va < 2 ^ 64 := hlow.trans (by decide)
  refine valid_vmiterAt ((canonical_iff hlt).2 (canonical_of_lt ?_)) hlt
  rw [VA_LOWEND] at hlow
  omega

/-- `next` at a page to which the user has access. -/
theorem next_user (hb : Below4G m r) (hva : va % 4096 = 0) (hlow : va < VA_LOWEND)
    (huser : (vmiterAt m r va).user m = true) :
    ∃ it', (vmiterAt m r va).next m = .ok it' ∧ AtPage m r it' ∧ it'.va = va + 4096 := by
  obtain ⟨n, q, htr, hq⟩ := vmiterAt_user.1 huser
  have hperm : (vmiterAt m r va).permissions m = q := by rw [vmiterAt_permissions, htr]
  have hq0 : q ≠ 0 := by
    rintro rfl
    exact absurd hq (by decide)
  have hle : va + 4096 ≤ VA_LOWEND := by
    rw [VA_LOWEND] at hlow ⊢
    omega
  have haddr : vaAdd (va ||| pageoffmask 0) 1 = va + 4096 := by
    have hsize : regionSize 0 = 4096 := rfl
    rw [vaAdd, or_mask_succ, hsize]
    rw [VA_LOWEND] at hlow
    omega
  rw [Vmiter.next, hperm, if_neg fun h => hq0 h.2, vmiterAt_va, haddr]
  exact atPage_move hb (valid_low hlow) hle (by omega)

/-- `next_range` passes over pages with the same permissions. -/
theorem nextRange_low (hb : Below4G m r) (hlow : va < VA_LOWEND) :
    ∃ it', (vmiterAt m r va).nextRange m = .ok it' ∧ AtPage m r it' ∧
      it'.va = regionEnd m r va := by
  rw [Vmiter.nextRange, lastVa_eq hlow]
  exact atPage_move hb (valid_low hlow) (regionEnd_le m r hlow) (regionEnd_page m r va).2

/-- There are no pages of the user in a region to which it has no access. -/
theorem region_no_user {w : ℕ} (hva : va % 4096 = 0) (huser : ¬ (vmiterAt m r va).user m = true)
    (hle : va / 4096 ≤ w) (hlt : w < regionEnd m r va / 4096) : userPage m r w ≠ some n := by
  intro hn
  have hgrants : Grants m r (w * 4096) (PTE_P ||| PTE_U) := grants_user.2 ⟨n, hn⟩
  have hgrants' : Grants m r va (PTE_P ||| PTE_U) := (grants_region (by omega) (by omega)).1 hgrants
  exact huser (vmiterAt_user.2 hgrants')

end

/-- The pages to which the user has access from the page `w₀` on. -/
def UserFrom (m : Mem) (r w₀ n : ℕ) : Prop := ∃ w, w₀ ≤ w ∧ w < 2 ^ 35 ∧ userPage m r w = some n

theorem Agree.userFrom {w₀ : ℕ} (h : Agree m m' (WeensyOS.tables m 3 r)) :
    UserFrom m' r w₀ n ↔ UserFrom m r w₀ n := by
  simp only [UserFrom, h.userPage]

theorem userFrom_succ {w₀ k : ℕ} (hlt : w₀ < 2 ^ 35) (hk : userPage m r w₀ = some k) :
    UserFrom m r w₀ n ↔ n = k ∨ UserFrom m r (w₀ + 1) n := by
  constructor
  · rintro ⟨w, hw, hw', hn⟩
    rcases Nat.eq_or_lt_of_le hw with rfl | hw
    · rw [hk] at hn
      exact Or.inl (Option.some.inj hn).symm
    · exact Or.inr ⟨w, hw, hw', hn⟩
  · rintro (rfl | ⟨w, hw, hw', hn⟩)
    · exact ⟨w₀, le_rfl, hlt, hk⟩
    · exact ⟨w, by omega, hw', hn⟩

theorem userFrom_region {va : ℕ} (hva : va % 4096 = 0) (huser : ¬ (vmiterAt m r va).user m = true) :
    UserFrom m r (va / 4096) n ↔ UserFrom m r (regionEnd m r va / 4096) n := by
  have hpage := (regionEnd_page m r va).1
  constructor
  · rintro ⟨w, hw, hw', hn⟩
    refine ⟨w, ?_, hw', hn⟩
    by_contra hlt
    exact region_no_user hva huser hw (Nat.lt_of_not_le hlt) hn
  · rintro ⟨w, hw, hw', hn⟩
    exact ⟨w, by omega, hw', hn⟩

/-- An iterator starts at a page. -/
theorem atPage_zero (m : Mem) (r : ℕ) : AtPage m r (vmiterAt m r 0) :=
  ⟨Nat.zero_le _, rfl, fun _ => rfl⟩

/-- **The loop over the addresses** marks the pages to which the user has access. -/
theorem markUser_spec (hf : flags < 2 ^ 32) (fuel : ℕ) {it : Vmiter} (hb : Below4G m r)
    (hv : v / PAGESIZE ∉ tables m 3 r) (hat : AtPage m r it)
    (hfuel : VA_LOWEND / 4096 < it.va / 4096 + fuel) :
    ∃ m', markUser v flags fuel it m = .ok m' ∧
      Marked v (fun n b => UserFrom m r (it.va / 4096) n ∧ flags.testBit b = true) m m' := by
  have hend : VA_LOWEND / 4096 = 2 ^ 35 := by decide
  induction fuel generalizing it m with
  | zero =>
    have hdiv := Nat.div_le_div_right (c := 4096) hat.le
    omega
  | succ fuel ih =>
    rw [markUser]
    by_cases hlt : it.va < VA_LOWEND
    swap
    · rw [if_neg (mt (low_iff it).1 hlt)]
      refine ⟨m, rfl, marked_refl.congr fun n b => iff_of_false id ?_⟩
      rintro ⟨⟨w, hw, hw', -⟩, -⟩
      have hge := Nat.div_le_div_right (c := 4096) (Nat.le_of_not_lt hlt)
      omega
    obtain ⟨va, rfl⟩ : ∃ va, it = vmiterAt m r va := ⟨it.va, hat.at_va hlt⟩
    have hva := hat.aligned
    rw [if_pos ((low_iff _).2 hlt)]
    rw [vmiterAt_va] at hlt hva hfuel ⊢
    by_cases huser : (vmiterAt m r va).user m = true
    · -- the page is marked
      obtain ⟨k, q, htr, hq⟩ := vmiterAt_user.1 huser
      have hlow : va / 4096 < 2 ^ 35 := by
        rw [VA_LOWEND] at hlt
        omega
      have hpa : (vmiterAt m r va).pa m / PAGESIZE = k := by
        rw [vmiterAt_pa htr, hva, Nat.add_zero, page_div]
      have hmark := marked_mark (m := m) (v := v) hf ((vmiterAt m r va).pa m)
      have hagree := hmark.agree hv
      obtain ⟨it', hnext, hat', hva'⟩ := next_user (hagree.below4G hb) hva hlt
        (by rw [vmiterAt_user, hagree.translate]; exact ⟨k, q, htr, hq⟩)
      rw [hagree.vmiterAt] at hnext
      obtain ⟨m', hloop, hmarked⟩ := ih (hagree.below4G hb) (by rwa [hagree.tables]) hat'
        (by rw [hva']; omega)
      refine ⟨m', ?_, (hmark.trans hmarked).congr fun n b => ?_⟩
      · rw [if_pos huser]
        simp only
        rw [hnext, ok_bind, hloop]
      · rw [hpa, hagree.userFrom, hva', Nat.add_div_right va (by decide),
          userFrom_succ hlow (userPage_eq_some.2 ⟨q, htr, hq⟩), or_and_right]
    · -- the region of the entry is passed over
      obtain ⟨it', hnext, hat', hva'⟩ := nextRange_low hb hlt
      have hpage := (regionEnd_page m r va).1
      obtain ⟨m', hloop, hmarked⟩ := ih hb hv hat' (by rw [hva']; omega)
      refine ⟨m', ?_, hmarked.congr fun n b => ?_⟩
      · rw [if_neg huser, hnext, ok_bind, hloop]
      · rw [hva', userFrom_region hva huser]

/-! ## The processes -/

/-- What `refresh` marks for a process with the root `r`. -/
def ProcMarks (m : Mem) (r pid n b : ℕ) : Prop :=
  n ∈ tables m 3 r ∧ (fKernel ||| fProcess pid).testBit b = true ∨
    UserMaps m r n ∧ (fUser ||| fProcess pid).testBit b = true

theorem fProcess_eq (h1 : 1 ≤ pid) (hlt : pid < NPROC) : fProcess pid = 2 ^ (pid + 1) := by
  rw [NPROC] at hlt
  have hpow : 2 ^ (pid + 1) < 2 ^ 32 := Nat.pow_lt_pow_right (by decide) (by omega)
  rw [fProcess, if_neg (by omega), if_pos (by omega), Int.toNat_natCast, Nat.shiftLeft_eq,
    ← pow_succ', Nat.mod_eq_of_lt hpow]

theorem flags_lt {f : ℕ} (hf : f < 4) (h1 : 1 ≤ pid) (hlt : pid < NPROC) :
    f ||| fProcess pid < 2 ^ 32 := by
  rw [fProcess_eq h1 hlt]
  refine Nat.or_lt_two_pow (hf.trans (by decide)) ?_
  rw [NPROC] at hlt
  exact Nat.pow_lt_pow_right (by decide) (by omega)

theorem userFrom_zero : UserFrom m r 0 n ↔ UserMaps m r n := by
  simp only [UserFrom, UserMaps, Nat.zero_le, true_and]

theorem Agree.userMaps (h : Agree m m' (WeensyOS.tables m 3 r)) :
    UserMaps m' r n ↔ UserMaps m r n := by
  simp only [UserMaps, h.userPage]

/-- The page table of a process, apart from the map. -/
structure ViewedTable (v : ℕ) (m : Mem) (pagetable : ℕ) : Prop where
  aligned : pagetable % PAGESIZE = 0
  below : Below4G m (pagetable / PAGESIZE)
  apart : v / PAGESIZE ∉ tables m 3 (pagetable / PAGESIZE)

theorem ViewedTable.eq {pagetable : ℕ} (h : ViewedTable v m pagetable) :
    pagetable / PAGESIZE * 4096 = pagetable := by
  have ha := h.aligned
  rw [PAGESIZE] at ha ⊢
  omega

theorem ViewedTable.agree {pagetable : ℕ} (h : ViewedTable v m pagetable)
    (hm : ∀ p, p ≠ v / PAGESIZE → m' p = m p) : Agree m m' (tables m 3 (pagetable / PAGESIZE)) := by
  intro p hp i
  rw [hm p fun heq => h.apart (heq ▸ hp)]

theorem ViewedTable.of_agree {pagetable : ℕ} (h : ViewedTable v m pagetable)
    (hm : ∀ p, p ≠ v / PAGESIZE → m' p = m p) : ViewedTable v m' pagetable := by
  have hagree := h.agree hm
  refine ⟨h.aligned, hagree.below4G h.below, ?_⟩
  rw [hagree.tables]
  exact h.apart

theorem Agree.procMarks (h : Agree m m' (WeensyOS.tables m 3 r)) :
    ProcMarks m' r pid n b ↔ ProcMarks m r pid n b := by
  rw [ProcMarks, ProcMarks, h.tables, h.userMaps]

theorem markProc_spec (h1 : 1 ≤ pid) (hlt : pid < NPROC)
    (h : ViewedTable s.viewer m (s.ptable pid).pagetable) :
    ∃ m', markProc s pid m = .ok m' ∧ Marked s.viewer (ProcMarks m (s.root pid) pid) m m' := by
  obtain ⟨m₁, htables, hmarked₁⟩ := markTables_spec h.apart
    (flags_lt (f := fKernel) (by decide) h1 hlt)
  have hmarked₂ := hmarked₁.trans (marked_mark (v := s.viewer)
    (flags_lt (f := fKernel) (by decide) h1 hlt) (s.ptable pid).pagetable)
  have hagree := hmarked₂.agree h.apart
  have hb := hagree.below4G h.below
  obtain ⟨it, hcreate, -, -, hat⟩ := hb.create (Nat.zero_le VA_LOWEND)
  obtain rfl := hat (by decide)
  obtain ⟨m₃, hloop, hmarked₃⟩ := markUser_spec (v := s.viewer)
    (flags_lt (f := fUser) (by decide) h1 hlt) Vmiter.lowFuel hb (by rw [hagree.tables]; exact h.apart)
    (atPage_zero _ (s.root pid)) (by rw [vmiterAt_va]; decide)
  refine ⟨m₃, ?_, (hmarked₂.trans hmarked₃).congr fun n b => ?_⟩
  · rw [h.eq] at htables hcreate
    rw [markProc]
    simp only
    rw [← bind_assoc, htables, ok_bind, hcreate, ok_bind]
    exact hloop
  · rw [vmiterAt_va, Nat.zero_div, userFrom_zero, hagree.userMaps, ← or_and_right]
    refine or_congr_left (and_congr_left fun _ => ?_)
    rw [tables, List.mem_cons, or_comm]
    rfl

/-- What the loop marks for some processes. -/
def ProcsMarks (L : Layout) (s : State) (m : Mem) (pids : List ℕ) (n b : ℕ) : Prop :=
  ∃ pid ∈ pids, s.OwnTable L pid ∧ ProcMarks m (s.root pid) pid n b

theorem procsMarks_cons {pids : List ℕ} : ProcsMarks L s m (pid :: pids) n b ↔
    s.OwnTable L pid ∧ ProcMarks m (s.root pid) pid n b ∨ ProcsMarks L s m pids n b :=
  List.exists_mem_cons_iff _ _ _

/-- **The loop over the processes.** The memory `m₀` is that before the first mark. -/
theorem markProcs_spec (pids : List ℕ) (hpids : ∀ pid ∈ pids, 1 ≤ pid ∧ pid < NPROC)
    (htables : ∀ pid ∈ pids, s.OwnTable L pid → ViewedTable s.viewer m₀ (s.ptable pid).pagetable)
    (hm : ∀ p, p ≠ s.viewer / PAGESIZE → m p = m₀ p) (any : Bool) :
    ∃ any' m', markProcs L s pids any m = .ok (any', m') ∧
      (any' = true ↔ any = true ∨ ∃ pid ∈ pids, s.OwnTable L pid) ∧
      Marked s.viewer (ProcsMarks L s m₀ pids) m m' := by
  induction pids generalizing m any with
  | nil => exact ⟨any, m, rfl, by simp, marked_refl.congr fun n b => by simp [ProcsMarks]⟩
  | cons pid pids ih =>
    have hpids' := fun q hq => hpids q (List.mem_cons_of_mem _ hq)
    have htables' := fun q hq => htables q (List.mem_cons_of_mem _ hq)
    rw [markProcs]
    by_cases hown : s.OwnTable L pid
    · have htable := htables pid List.mem_cons_self hown
      have hagree : Agree m₀ m (tables m₀ 3 (s.root pid)) := htable.agree hm
      obtain ⟨h1, hlt⟩ := hpids pid List.mem_cons_self
      obtain ⟨m₁, hproc, hmarked⟩ := markProc_spec h1 hlt (htable.of_agree hm)
      obtain ⟨any', m', hloop, hany, hmarked'⟩ := ih hpids' htables'
        (fun p hp => (hmarked.others p hp).trans (hm p hp)) true
      refine ⟨any', m', ?_, hany.trans ?_, (hmarked.trans hmarked').congr fun n b => ?_⟩
      · rw [if_pos hown, hproc, ok_bind, hloop]
      · exact iff_of_true (Or.inl rfl) (Or.inr ⟨pid, List.mem_cons_self, hown⟩)
      · rw [procsMarks_cons, and_iff_right hown, hagree.procMarks]
    · obtain ⟨any', m', hloop, hany, hmarked⟩ := ih hpids' htables' hm any
      refine ⟨any', m', ?_, hany.trans ?_, hmarked.congr fun n b => ?_⟩
      · rw [if_neg hown, hloop]
      · rw [List.exists_mem_cons_iff, or_iff_right hown]
      · rw [procsMarks_cons, or_iff_right fun h => hown h.1]

/-! ## The map -/

/-- The page of the map: the viewer's, or the one it will be given. -/
def usagePage (L : Layout) (s : State) : Option ℕ :=
  if s.viewer = 0 then firstFree L s.pages else some (s.viewer / PAGESIZE)

/-- The page tables of the processes hold addresses below 4 GiB, and neither they nor the kernel's
    lie in the map. -/
structure Viewable (L : Layout) (s : State) : Prop where
  aligned : ∀ pid, s.Viewed L pid → (s.ptable pid).pagetable % PAGESIZE = 0
  below : ∀ pid, s.Viewed L pid → Below4G s.mem (s.root pid)
  apart : ∀ k ∈ usagePage L s, k ∉ tables s.mem 3 (kernelRoot L) ∧
    ∀ pid, s.Viewed L pid → k ∉ tables s.mem 3 (s.root pid)

/-- The map of the state `s'` says what the pages are used for in `s`. -/
structure ExactUsage (L : Layout) (s s' : State) : Prop where
  process : ∀ n < maxpa / PAGESIZE, ∀ pid, 1 ≤ pid → pid < NPROC →
    (usageAt s'.mem s'.viewer n &&& fProcess pid ≠ 0 ↔
      s.Viewed L pid ∧ (n ∈ tables s.mem 3 (s.root pid) ∨ UserMaps s.mem (s.root pid) n))
  user : ∀ n < maxpa / PAGESIZE, (usageAt s'.mem s'.viewer n &&& fUser ≠ 0 ↔
    ∃ pid, s.Viewed L pid ∧ UserMaps s.mem (s.root pid) n)
  kernel : ∀ n < maxpa / PAGESIZE, (usageAt s'.mem s'.viewer n &&& fKernel ≠ 0 ↔
    n ∈ tables s.mem 3 (kernelRoot L) ∨ (∃ pid, s.Viewed L pid ∧ n ∈ tables s.mem 3 (s.root pid)) ∨
      n = s'.viewer / PAGESIZE)

theorem allocMap_some {k : ℕ} (h : usagePage L s = some k) : ∃ s', allocMap L s = .ok s' ∧
    s'.viewer / PAGESIZE = k ∧ s'.ptable = s.ptable ∧ ∀ p, p ≠ k → s'.mem p = s.mem p := by
  rw [usagePage] at h
  rw [allocMap]
  by_cases hv : s.viewer = 0
  · rw [if_pos hv] at h ⊢
    have hpos := (firstFree_some h).1.pos
    simp only [kalloc_some h]
    rw [assert, if_pos (by omega), ok_bind]
    exact ⟨_, rfl, page_div k, rfl, fun p hp => funext (fill_of_ne hp)⟩
  · rw [if_neg hv] at h ⊢
    exact ⟨s, rfl, Option.some.inj h, rfl, fun _ _ => rfl⟩

theorem allocMap_none (h : usagePage L s = none) : allocMap L s = .error .assertion := by
  rw [usagePage] at h
  rw [allocMap]
  split_ifs at h with hv
  rw [if_pos hv]
  simp only [kalloc_none h]
  rfl

/-- A flag of one bit. -/
theorem and_flag {x i : ℕ} : x &&& 2 ^ i ≠ 0 ↔ x.testBit i = true := by
  rw [Nat.and_two_pow]
  cases x.testBit i <;> simp

theorem testBit_kernel (h1 : 1 ≤ pid) (hlt : pid < NPROC) :
    (fKernel ||| fProcess pid).testBit b = true ↔ b = 0 ∨ b = pid + 1 := by
  have hk : fKernel = 2 ^ 0 := rfl
  rw [fProcess_eq h1 hlt, Nat.testBit_or, Bool.or_eq_true, hk, Nat.testBit_two_pow,
    Nat.testBit_two_pow, decide_eq_true_iff, decide_eq_true_iff, eq_comm, eq_comm (a := pid + 1)]

theorem testBit_user (h1 : 1 ≤ pid) (hlt : pid < NPROC) :
    (fUser ||| fProcess pid).testBit b = true ↔ b = 1 ∨ b = pid + 1 := by
  have hu : fUser = 2 ^ 1 := rfl
  rw [fProcess_eq h1 hlt, Nat.testBit_or, Bool.or_eq_true, hu, Nat.testBit_two_pow,
    Nat.testBit_two_pow, decide_eq_true_iff, decide_eq_true_iff, eq_comm, eq_comm (a := pid + 1)]

theorem testBit_fKernel : fKernel.testBit b = true ↔ b = 0 := by
  have hk : fKernel = 2 ^ 0 := rfl
  rw [hk, Nat.testBit_two_pow, decide_eq_true_iff, eq_comm]

theorem usageAt_fill {k : ℕ} (h : v / PAGESIZE = k) :
    (usageAt (m.fill k 0) v n).testBit b = false := by
  rw [usageAt, h, fill_self, Nat.zero_shiftRight, Nat.zero_mod, Nat.zero_testBit]

/-- What `refresh` marks, with the map in the page `k`. -/
def RefreshMarks (L : Layout) (s : State) (k n b : ℕ) : Prop :=
  (n ∈ tables s.mem 3 (kernelRoot L) ∨ n = k) ∧ b = 0 ∨
    ∃ pid, s.Viewed L pid ∧ ProcMarks s.mem (s.root pid) pid n b

theorem mem_pids : pid ∈ List.range' 1 (NPROC - 1) ↔ 1 ≤ pid ∧ pid < NPROC := by
  rw [List.mem_range'_1]
  have hn : 0 < NPROC := by decide
  omega

theorem refresh_marks (h : Viewable L s) (hany : ∃ pid, s.Viewed L pid) {k : ℕ}
    (hk : usagePage L s = some k) : ∃ s₁ m, allocMap L s = .ok s₁ ∧ s₁.viewer / PAGESIZE = k ∧
      refresh L s = .ok { s₁ with mem := m } ∧ (∀ p, p ≠ k → m p = s₁.mem p) ∧
      ∀ n < 1024, ∀ b < 32, (usageAt m s₁.viewer n).testBit b = true ↔ RefreshMarks L s k n b := by
  obtain ⟨s₁, halloc, hviewer, hptable, hmem⟩ := allocMap_some hk
  obtain ⟨hapart, haparts⟩ := h.apart k hk
  have hroot := (kernelRoot_bounds L).2.2
  have hkdiv : L.kernelPagetable / PAGESIZE = kernelRoot L := rfl
  have hoff : ∀ p, p ≠ s₁.viewer / PAGESIZE → s₁.mem.fill k 0 p = s.mem p := by
    intro p hp
    rw [hviewer] at hp
    exact (funext (fill_of_ne hp)).trans (hmem p hp)
  have hagree : Agree s.mem (s₁.mem.fill k 0) (tables s.mem 3 (kernelRoot L)) := by
    intro p hp i
    rw [hoff p fun heq => hapart (by rw [← hviewer, ← heq]; exact hp)]
  -- the kernel's tables
  have hflags : fKernel < 2 ^ 32 := by decide
  obtain ⟨m₁, htables, hmarked₁⟩ := markTables_spec (m := s₁.mem.fill k 0) (v := s₁.viewer)
    (r := kernelRoot L) (by rw [hviewer, hagree.tables]; exact hapart) hflags
  have hmarked₂ := hmarked₁.trans (marked_mark (v := s₁.viewer) hflags L.kernelPagetable)
  -- the processes
  have hown : ∀ pid, s₁.OwnTable L pid ↔ s.OwnTable L pid := fun pid => by
    rw [State.OwnTable, State.OwnTable, hptable]
  have hroots : ∀ pid, s₁.root pid = s.root pid :=
    fun pid => by rw [State.root, State.root, hptable]
  have htabled : ∀ pid ∈ List.range' 1 (NPROC - 1), s₁.OwnTable L pid →
      ViewedTable s₁.viewer s.mem (s₁.ptable pid).pagetable := by
    intro pid hpid hpown
    obtain ⟨h1, hlt⟩ := mem_pids.1 hpid
    have hviewed : s.Viewed L pid := ⟨h1, hlt, (hown pid).1 hpown⟩
    rw [hptable]
    refine ⟨h.aligned pid hviewed, h.below pid hviewed, ?_⟩
    rw [hviewer]
    exact haparts pid hviewed
  obtain ⟨any, m₃, hprocs, hanyiff, hmarked₃⟩ := markProcs_spec (L := L) (s := s₁)
    (List.range' 1 (NPROC - 1)) (fun pid hpid => mem_pids.1 hpid) htabled
    (fun p hp => (hmarked₂.others p hp).trans (hoff p hp)) false
  obtain rfl : any = true := by
    obtain ⟨pid, h1, hlt, hp⟩ := hany
    exact hanyiff.2 (Or.inr ⟨pid, mem_pids.2 ⟨h1, hlt⟩, (hown pid).2 hp⟩)
  have hmarked := (hmarked₂.trans hmarked₃).trans
    (marked_mark (v := s₁.viewer) hflags s₁.viewer)
  refine ⟨s₁, mark m₃ s₁.viewer s₁.viewer fKernel, halloc, hviewer, ?_, fun p hp => ?_,
    fun n hn b hb => ?_⟩
  · rw [refresh, halloc, ok_bind]
    simp only
    rw [hviewer, ← hroot, ← bind_assoc, htables, ok_bind, hroot, hprocs, ok_bind]
    rfl
  · rw [hmarked.others p (by rw [hviewer]; exact hp)]
    exact funext (fill_of_ne hp)
  · have hprocsMarks : ProcsMarks L s₁ s.mem (List.range' 1 (NPROC - 1)) n b ↔
        ∃ pid, s.Viewed L pid ∧ ProcMarks s.mem (s.root pid) pid n b := by
      simp only [ProcsMarks, State.Viewed, mem_pids, hown, hroots, and_assoc]
    rw [hmarked.bits n hn b hb, usageAt_fill hviewer, hkdiv, hviewer, hagree.subtables, hprocsMarks,
      testBit_fKernel, RefreshMarks, tables, List.mem_cons]
    constructor
    · rintro (hfalse | ((⟨hn, hb⟩ | ⟨hn, hb⟩) | hp) | ⟨hn, hb⟩)
      · cases hfalse
      · exact Or.inl ⟨Or.inl (Or.inr hn), hb⟩
      · exact Or.inl ⟨Or.inl (Or.inl hn), hb⟩
      · exact Or.inr hp
      · exact Or.inl ⟨Or.inr hn, hb⟩
    · rintro (⟨(hn | hn) | hn, hb⟩ | hp)
      · exact Or.inr (Or.inl (Or.inl (Or.inr ⟨hn, hb⟩)))
      · exact Or.inr (Or.inl (Or.inl (Or.inl ⟨hn, hb⟩)))
      · exact Or.inr (Or.inr ⟨hn, hb⟩)
      · exact Or.inr (Or.inl (Or.inr hp))

/-! ## Reading the map -/

section
variable {k : ℕ}

theorem refreshMarks_kernel : RefreshMarks L s k n 0 ↔ n ∈ tables s.mem 3 (kernelRoot L) ∨
    (∃ pid, s.Viewed L pid ∧ n ∈ tables s.mem 3 (s.root pid)) ∨ n = k := by
  constructor
  · rintro (⟨hn | hn, -⟩ | ⟨pid, hv, ⟨hn, -⟩ | ⟨-, hb⟩⟩)
    · exact Or.inl hn
    · exact Or.inr (Or.inr hn)
    · exact Or.inr (Or.inl ⟨pid, hv, hn⟩)
    · have := (testBit_user hv.1 hv.2.1).1 hb
      omega
  · rintro (hn | ⟨pid, hv, hn⟩ | hn)
    · exact Or.inl ⟨Or.inl hn, rfl⟩
    · exact Or.inr ⟨pid, hv, Or.inl ⟨hn, (testBit_kernel hv.1 hv.2.1).2 (Or.inl rfl)⟩⟩
    · exact Or.inl ⟨Or.inr hn, rfl⟩

theorem refreshMarks_user :
    RefreshMarks L s k n 1 ↔ ∃ pid, s.Viewed L pid ∧ UserMaps s.mem (s.root pid) n := by
  constructor
  · rintro (⟨-, hb⟩ | ⟨pid, hv, ⟨-, hb⟩ | ⟨hn, -⟩⟩)
    · cases hb
    · have h1 := hv.1
      have := (testBit_kernel hv.1 hv.2.1).1 hb
      omega
    · exact ⟨pid, hv, hn⟩
  · rintro ⟨pid, hv, hn⟩
    exact Or.inr ⟨pid, hv, Or.inr ⟨hn, (testBit_user hv.1 hv.2.1).2 (Or.inl rfl)⟩⟩

theorem refreshMarks_process (h1 : 1 ≤ pid) : RefreshMarks L s k n (pid + 1) ↔
    s.Viewed L pid ∧ (n ∈ tables s.mem 3 (s.root pid) ∨ UserMaps s.mem (s.root pid) n) := by
  constructor
  · rintro (⟨-, hb⟩ | ⟨q, hv, ⟨hn, hb⟩ | ⟨hn, hb⟩⟩)
    · cases hb
    · have hbit := (testBit_kernel hv.1 hv.2.1).1 hb
      obtain rfl : q = pid := by omega
      exact ⟨hv, Or.inl hn⟩
    · have hbit := (testBit_user hv.1 hv.2.1).1 hb
      obtain rfl : q = pid := by omega
      exact ⟨hv, Or.inr hn⟩
  · rintro ⟨hv, hn | hn⟩
    · exact Or.inr ⟨pid, hv, Or.inl ⟨hn, (testBit_kernel hv.1 hv.2.1).2 (Or.inr rfl)⟩⟩
    · exact Or.inr ⟨pid, hv, Or.inr ⟨hn, (testBit_user hv.1 hv.2.1).2 (Or.inr rfl)⟩⟩

end

/-- **The usage map is exact** after `refresh`, which fails only if there is no page for the map. -/
theorem refresh_exact (L : Layout) (s : State) (h : Viewable L s) (hany : ∃ pid, s.Viewed L pid) :
    (∃ s', refresh L s = .ok s' ∧ ExactUsage L s s') ∨
      s.viewer = 0 ∧ firstFree L s.pages = none ∧ refresh L s = .error .assertion := by
  cases hk : usagePage L s with
  | none =>
    have hnone := hk
    rw [usagePage] at hnone
    split_ifs at hnone with hv
    refine Or.inr ⟨hv, hnone, ?_⟩
    rw [refresh, allocMap_none hk, error_bind]
  | some k =>
    obtain ⟨s₁, m, -, rfl, hrefresh, -, hmarks⟩ := refresh_marks h hany hk
    have h1024 : maxpa / PAGESIZE = 1024 := by decide
    have hu : fUser = 2 ^ 1 := rfl
    have hf : fKernel = 2 ^ 0 := rfl
    refine Or.inl ⟨_, hrefresh, fun n hn pid h1 hlt => ?_, fun n hn => ?_, fun n hn => ?_⟩
    · have hb : pid + 1 < 32 := by
        rw [NPROC] at hlt
        omega
      rw [fProcess_eq h1 hlt, and_flag, hmarks n (h1024 ▸ hn) _ hb, refreshMarks_process h1]
    · rw [hu, and_flag, hmarks n (h1024 ▸ hn) 1 (by decide), refreshMarks_user]
    · rw [hf, and_flag, hmarks n (h1024 ▸ hn) 0 (by decide), refreshMarks_kernel]

theorem memshow_eq (h0 : (s.ptable 0).state = .free) : memshow L s =
    (allocMap L s >>= fun s => .ok { s with mem := s.mem.fill (s.viewer / PAGESIZE) 0 }) := by
  rw [memshow, allocMap, assert, if_pos h0, ok_bind]
  by_cases hv : s.viewer = 0
  · rw [if_pos hv, if_pos hv]
    generalize kalloc L s PAGESIZE = x
    by_cases hpage : x.1 ≠ 0
    · simp only [assert, if_pos hpage]
      rfl
    · simp only [assert, if_neg hpage]
      rfl
  · rw [if_neg hv, if_neg hv]
    rfl

/-- The kernel's invariant keeps the page tables apart from the map. -/
theorem Inv.viewable {d : ℕ → ℕ} (h : Inv L d s) : Viewable L s := by
  have hlive : ∀ pid, s.Viewed L pid → s.Live pid := fun pid hv => ⟨hv.2.1, hv.2.2.1⟩
  refine ⟨fun pid hv => h.aligned pid (hlive pid hv),
    fun pid hv => (h.procs pid (hlive pid hv)).shaped.bounded, fun k hk => ?_⟩
  have hholds : ∀ pid, s.Viewed L pid → k ∈ tables s.mem 3 (s.root pid) →
      0 < (s.holds pid).count k := by
    intro pid hv hmem
    rw [List.count_pos_iff, holds_of_live (hlive pid hv)]
    exact mem_owned.2 (Or.inr hmem)
  rw [Option.mem_def, usagePage] at hk
  split_ifs at hk with hv
  · -- a free page
    obtain ⟨halloc, h0⟩ := firstFree_some hk
    refine ⟨fun hmem => (h.kernel.image k hmem).1 halloc, fun pid hviewed hmem => ?_⟩
    have hcount := h.counts k halloc.lt
    have hle := count_holds_le (s := s) (p := k) hviewed.2.1
    have hpos := hholds pid hviewed hmem
    have hz : (0 : UInt8).toNat = 0 := rfl
    rw [h0, hz] at hcount
    omega
  · -- the viewer's page
    have hmem : k ∈ s.viewerPages := by
      rw [State.viewerPages, if_neg hv, List.mem_singleton]
      exact (Option.some.inj hk).symm
    refine ⟨fun htable => (h.kernel.image k htable).1 (h.viewer k hmem),
      fun pid hviewed htable => ?_⟩
    have hone := h.exclusive k (Or.inl hmem)
    have hle := count_viewer_add_le (s := s) (p := k) hviewed.2.1
    have hpos := hholds pid hviewed htable
    have hview := List.count_pos_iff.2 hmem
    omega

theorem refresh_exact_fourProcesses :
    (∃ s', refresh smallKernel fourProcesses = .ok s' ∧ ExactUsage smallKernel fourProcesses s') ∨
      fourProcesses.viewer = 0 ∧ firstFree smallKernel fourProcesses.pages = none ∧
        refresh smallKernel fourProcesses = .error .assertion :=
  refresh_exact smallKernel fourProcesses fourProcesses_boot.good.inv.viewable
    ⟨1, by decide, by decide, by decide, by decide, by decide⟩

/-! ## Maps that are not exact -/

/-- Some process has a page table of its own, and these tables are trees. -/
structure OwnTrees (L : Layout) (s : State) : Prop where
  any : ∃ pid, s.Viewed L pid
  trees : ∀ pid, s.Viewed L pid → (tables s.mem 3 (s.root pid)).Nodup

/-- The process 1 maps the page at 4 GiB. -/
def highState : State :=
  { stateOf [(1, 1)] highPageMem fun p => if 1 ≤ p ∧ p ≤ 7 then 1 else 0 with viewer := 7 * 4096 }

/-- The map lies in the root table of the kernel, which has a table below it. -/
def rootState : State :=
  { stateOf [(1, 1)] (fun p i => if p = 0x50 ∧ i = 0 then 0x51 * 4096 + 7 else 0)
      fun p => if p = 1 then 1 else 0 with viewer := 0x50000 }

theorem stateOf_ownTrees {v : ℕ} {m : Mem} {pages : ℕ → UInt8} (h : (tables m 3 1).Nodup) :
    OwnTrees smallKernel { stateOf [(1, 1)] m pages with viewer := v } := by
  refine ⟨⟨1, le_rfl, by decide, nofun, ?_⟩, fun pid hv => ?_⟩
  · change 1 * 4096 ≠ 0 ∧ 1 * 4096 ≠ 0x50000
    decide
  · have hlive : (stateOf [(1, 1)] m pages).Live pid := ⟨hv.2.1, hv.2.2.1⟩
    obtain ⟨r, hr, hroot, -⟩ := stateOf_live hlive
    cases List.mem_singleton.1 hr
    change (tables m 3 ((stateOf [(1, 1)] m pages).root 1)).Nodup
    rwa [hroot]

theorem eq_error_of_map {α : Type} {res : Except Fault α} {e : Fault}
    (h : res.map (fun _ => ()) = .error e) : res = .error e := by
  cases res with
  | ok a => cases h
  | error e' => exact congrArg Except.error (Except.error.inj h)

/-- `down` takes the page at 4 GiB for uninitialised memory; a map in the root table of the kernel
    hides the kernel's other tables. -/
theorem refresh_not_exact :
    (OwnTrees smallKernel highState ∧ refresh smallKernel highState = .error .panic) ∧
    OwnTrees smallKernel rootState ∧
      ∃ s', refresh smallKernel rootState = .ok s' ∧ ¬ ExactUsage smallKernel rootState s' := by
  refine ⟨⟨stateOf_ownTrees (by decide +kernel), eq_error_of_map (by decide +kernel)⟩,
    stateOf_ownTrees (by decide +kernel), ?_⟩
  have hmap : (refresh smallKernel rootState).map
      (fun s' => usageAt s'.mem s'.viewer 0x51 &&& fKernel) = .ok 0 := by decide +kernel
  cases hrefresh : refresh smallKernel rootState with
  | error e =>
    rw [hrefresh] at hmap
    cases hmap
  | ok s' =>
    rw [hrefresh] at hmap
    refine ⟨s', rfl, fun h => ?_⟩
    exact (h.kernel 0x51 (by decide)).2 (Or.inl (by decide +kernel)) (Except.ok.inj hmap)

end CProj.WeensyOS
