/-
  The invariant of the kernel.

  Every live process has a page table in which each page occurs once; page tables, user-writable
  pages and the viewer's page are used once in the whole system (`Exclusive`); and the counts are
  the numbers of references plus a number `d` of references that have been lost, which
  `syscall_page_alloc` does when it replaces a page.  `Inv.update` is the rule by which a system
  call that changes one process keeps the invariant.
-/
import CProj.WeensyOS.SyscallFork
import CProj.WeensyOS.SyscallPageAlloc

namespace CProj.WeensyOS

/-- A page that belongs to one process alone: a table, or a page that it may write to. -/
def Private (m : Mem) (r p : ℕ) : Prop :=
  p ∈ tables m 3 r ∨ ∃ v q, 256 ≤ v ∧ v < 768 ∧ translate m r v = some (p, q) ∧ IsUser q ∧ IsWritable q

/-- A page that may be used only once. -/
def Exclusive (s : State) (p : ℕ) : Prop :=
  p ∈ s.viewerPages ∨ ∃ i, s.Live i ∧ Private s.mem (s.root i) p

/-- The permissions of the kernel's mapping of the page `w`. -/
def kernelPerm (w : ℕ) : ℕ := if w = CONSOLE_PAGE then 7 else 3

/-- Below `PROC_START_ADDR` a table maps every page to itself, as the kernel's own does. -/
def KernelHalf (m : Mem) (r : ℕ) : Prop :=
  ∀ w < 256, ∃ q, translate m r w = some (w, q) ∧ pwu q = kernelPerm w

/-- The root of `kernel_pagetable`. -/
def kernelRoot (L : Layout) : ℕ := L.kernelPagetable / PAGESIZE

/-- `kernel_pagetable` lies in the kernel image and maps physical memory to itself. -/
structure KernelTable (L : Layout) (m : Mem) : Prop where
  shaped : Shaped m (kernelRoot L)
  image : ∀ p ∈ tables m 3 (kernelRoot L), ¬ Alloc L p ∧ p ≠ CONSOLE_PAGE
  map : ∀ w < NPAGES, ∃ q, translate m (kernelRoot L) w = some (w, q) ∧
    pwu q = if w < 256 then kernelPerm w else 7

/-- The page table of a process. -/
structure ProcOk (L : Layout) (m : Mem) (r : ℕ) : Prop where
  shaped : Shaped m r
  full : Full m r
  small : Small m r
  single : (owned m r).Nodup
  alloc : ∀ p ∈ owned m r, Alloc L p
  half : KernelHalf m r
  high : ∀ v, Canonical v → 768 ≤ v → translate m r v = none

structure Inv (L : Layout) (d : ℕ → ℕ) (s : State) : Prop where
  slot0 : (s.ptable 0).state = .free
  pid : ∀ i, s.Live i → (s.ptable i).pid = i
  aligned : ∀ i, s.Live i → (s.ptable i).pagetable % PAGESIZE = 0
  procs : ∀ i, s.Live i → ProcOk L s.mem (s.root i)
  exclusive : ∀ p, Exclusive s p → s.uses.count p = 1
  viewer : ∀ p ∈ s.viewerPages, Alloc L p
  counts : ∀ p < NPAGES, (s.pages p).toNat = s.uses.count p + d p
  kernel : KernelTable L s.mem
  noStale : s.staleFree = false

variable {L : Layout} {d : ℕ → ℕ} {s s' : State} {i j p : ℕ}

theorem Private.mem_owned {m : Mem} {r : ℕ} (h : Private m r p) : p ∈ owned m r := by
  rcases h with h | ⟨v, q, h1, h2, htr, huser, -⟩
  · exact WeensyOS.mem_owned.2 (Or.inr h)
  · exact WeensyOS.mem_owned.2 (Or.inl (mem_procPages.2 ⟨v, h1, h2,
      userPage_eq_some.2 ⟨q, htr, huser⟩⟩))

theorem Agree.private {m m' : Mem} {r : ℕ} (h : Agree m m' (WeensyOS.tables m 3 r)) :
    Private m' r p ↔ Private m r p := by
  simp only [Private, h.tables, h.translate]

theorem Agree.kernelHalf {m m' : Mem} {r : ℕ} (h : Agree m m' (WeensyOS.tables m 3 r))
    (hk : KernelHalf m r) : KernelHalf m' r := by
  intro w hw
  rw [h.translate]
  exact hk w hw

theorem Agree.procOk {m m' : Mem} {r : ℕ} (h : Agree m m' (WeensyOS.tables m 3 r))
    (hok : ProcOk L m r) : ProcOk L m' r := by
  refine ⟨h.shaped hok.shaped, h.full hok.full, h.small hok.small,
    by rw [h.owned]; exact hok.single, by rw [h.owned]; exact hok.alloc, h.kernelHalf hok.half, ?_⟩
  intro v hv hge
  rw [h.translate]
  exact hok.high v hv hge

theorem Agree.kernelTable {m m' : Mem} (h : Agree m m' (WeensyOS.tables m 3 (kernelRoot L)))
    (hk : KernelTable L m) : KernelTable L m' := by
  refine ⟨h.shaped hk.shaped, by rw [h.tables]; exact hk.image, fun w hw => ?_⟩
  rw [h.translate]
  exact hk.map w hw

theorem KernelTable.agree {m m' : Mem} (h : KernelTable L m)
    (hm : ∀ p, ¬ Alloc L p → p ≠ CONSOLE_PAGE → m' p = m p) :
    Agree m m' (tables m 3 (kernelRoot L)) := by
  intro p hp k
  rw [hm p (h.image p hp).1 (h.image p hp).2]

/-- The kernel lets a process access the console only. -/
theorem KernelHalf.low {m : Mem} {r : ℕ} (h : KernelHalf m r) : LowConsole m r := by
  intro w hw n q htr huser
  obtain ⟨q', htr', hq⟩ := h w hw
  rw [htr] at htr'
  cases htr'
  rw [kernelPerm] at hq
  split_ifs at hq with hcon
  · refine ⟨hcon, hcon, ?_⟩
    rw [← isWritable_pwu, hq]
    decide
  · rw [← isUser_pwu, hq] at huser
    exact absurd huser (by decide)

theorem ProcOk.low {m : Mem} {r : ℕ} (h : ProcOk L m r) : LowConsole m r := h.half.low

/-! ## Counting references -/

theorem count_holds_le (hi : i < NPROC) : (s.holds i).count p ≤ s.uses.count p := by
  rw [State.uses, List.count_append]
  exact (count_le_count_flatMap (List.mem_range.2 hi)).trans (Nat.le_add_left _ _)

theorem count_holds_add_le (hi : i < NPROC) (hj : j < NPROC) (hij : i ≠ j) :
    (s.holds i).count p + (s.holds j).count p ≤ s.uses.count p := by
  rw [State.uses, List.count_append]
  exact (count_add_count_le (List.mem_range.2 hi) (List.mem_range.2 hj) hij).trans
    (Nat.le_add_left _ _)

theorem count_viewer_add_le (hi : i < NPROC) :
    s.viewerPages.count p + (s.holds i).count p ≤ s.uses.count p := by
  rw [State.uses, List.count_append]
  exact Nat.add_le_add_left (count_le_count_flatMap (List.mem_range.2 hi)) _

/-- A page that the process in the slot `j` refers to, and something else. -/
theorem two_le_count (hj : j < NPROC) (hp : p ∈ s.holds j)
    (h : p ∈ s.viewerPages ∨ ∃ i, s.Live i ∧ i ≠ j ∧ Private s.mem (s.root i) p) :
    2 ≤ s.uses.count p := by
  have h1 := List.count_pos_iff.2 hp
  rcases h with h | ⟨i, hi, hij, h⟩
  · have h2 := List.count_pos_iff.2 h
    have := count_viewer_add_le (s := s) (p := p) hj
    omega
  · have h2 : 0 < (s.holds i).count p := List.count_pos_iff.2 (holds_of_live hi ▸ h.mem_owned)
    have := count_holds_add_le (s := s) (p := p) hi.1 hj hij
    omega

section
variable (h : Inv L d s)
include h

theorem Inv.uses_alloc (hp : p ∈ s.uses) : Alloc L p := by
  rcases mem_uses.1 hp with hp | ⟨i, hi, hp⟩
  · exact h.viewer p hp
  · exact (h.procs i hi).alloc p hp

theorem Inv.used (hp : p ∈ s.uses) : s.pages p ≠ 0 := by
  have hlt := (h.uses_alloc hp).lt
  have hpos := List.count_pos_iff.2 hp
  have hcount := h.counts p hlt
  intro h0
  have hz : (0 : UInt8).toNat = 0 := rfl
  rw [h0, hz] at hcount
  omega

theorem Inv.count_eq_zero (h0 : s.pages p = 0) : s.uses.count p = 0 :=
  List.count_eq_zero_of_not_mem fun hp => h.used hp h0

theorem Inv.ne_zero (hi : s.Live i) : i ≠ 0 := by
  rintro rfl
  exact hi.2 h.slot0

theorem Inv.covered : Covered s := fun i hi _ hp => h.used (mem_uses.2 (Or.inr ⟨i, hi, hp⟩))

theorem Inv.treeShaped : TreeShaped s := by
  refine ⟨h.aligned, fun i hi => (h.procs i hi).shaped, fun i j hi hj hij p hpi hpj => ?_⟩
  have h1 : s.uses.count p = 1 := h.exclusive p (Or.inr ⟨i, hi, Or.inl hpi⟩)
  have hmem : p ∈ s.holds j := by
    rw [holds_of_live hj]
    exact mem_owned.2 (Or.inr hpj)
  have h2 := two_le_count hj.1 hmem (Or.inr ⟨i, hi, hij, Or.inl hpi⟩)
  omega

end

/-- **One process changes.**  The others keep their tables; the new references of the process are
    to no exclusive page of another. -/
theorem Inv.update {d' : ℕ → ℕ} (h : Inv L d s) (hj : j < NPROC) (hview : s'.viewer = s.viewer)
    (hstale : s'.staleFree = false) (hslot0 : j ≠ 0) (hpid : s'.Live j → (s'.ptable j).pid = j)
    (hkernel : Agree s.mem s'.mem (tables s.mem 3 (kernelRoot L)))
    (hothers : ∀ i < NPROC, i ≠ j → s'.ptable i = s.ptable i)
    (hagree : ∀ i, s.Live i → i ≠ j → Agree s.mem s'.mem (tables s.mem 3 (s.root i)))
    (haligned : s'.Live j → (s'.ptable j).pagetable % PAGESIZE = 0)
    (hproc : s'.Live j → ProcOk L s'.mem (s'.root j))
    (hnew : ∀ p ∈ s'.holds j, Exclusive s p → p ∈ s.holds j)
    (hprivate : ∀ p, s'.Live j → Private s'.mem (s'.root j) p → s'.uses.count p = 1)
    (hcounts : ∀ p < NPAGES, (s'.pages p).toNat + (s.holds j).count p =
      (s.uses.count p + (s'.holds j).count p) + d' p) : Inv L d' s' := by
  have hlive : ∀ {i}, i ≠ j → s'.Live i → s.Live i := by
    intro i hij hi
    exact ⟨hi.1, by rw [← hothers i hi.1 hij]; exact hi.2⟩
  have hroot : ∀ {i}, i ≠ j → s'.Live i → s'.root i = s.root i := by
    intro i hij hi
    rw [State.root, State.root, hothers i hi.1 hij]
  have hviewer : s'.viewerPages = s.viewerPages := by
    rw [State.viewerPages, State.viewerPages, hview]
  have huses := uses_count (t := s') hj hview fun i hi hij =>
    holds_congr (hothers i hi hij) (fun hl => hagree i hl hij) hi
  -- an exclusive page that the process `j` does not own
  have hother : ∀ p, (p ∈ s.viewerPages ∨ ∃ i, s.Live i ∧ i ≠ j ∧ Private s.mem (s.root i) p) →
      s'.uses.count p = 1 := by
    intro p hp
    have hex : Exclusive s p := by
      rcases hp with hp | ⟨i, hi, -, hpriv⟩
      · exact Or.inl hp
      · exact Or.inr ⟨i, hi, hpriv⟩
    have h1 := h.exclusive p hex
    have hout : p ∉ s.holds j := by
      intro hmem
      have := two_le_count hj hmem hp
      omega
    have hout' : p ∉ s'.holds j := fun hmem => hout (hnew p hmem hex)
    have hc := huses p
    rw [List.count_eq_zero_of_not_mem hout, List.count_eq_zero_of_not_mem hout'] at hc
    omega
  refine ⟨?_, fun i hi => ?_, fun i hi => ?_, fun i hi => ?_, fun p hp => ?_, ?_, fun p hp => ?_,
    hkernel.kernelTable h.kernel, hstale⟩
  · rw [hothers 0 (by decide) hslot0.symm]
    exact h.slot0
  · by_cases hij : i = j
    · subst hij
      exact hpid hi
    · rw [hothers i hi.1 hij]
      exact h.pid i (hlive hij hi)
  · by_cases hij : i = j
    · subst hij
      exact haligned hi
    · rw [hothers i hi.1 hij]
      exact h.aligned i (hlive hij hi)
  · by_cases hij : i = j
    · subst hij
      exact hproc hi
    · rw [hroot hij hi]
      exact (hagree i (hlive hij hi) hij).procOk (h.procs i (hlive hij hi))
  · rcases hp with hp | ⟨i, hi, hp⟩
    · exact hother p (Or.inl (hviewer ▸ hp))
    · by_cases hij : i = j
      · subst hij
        exact hprivate p hi hp
      · rw [hroot hij hi, (hagree i (hlive hij hi) hij).private] at hp
        exact hother p (Or.inr ⟨i, hlive hij hi, hij, hp⟩)
  · rw [hviewer]
    exact h.viewer
  · have hc := hcounts p hp
    have hu := huses p
    omega

/-- **Nothing but data changes**: the slots stay free or keep their tables, and the tables stay. -/
theorem Inv.frame (h : Inv L d s) (hview : s'.viewer = s.viewer)
    (hstale : s'.staleFree = s.staleFree)
    (hpages : s'.pages = s.pages) (hkernel : Agree s.mem s'.mem (tables s.mem 3 (kernelRoot L)))
    (hslots : ∀ i < NPROC, ((s'.ptable i).state = .free ↔ (s.ptable i).state = .free) ∧
      ((s.ptable i).state ≠ .free → (s'.ptable i).pagetable = (s.ptable i).pagetable ∧
        (s'.ptable i).pid = (s.ptable i).pid))
    (hagree : ∀ i, s.Live i → Agree s.mem s'.mem (tables s.mem 3 (s.root i))) : Inv L d s' := by
  have hlive : ∀ {i}, s'.Live i ↔ s.Live i := by
    intro i
    exact and_congr_right fun hi => not_congr (hslots i hi).1
  have hroot : ∀ {i}, s.Live i → s'.root i = s.root i := by
    intro i hi
    rw [State.root, State.root, ((hslots i hi.1).2 hi.2).1]
  have hholds : ∀ i < NPROC, s'.holds i = s.holds i := by
    intro i hi
    by_cases hfree : (s.ptable i).state = .free
    · rw [State.holds, State.holds, if_pos hfree, if_pos ((hslots i hi).1.2 hfree)]
    · rw [holds_of_live ⟨hi, hfree⟩, holds_of_live (hlive.2 ⟨hi, hfree⟩), hroot ⟨hi, hfree⟩,
        (hagree i ⟨hi, hfree⟩).owned]
  have hviewer : s'.viewerPages = s.viewerPages := by
    rw [State.viewerPages, State.viewerPages, hview]
  have huses : s'.uses = s.uses := by
    rw [State.uses, State.uses, hviewer]
    congr 1
    exact List.flatMap_congr fun i hi => hholds i (List.mem_range.1 hi)
  refine ⟨(hslots 0 (by decide)).1.2 h.slot0, fun i hi => ?_, fun i hi => ?_, fun i hi => ?_,
    fun p hp => ?_, by rw [hviewer]; exact h.viewer, by rw [hpages, huses]; exact h.counts,
    hkernel.kernelTable h.kernel, hstale.trans h.noStale⟩
  · rw [((hslots i hi.1).2 (hlive.1 hi).2).2]
    exact h.pid i (hlive.1 hi)
  · rw [((hslots i hi.1).2 (hlive.1 hi).2).1]
    exact h.aligned i (hlive.1 hi)
  · rw [hroot (hlive.1 hi)]
    exact (hagree i (hlive.1 hi)).procOk (h.procs i (hlive.1 hi))
  · rw [huses]
    refine h.exclusive p ?_
    rcases hp with hp | ⟨i, hi, hp⟩
    · exact Or.inl (hviewer ▸ hp)
    · rw [hroot (hlive.1 hi), (hagree i (hlive.1 hi)).private] at hp
      exact Or.inr ⟨i, hlive.1 hi, hp⟩

/-! ## `syscall_page_alloc` -/

section
variable {v n q addr : ℕ} {F new : List ℕ} {k : ℤ}

/-- The caller's table after it has grown by fresh pages. -/
theorem Inv.extends {d' : ℕ → ℕ} (h : Inv L d s) (hj : s.Live j) (hx : Extends L (s.root j) s s' F)
    (old : List ℕ) (hold : ∀ p, (owned s'.mem (s.root j)).count p + old.count p =
      (owned s.mem (s.root j)).count p + F.count p)
    (hprivate : ∀ p, Private s'.mem (s.root j) p → p ∈ F ∨ Private s.mem (s.root j) p)
    (hhalf : KernelHalf s'.mem (s.root j))
    (hhigh : ∀ v, Canonical v → 768 ≤ v → translate s'.mem (s.root j) v = none)
    (hd : ∀ p, d' p = d p + old.count p) : Inv L d' s' := by
  have hptable : s'.ptable = s.ptable := by rw [hx.rest]
  have hlive : s'.Live j := by
    rw [State.Live, hptable]
    exact hj
  have hroot : s'.root j = s.root j := by rw [State.root, State.root, hptable]
  have hholds : s'.holds j = owned s'.mem (s.root j) := by rw [holds_of_live hlive, hroot]
  have hok := h.procs j hj
  have hzero : ∀ p ∈ F, s.uses.count p = 0 := fun p hp => h.count_eq_zero (hx.fresh p hp).1
  have hzero' : ∀ p ∈ F, (owned s.mem (s.root j)).count p = 0 := by
    intro p hp
    have h1 := hzero p hp
    have h2 := count_holds_le (s := s) (p := p) hj.1
    rw [holds_of_live hj] at h2
    omega
  -- a page that is not fresh was owned before
  have hkept : ∀ p ∈ owned s'.mem (s.root j), p ∉ F → p ∈ owned s.mem (s.root j) := by
    intro p hp hpF
    have h1 := hold p
    have h2 := List.count_pos_iff.2 hp
    rw [List.count_eq_zero_of_not_mem hpF] at h1
    exact List.count_pos_iff.1 (by omega)
  have huses := hx.uses_count h.treeShaped h.covered hj
  have hkernel : Agree s.mem s'.mem (tables s.mem 3 (kernelRoot L)) :=
    h.kernel.agree fun p hp _ => hx.mem p (fun ht => hp (hok.alloc p (mem_owned.2 (Or.inr ht))))
      fun hfree => hp hfree.1
  refine h.update hj.1 (by rw [hx.rest]) (by rw [hx.rest]; exact h.noStale) (h.ne_zero hj)
    (fun _ => by rw [hptable]; exact h.pid j hj) hkernel (fun i _ _ => by rw [hptable])
    (fun i hi hij => hx.agree h.treeShaped h.covered hj hi hij)
    (fun _ => by rw [hptable]; exact h.aligned j hj) (fun _ => ?_) (fun p hp hex => ?_)
    (fun p _ hp => ?_) (fun p hlt => ?_)
  · rw [hroot]
    refine ⟨hx.shaped, hx.full hok.full, hx.small hok.small,
      List.nodup_iff_count_le_one.2 fun p => ?_, fun p hp => ?_, hhalf, hhigh⟩
    · have h1 := hold p
      by_cases hp : p ∈ F
      · rw [hzero' p hp, List.count_eq_one_of_mem hx.nodup hp] at h1
        omega
      · have h2 := List.nodup_iff_count_le_one.1 hok.single p
        rw [List.count_eq_zero_of_not_mem hp] at h1
        omega
    · by_cases hpF : p ∈ F
      · exact (hx.fresh p hpF).2
      · exact hok.alloc p (hkept p hp hpF)
  · rw [hholds] at hp
    rw [holds_of_live hj]
    by_cases hpF : p ∈ F
    · have h1 := h.exclusive p hex
      rw [hzero p hpF] at h1
      cases h1
    · exact hkept p hp hpF
  · rw [hroot] at hp
    have hpos := List.count_pos_iff.2 hp.mem_owned
    have h1 := huses p
    have h2 := hold p
    have h3 := count_holds_le (s := s') (p := p) hlive.1
    rw [hholds] at h3
    by_cases hpF : p ∈ F
    · have h4 := hzero p hpF
      have h5 := List.count_eq_one_of_mem hx.nodup hpF
      omega
    · have h4 := h.exclusive p (Or.inr ⟨j, hj, (hprivate p hp).resolve_left hpF⟩)
      rw [List.count_eq_zero_of_not_mem hpF] at h2
      omega
  · have h1 := h.counts p hlt
    have h2 := hold p
    have h3 := hx.toNat_pages p
    rw [hholds, holds_of_live hj, hd]
    omega

/-- The references that a call loses: to the page that it replaces. -/
def lost (s : State) (addr : ℕ) (k : ℤ) (p : ℕ) : ℕ :=
  if k = 0 then (userPage s.mem (s.root s.current) (addr / 4096)).toList.count p else 0

/-- **`syscall_page_alloc`** keeps the invariant, and may lose a reference. -/
theorem Inv.pageAlloc (h : Inv L d s) (hlive : s.Live s.current)
    (hres : syscallPageAlloc L s addr = .ok (k, s')) :
    Inv L (fun p => d p + lost s addr k p) s' ∧ s' = { s with mem := s'.mem, pages := s'.pages } ∧
      ∀ p, p ∉ tables s.mem 3 (s.root s.current) → ¬ (Alloc L p ∧ s.pages p = 0) →
        s'.mem p = s.mem p := by
  have hspec := syscallPageAlloc_spec (L := L) addr (h.treeShaped.pagetable hlive)
    (h.procs _ hlive).shaped (h.covered.tables hlive)
  have hok := h.procs _ hlive
  rw [hres] at hspec
  generalize hok' : (Except.ok (k, s') : Except Fault (ℤ × State)) = res at hspec
  cases hspec with
  | refused _ =>
    cases hok'
    exact ⟨h, rfl, fun _ _ _ => rfl⟩
  | fault _ _ => cases hok'
  | @stuck new _ hv hl hx hsub htr =>
    cases hok'
    refine ⟨h.extends hlive hx [] (fun p => ?_) (fun p hp => ?_) ?_ ?_ fun p => rfl, hx.rest,
      hx.mem⟩
    · exact owned_count_stuck hsub htr p
    · refine or_iff_not_imp_left.2 fun hpF => ?_
      simp only [Private, htr, tables, List.mem_cons, hsub.mem_iff, List.mem_append] at hp ⊢
      simpa [hpF] using hp
    · intro w hw
      rw [htr]
      exact hok.half w hw
    · intro v hv' hge
      rw [htr]
      exact hok.high v hv' hge
  | @done n q new _ hv hn hperm habs hx hsub hzero hhere hq hother =>
    cases hok'
    obtain ⟨hlo, hhi⟩ := hv.page.2
    refine ⟨h.extends hlive hx _ (fun p => owned_count_done hlo hhi hsub hhere hq hother p)
      (fun p hp => ?_) ?_ ?_ fun p => rfl, hx.rest, hx.mem⟩
    · rcases hp with hp | ⟨v, q', h1, h2, htr, huser, hwr⟩
      · rw [tables, List.mem_cons, hsub.mem_iff, List.mem_append] at hp
        rcases hp with hp | hp | hp
        · exact Or.inr (Or.inl (hp ▸ List.mem_cons_self))
        · exact Or.inr (Or.inl (List.mem_cons_of_mem _ hp))
        · exact Or.inl (List.mem_cons_of_mem _ hp)
      · by_cases hv' : v = addr / 4096
        · rw [hv', hhere] at htr
          cases htr
          exact Or.inl List.mem_cons_self
        · rw [hother v (canonical_of_lt (by omega)) hv'] at htr
          exact Or.inr (Or.inr ⟨v, q', h1, h2, htr, huser, hwr⟩)
    · intro w hw
      rw [hother w (canonical_of_lt (by omega)) (by omega)]
      exact hok.half w hw
    · intro v hv' hge
      rw [hother v hv' (by omega)]
      exact hok.high v hv' hge

end

/-! ## `syscall_fork` -/

section
variable {k : ℤ} {r : ℕ} {m : Mem}

theorem LowConsole.shares_count_le (hlow : LowConsole m r) (p : ℕ) :
    (shares m r 768).count p ≤ (procPages m r).count p := by
  have hrange : List.range 768 = List.range 256 ++ List.range' 256 512 := by
    rw [List.range_eq_range', List.range_eq_range', List.range'_append_1]
  have hnil : (List.range 256).flatMap (shared m r) = [] :=
    List.flatMap_eq_nil_iff.2 fun w hw => (hlow.copied (List.mem_range.1 hw)).2
  rw [shares, hrange, List.flatMap_append, hnil, List.nil_append]
  unfold procPages userPages
  refine count_flatMap_mono fun w _ => ?_
  rw [shared, userPage]
  cases translate m r w with
  | none => exact le_rfl
  | some x =>
    obtain ⟨n, q⟩ := x
    by_cases hu : IsUser q
    · by_cases hw : IsWritable q
      · simp [hu, hw]
      · simp [hu, hw]
    · simp [hu]

/-- A page that the parent may not write to is not exclusive. -/
theorem Inv.shares_not_exclusive (h : Inv L d s) (hi : s.Live i)
    (hp : p ∈ shares s.mem (s.root i) 768) : ¬ Exclusive s p := by
  intro hex
  have hok := h.procs i hi
  have hproc : p ∈ procPages s.mem (s.root i) :=
    List.count_pos_iff.1 (lt_of_lt_of_le (List.count_pos_iff.2 hp) (hok.low.shares_count_le p))
  have hmem : p ∈ s.holds i := by
    rw [holds_of_live hi]
    exact mem_owned.2 (Or.inl hproc)
  have h1 := h.exclusive p hex
  have hsingle := List.nodup_iff_count_le_one.1 hok.single p
  rw [owned, List.append_assoc, List.count_append] at hsingle
  have hcount := List.count_pos_iff.2 hproc
  rcases hex with hview | ⟨j, hj, hpriv⟩
  · have := two_le_count hi.1 hmem (Or.inl hview)
    omega
  · by_cases hij : j = i
    · subst hij
      rcases hpriv with ht | ⟨v, q, hlo, hhi, htr, huser, hwr⟩
      · have : 0 < (subtables s.mem 3 (s.root j) ++ [s.root j]).count p := by
          refine List.count_pos_iff.2 ?_
          rw [tables, List.mem_cons] at ht
          rw [List.mem_append, List.mem_singleton]
          exact ht.symm
        omega
      · -- the page is mapped at two addresses
        obtain ⟨w, hw, hp⟩ := List.mem_flatMap.1 hp
        obtain ⟨q', htr', huser', hnw⟩ := mem_shared.1 hp
        have hw' := List.mem_range.1 hw
        have hwlo : 256 ≤ w := by
          by_contra hlt
          exact hnw (hok.low w (by omega) p q' htr' huser').2.2
        have hne : v ≠ w := by
          rintro rfl
          rw [htr] at htr'
          cases htr'
          exact hnw hwr
        have htwo := count_add_count_le (f := fun w => (userPage s.mem (s.root j) w).toList)
          (l := List.range' 256 512) (a := p) (List.mem_range'_1.2 ⟨hlo, hhi⟩)
          (List.mem_range'_1.2 ⟨hwlo, hw'⟩) hne
        rw [userPage_eq_some.2 ⟨q, htr, huser⟩, userPage_eq_some.2 ⟨q', htr', huser'⟩] at htwo
        simp only [Option.toList_some, List.count_singleton_self] at htwo
        change 1 + 1 ≤ (procPages s.mem (s.root j)).count p at htwo
        omega
    · have := two_le_count hi.1 hmem (Or.inr ⟨j, hj, hij, hpriv⟩)
      omega

/-- No count overflows in a fork by the current process. -/
def ForkSafe (s : State) : Prop := ∀ p ∈ shares s.mem (s.root s.current) 768, s.pages p ≠ 255

theorem Inv.noWrap (h : Inv L d s) (hlive : s.Live s.current) (hsafe : ForkSafe s) :
    NoWrap s (s.root s.current) := by
  intro p
  have hok := h.procs _ hlive
  have h1 := hok.low.shares_count_le p
  have h2 := List.nodup_iff_count_le_one.1 hok.single p
  rw [owned, List.append_assoc, List.count_append] at h2
  have hlt := (s.pages p).toNat_lt
  by_cases hp : p ∈ shares s.mem (s.root s.current) 768
  · have h3 := hsafe p hp
    have h4 : (s.pages p).toNat ≠ 255 := fun heq => h3 (UInt8.toNat_inj.1 heq)
    omega
  · rw [List.count_eq_zero_of_not_mem hp]
    omega

theorem Inv.parent (h : Inv L d s) (hi : s.Live i) : Parent s (s.root i) :=
  ⟨(h.procs i hi).shaped, h.covered.tables hi, fun _ hw => (h.procs i hi).low.copied hw,
    fun p hp => h.covered i hi p (mem_owned.2 (Or.inl hp))⟩

theorem Inv.forks (h : Inv L d s) (hlive : s.Live s.current) (hsafe : ForkSafe s) :
    Forks L s (s.root s.current) (syscallFork L s) := by
  have hb := h.parent hlive
  refine syscallFork_spec hlive (h.treeShaped.pagetable hlive) hb (fun slot c => ?_) fun p hp => ?_
  · exact freshAlloc_of_noWrap ⟨hb.shaped, hb.used, hb.low, hb.pages⟩ (h.noWrap hlive hsafe)
  · exact ((h.procs _ hlive).alloc p (mem_owned.2 (Or.inl (hb.mem_procPages le_rfl hp)))).lt

/-- The table of the child. -/
theorem Inv.child {slot c : ℕ} {K : List ℕ} (h : Inv L d s) (hlive : s.Live s.current)
    (hinv : ForkInv L (forkBase s slot c) (s.root s.current) c 768 [] K s') :
    ProcOk L s'.mem c := by
  have hok := h.procs _ hlive
  have hb := h.parent hlive
  have hb' : Parent (forkBase s slot c) (s.root s.current) := ⟨hb.shaped, hb.used, hb.low, hb.pages⟩
  have hcount := fun p => hinv.owned_count p
  simp only [List.append_nil, List.nil_append] at hcount
  have hsingle : ∀ p, (shares s.mem (s.root s.current) 768).count p ≤ 1 := by
    intro p
    have h1 := List.nodup_iff_count_le_one.1 hok.single p
    have h2 := hok.low.shares_count_le p
    rw [owned, List.append_assoc, List.count_append] at h1
    omega
  refine ⟨hinv.shaped, hinv.full, hinv.small, List.nodup_iff_count_le_one.2 fun p => ?_,
    fun p hp => ?_, fun w hw => ?_, fun v hv hge => hinv.beyond v hv hge⟩
  · rw [hcount, List.count_append]
    by_cases hp : p ∈ K ++ tables s'.mem 3 c
    · have h0 : s.pages p = 0 := (hinv.fresh p hp).1
      have hsh : p ∉ shares s.mem (s.root s.current) 768 := fun hs =>
        hb.pages p (hb.mem_procPages le_rfl hs) h0
      change _ + (shares s.mem (s.root s.current) 768).count p ≤ 1
      rw [List.count_eq_zero_of_not_mem hsh]
      exact List.nodup_iff_count_le_one.1 hinv.nodup p
    · rw [List.count_eq_zero_of_not_mem hp, Nat.zero_add]
      exact hsingle p
  · have hpos := List.count_pos_iff.2 hp
    rw [hcount] at hpos
    rcases List.mem_append.1 (List.count_pos_iff.1 hpos) with hp | hp
    · exact (hinv.fresh p hp).2
    · exact hok.alloc p (mem_owned.2 (Or.inl (hb.mem_procPages le_rfl hp)))
  · obtain ⟨q, htr, hq⟩ := hok.half w hw
    have hm := hinv.maps w (by omega)
    change Maps s.mem (s.root s.current) s'.mem c K w at hm
    rw [Maps, htr, (hok.low.copied hw).1] at hm
    obtain ⟨n', q', h1, h2, h3⟩ := hm
    rw [if_neg (by decide)] at h3
    rw [h3] at h1
    exact ⟨q', h1, h2.trans hq⟩

/-- The child's private pages were free. -/
theorem ForkInv.private {slot c : ℕ} {K : List ℕ}
    (hinv : ForkInv L (forkBase s slot c) (s.root s.current) c 768 [] K s')
    (hp : Private s'.mem c p) : p ∈ K ++ tables s'.mem 3 c := by
  rcases hp with hp | ⟨v, q, hlo, hhi, htr, huser, hwr⟩
  · exact List.mem_append_right _ hp
  · have hm := hinv.maps v hhi
    rw [Maps] at hm
    cases hpar : translate (forkBase s slot c).mem (s.root s.current) v with
    | none =>
      rw [hpar] at hm
      rw [hm] at htr
      cases htr
    | some x =>
      obtain ⟨n₁, q₁⟩ := x
      rw [hpar] at hm
      obtain ⟨n', q', h1, h2, h3⟩ := hm
      rw [htr] at h1
      cases h1
      have hcop : copied (forkBase s slot c).mem (s.root s.current) v = true := by
        refine copied_iff.2 ⟨n₁, q₁, hpar, by rwa [← isUser_pwu, ← h2, isUser_pwu], ?_,
          by rwa [← isWritable_pwu, ← h2, isWritable_pwu]⟩
        rintro rfl
        exact absurd hlo (by decide)
      rw [if_pos hcop] at h3
      exact List.mem_append_left _ h3.1

/-- A new process keeps the invariant. -/
theorem Inv.fork_done {slot c : ℕ} {K : List ℕ} (h : Inv L d s) (hlive : s.Live s.current)
    (hsafe : ForkSafe s) (hslot : freeSlot s = some slot)
    (hinv : ForkInv L (forkBase s slot c) (s.root s.current) c 768 [] K s') :
    Inv L d (forked s' slot) := by
  have hb := h.parent hlive
  have hb' : Parent (forkBase s slot c) (s.root s.current) := ⟨hb.shaped, hb.used, hb.low, hb.pages⟩
  obtain ⟨hothers, hself⟩ := hinv.ptable hlive hslot
  obtain ⟨hge, hlt, hstate, -⟩ := freeSlot_some hslot
  have hroot : (forked s' slot).root slot = c := by
    rw [State.root, hself]
    exact page_div c
  have hlive' : (forked s' slot).Live slot := ⟨hlt, by rw [hself]; exact hlive.2⟩
  have hempty : s.holds slot = [] := if_pos hstate
  have hholds : (forked s' slot).holds slot = owned s'.mem c := by
    rw [holds_of_live hlive', hroot]
    rfl
  have hcount := fun p => hinv.owned_count p
  simp only [List.append_nil, List.nil_append] at hcount
  have hview : (forked s' slot).viewer = s.viewer := by
    change s'.viewer = s.viewer
    rw [hinv.rest]
    rfl
  have hagree : ∀ i, s.Live i → i ≠ slot → Agree s.mem s'.mem (tables s.mem 3 (s.root i)) :=
    fun i hi _ => agree_of_used h.covered hi fun p hp => hinv.unused hp
  have hchild : ProcOk L s'.mem c := h.child hlive hinv
  have hkernel : Agree s.mem s'.mem (tables s.mem 3 (kernelRoot L)) :=
    h.kernel.agree fun p hp _ => hinv.unused fun hfree => hp hfree.1
  refine h.update hlt hview (by rw [forked, State.setProc, hinv.rest]; exact h.noStale) (by omega)
    (fun _ => by rw [hself]) hkernel (fun i _ hi => hothers i hi) hagree
    (fun _ => by rw [hself]; exact Nat.mul_mod_left c PAGESIZE)
    (fun _ => by rw [hroot]; exact hchild) (fun p hp hex => ?_) (fun p _ hp => ?_) fun p hp => ?_
  · rw [hholds] at hp
    have hpos := List.count_pos_iff.2 hp
    rw [hcount] at hpos
    rcases List.mem_append.1 (List.count_pos_iff.1 hpos) with hp | hp
    · have h0 : s.pages p = 0 := (hinv.fresh p hp).1
      have h1 := h.exclusive p hex
      rw [h.count_eq_zero h0] at h1
      cases h1
    · exact absurd hex (h.shares_not_exclusive hlive hp)
  · rw [hroot] at hp
    have hfresh := hinv.private hp
    have hone : (K ++ tables s'.mem 3 c).count p = 1 := List.count_eq_one_of_mem hinv.nodup hfresh
    have h0 : s.pages p = 0 := (hinv.fresh p hfresh).1
    have hsh : (shares (forkBase s slot c).mem (s.root s.current) 768).count p = 0 :=
      List.count_eq_zero_of_not_mem fun hs => hb.pages p (hb.mem_procPages le_rfl hs) h0
    have huses := uses_count (s := s) (t := forked s' slot) hlt hview
      (fun i hi hij => holds_congr (hothers i hij) (fun hl => hagree i hl hij) hi) p
    rw [hempty, hholds, hcount, h.count_eq_zero h0, List.count_nil, List.count_append, hsh,
      hone] at huses
    omega
  · have h1 := hinv.toNat_pages hb' (h.noWrap hlive hsafe) le_rfl p
    have h2 := h.counts p hp
    rw [hempty, hholds, hcount, List.count_nil]
    simp only [List.nil_append] at h1
    change (s'.pages p).toNat + 0 = _
    change (s'.pages p).toNat = (s.pages p).toNat + _ at h1
    omega

/-- **`syscall_fork`** keeps the invariant. -/
theorem Inv.fork (h : Inv L d s) (hlive : s.Live s.current) (hsafe : ForkSafe s)
    (hres : syscallFork L s = .ok (k, s')) : Inv L d s' ∧ s'.current = s.current ∧
      s'.spinning = s.spinning ∧ (∀ i, s.Live i → s'.ptable i = s.ptable i) ∧
      ∀ p, ¬ (Alloc L p ∧ s.pages p = 0) → s'.mem p = s.mem p := by
  have hforks := h.forks hlive hsafe
  have hb := h.parent hlive
  rw [hres] at hforks
  generalize hok' : (Except.ok (k, s') : Except Fault (ℤ × State)) = res at hforks
  cases hforks with
  | refused _ =>
    cases hok'
    exact ⟨h, rfl, rfl, fun _ _ => rfl, fun _ _ => rfl⟩
  | @done slot c K s₁ hslot hc hinv =>
    cases hok'
    refine ⟨h.fork_done hlive hsafe hslot hinv, ?_, ?_,
      fun i hi => (hinv.ptable hlive hslot).1 i ?_, fun p hp => hinv.unused hp⟩
    · rw [forked, State.setProc, hinv.rest]
      rfl
    · rw [forked, State.setProc, hinv.rest]
      rfl
    · rintro rfl
      exact hi.2 (freeSlot_some hslot).2.2.1
  | @stuck slot c w E K s₁ hslot hc hw' hinv hE hnone =>
    have hb' : Parent (forkBase s slot c) (s.root s.current) :=
      ⟨hb.shaped, hb.used, hb.low, hb.pages⟩
    have hfree : ∀ p ∈ shares s.mem (s.root s.current) w, Freeable p := by
      intro p hp
      have ha := (h.procs _ hlive).alloc p (mem_owned.2 (Or.inl (hb.mem_procPages hw'.le hp)))
      exact ⟨ha.pos, ha.lt, ha.not_console⟩
    rw [cleanup_spec hinv hb' (h.noWrap hlive hsafe) hw'.le hE hfree, ok_bind] at hok'
    obtain rfl : s' = { forkBase s slot c with mem := s₁.mem } := by
      simpa using congrArg Prod.snd (Except.ok.inj hok')
    obtain ⟨-, -, hstate, -⟩ := freeSlot_some hslot
    have hothers : ∀ i, i ≠ slot → Function.update s.ptable slot
        { s.ptable slot with pagetable := c * 4096 } i = s.ptable i := fun i hi =>
      Function.update_of_ne hi _ _
    have hkernel : Agree s.mem s₁.mem (tables s.mem 3 (kernelRoot L)) :=
      h.kernel.agree fun p hp _ => hinv.unused fun hfree => hp hfree.1
    refine ⟨h.frame rfl rfl rfl hkernel (fun i _ => ?_) fun i hi => ?_, rfl, rfl,
      fun i hi => hothers i ?_, fun p hp => hinv.unused hp⟩
    · change ((Function.update s.ptable slot _ i).state = _ ↔ _) ∧
        (_ → (Function.update s.ptable slot _ i).pagetable = _ ∧
          (Function.update s.ptable slot _ i).pid = _)
      by_cases hi : i = slot
      · subst hi
        rw [Function.update_self]
        exact ⟨Iff.rfl, fun hne => absurd hstate hne⟩
      · rw [hothers i hi]
        exact ⟨Iff.rfl, fun _ => ⟨rfl, rfl⟩⟩
    · exact agree_of_used h.covered hi fun p hp => hinv.unused hp
    · rintro rfl
      exact hi.2 hstate

end

end CProj.WeensyOS
