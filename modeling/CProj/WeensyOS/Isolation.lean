/-
  Runs of the kernel from the state it boots into.

  * `run_exact`: as long as no process replaces a page, the counts stay exact;
  * `run_isolated`: as long as no fork overflows a count, the processes stay isolated;
    `leaks_not_isolated` is a run in which one does.
-/
import CProj.WeensyOS.Leak

namespace CProj.WeensyOS

variable {L : Layout} {d : ℕ → ℕ} {s s₀ : State} {evs : List Event}

/-! ## Booting -/

/-- A state in which the first process runs: `kernel` has set up its own page table, and
    `process_setup` has given every process a page table, segment pages and a stack page of its own,
    each from `kalloc`, with the kernel's mappings below `PROC_START_ADDR`. -/
structure Boot (L : Layout) (s : State) : Prop where
  slot0 : (s.ptable 0).state = .free
  pid : ∀ i, s.Live i → (s.ptable i).pid = i
  kernel : KernelTable L s.mem
  viewer : s.viewer = 0
  spinning : s.spinning = false
  noStale : s.staleFree = false
  current : s.Live s.current
  aligned : ∀ i, s.Live i → (s.ptable i).pagetable % PAGESIZE = 0
  shaped : ∀ i, s.Live i → Shaped s.mem (s.root i)
  full : ∀ i, s.Live i → Full s.mem (s.root i)
  small : ∀ i, s.Live i → Small s.mem (s.root i)
  own : s.uses.Nodup
  alloc : ∀ p ∈ s.uses, Alloc L p
  exact : Exact s
  half : ∀ i, s.Live i → KernelHalf s.mem (s.root i)
  high : ∀ i, s.Live i → ∀ v, Canonical v → 768 ≤ v → translate s.mem (s.root i) v = none

theorem Boot.good (h : Boot L s) : Good L (fun _ => 0) s := by
  refine ⟨⟨h.slot0, h.pid, h.aligned, fun i hi => ⟨h.shaped i hi, h.full i hi, h.small i hi, ?_,
      fun p hp => ?_, h.half i hi, h.high i hi⟩, fun p hp => ?_,
    fun p hp => h.alloc p (mem_uses.2 (Or.inl hp)), fun p hp => ?_, h.kernel, h.noStale⟩,
    fun _ => h.current⟩
  · refine List.nodup_iff_count_le_one.2 fun p => ?_
    have h1 := List.nodup_iff_count_le_one.1 h.own p
    have h2 := count_holds_le (s := s) (p := p) hi.1
    rw [holds_of_live hi] at h2
    exact h2.trans h1
  · exact h.alloc p (mem_uses.2 (Or.inr ⟨i, hi, hp⟩))
  · refine List.count_eq_one_of_mem h.own (mem_uses.2 (hp.imp_right ?_))
    rintro ⟨i, hi, hp⟩
    exact ⟨i, hi, hp.mem_owned⟩
  · have hx := h.exact p
    rw [if_pos hp] at hx
    rw [hx, Nat.add_zero]

/-! ### Four processes -/

section
variable {m : Mem} {r : ℕ}

/-- The table maps the pages below `n` to themselves, with the permissions `perm`. -/
def identityOk (m : Mem) (r n : ℕ) (perm : ℕ → ℕ) : Bool :=
  (List.range n).all fun w =>
    match translate m r w with
    | some (p, q) => p == w && pwu q == perm w
    | none => false

theorem identity_of_check {n w : ℕ} (perm : ℕ → ℕ) (h : identityOk m r n perm = true) (hw : w < n) :
    ∃ q, translate m r w = some (w, q) ∧ pwu q = perm w := by
  rw [identityOk, List.all_eq_true] at h
  have hi := h w (List.mem_range.2 hw)
  cases htr : translate m r w with
  | none =>
    rw [htr] at hi
    cases hi
  | some x =>
    obtain ⟨p, q⟩ := x
    rw [htr] at hi
    obtain ⟨hp, hq⟩ := Bool.and_eq_true_iff.1 hi
    rw [beq_iff_eq.1 hp]
    exact ⟨q, rfl, beq_iff_eq.1 hq⟩

end

/-- The page table that `process_setup` builds in the pages from `b` on for a program of one
    read-only page and `n` writable pages: four tables, the pages of the program, the stack and the
    table that maps it. -/
def processTable (b n : ℕ) : Mem := fun p i =>
  if p = b ∨ p = b + 1 then if i = 0 then (p + 1) * 4096 + 7 else 0
  else if p = b + 2 then
    if i = 0 then (b + 3) * 4096 + 7 else if i = 1 then (b + n + 6) * 4096 + 7 else 0
  else if p = b + 3 then
    if i < 256 then i * 4096 + kernelPerm i
    else if i = 256 then (b + 4) * 4096 + 5
    else if i ≤ 256 + n then (b + 4 + (i - 256)) * 4096 + 7
    else 0
  else if p = b + n + 6 then if i = 255 then (b + n + 5) * 4096 + 7 else 0
  else 0

/-- `kernel_pagetable`, in the pages from `0x50` on. -/
def kernelTableMem : Mem := fun p i =>
  if p = 0x50 then if i = 0 then 0x51 * 4096 + 7 else 0
  else if p = 0x51 then
    if i = 0 then 0x52 * 4096 + 7 else if i ≤ 3 then i * 2 ^ 30 + 0x83 else 0
  else if p = 0x52 then if i < 2 then (0x53 + i) * 4096 + 7 else 0
  else if p = 0x53 then if i < 256 then i * 4096 + kernelPerm i else i * 4096 + 7
  else 0

/-- The kernel has set up four processes; the program of the first has four writable pages. -/
def fourProcesses : State :=
  stateOf [(1, 1), (2, 12), (3, 20), (4, 28)]
    (fun p =>
      if p < 12 then processTable 1 4 p
      else if p < 20 then processTable 12 1 p
      else if p < 28 then processTable 20 1 p
      else if p < 36 then processTable 28 1 p
      else kernelTableMem p)
    fun p => if 1 ≤ p ∧ p < 36 then 1 else 0

theorem fourProcesses_kernel : KernelTable smallKernel fourProcesses.mem := by
  have htables : tables fourProcesses.mem 3 (kernelRoot smallKernel) =
      [0x50, 0x53, 0x54, 0x52, 0x51] := by
    decide +kernel
  refine ⟨shaped_of_check (by rw [htables]; decide) (by decide +kernel), fun p hp => ?_,
    fun w hw => ?_⟩
  · rw [htables] at hp
    simp only [List.mem_cons, List.not_mem_nil, or_false] at hp
    rcases hp with rfl | rfl | rfl | rfl | rfl <;> exact ⟨by unfold Alloc; decide, by decide⟩
  · exact identity_of_check (fun w => if w < 256 then kernelPerm w else 7) (by decide +kernel) hw

/-- The roots of the processes. -/
theorem fourProcesses_root {i : ℕ} (h : fourProcesses.Live i) :
    fourProcesses.root i ∈ [1, 12, 20, 28] := by
  obtain ⟨r, hr, hroot, -⟩ := stateOf_live h
  rw [show fourProcesses.root i = r from hroot]
  exact List.mem_map_of_mem (f := Prod.snd) hr

theorem fourProcesses_links : ∀ r ∈ [1, 12, 20, 28], linksOk fourProcesses.mem 3 r = true := by
  decide +kernel

theorem fourProcesses_half :
    ∀ r ∈ [1, 12, 20, 28], identityOk fourProcesses.mem r 256 kernelPerm = true := by
  decide +kernel

theorem fourProcesses_high :
    ∀ r ∈ [1, 12, 20, 28], ∀ w ∈ presentPages fourProcesses.mem 3 r, w < 768 := by
  decide +kernel

theorem fourProcesses_exact : Exact fourProcesses := exact_of_check (by decide +kernel)

theorem fourProcesses_boot : Boot smallKernel fourProcesses := by
  have htrees : TreeShaped fourProcesses := stateOf_treeShaped (by decide +kernel)
  have hx := fourProcesses_exact
  have huse : ∀ p ∈ fourProcesses.uses, 1 ≤ p ∧ p < 36 := by
    intro p hp
    by_contra hlt
    exact (hx.used hp).2 (if_neg hlt)
  refine ⟨rfl, fun i hi => ?_, fourProcesses_kernel, rfl, rfl, rfl, by decide, htrees.aligned,
    htrees.shaped, fun i hi => full_of_check (fourProcesses_links _ (fourProcesses_root hi)),
    fun i hi => small_of_check (fourProcesses_links _ (fourProcesses_root hi)), ?_, fun p hp => ?_,
      hx,
    fun i hi w hw => identity_of_check _ (fourProcesses_half _ (fourProcesses_root hi)) hw,
    fun i hi v hv hge => high_of_check
      (small_of_check (fourProcesses_links _ (fourProcesses_root hi)))
      (fourProcesses_high _ (fourProcesses_root hi)) (by decide) hv hge⟩
  · exact stateOf_pid
  · refine List.nodup_iff_count_le_one.2 fun p => ?_
    rw [hx p]
    split_ifs with hp
    · change (if 1 ≤ p ∧ p < 36 then (1 : UInt8) else 0).toNat ≤ 1
      split_ifs
      · exact le_rfl
      · exact Nat.zero_le 1
    · exact Nat.zero_le 1
  · have halloc : ∀ p < 36, 1 ≤ p → allocatablePhysicalAddress smallKernel (p * PAGESIZE) =
        true := by
      decide
    exact halloc p (huse p hp).2 (huse p hp).1

theorem fourProcesses_leaky : Leaky smallKernel fourProcesses.mem 12 36 16 := by
  have htr : translate fourProcesses.mem 12 256 = some (16, 5) := by decide +kernel
  refine ⟨⟨5, htr, by decide, by decide⟩, by decide +kernel, by decide +kernel, ?_, by decide,
    by decide⟩
  have howned : owned fourProcesses.mem 12 = [16, 17, 18, 15, 19, 14, 13, 12] := by decide +kernel
  intro p h1 h2
  rw [howned]
  have halloc : ∀ p < 12, 1 ≤ p → allocatablePhysicalAddress smallKernel (p * PAGESIZE) = true := by
    decide
  refine ⟨halloc p (by omega) h1, ?_, by omega⟩
  simp only [List.mem_cons, List.not_mem_nil, or_false]
  omega

/-- The events after which the process in slot 2 is alone. -/
def orphan : List Event :=
  [call SYSCALL_EXIT 0, call SYSCALL_YIELD 0, call SYSCALL_EXIT 0, call SYSCALL_EXIT 0]

theorem fourProcesses_turn : Turn smallKernel (fun _ => 0) [1, 2, 3, 4] 1 0 fourProcesses := by
  refine ⟨⟨fourProcesses_boot.good.inv, fun i => ?_, by decide, rfl⟩, rfl, by decide, rfl⟩
  by_cases hi : i < 16
  · revert i
    decide
  · refine iff_of_false (fun h => hi h.1) fun h => hi ?_
    simp only [List.mem_cons, List.not_mem_nil, or_false] at h
    omega

theorem fourProcesses_orphan : ∃ s, run (step smallKernel) fourProcesses orphan = .ok s ∧
    Leaked smallKernel fourProcesses.mem 12 36 16 0 s := by
  have hshown : shown smallKernel fourProcesses = 36 * 4096 := by decide +kernel
  have hV : 36 * 4096 ≠ 0 := by decide
  obtain ⟨s₁, hstep₁, h₁, hkeeps₁⟩ := fourProcesses_turn.exit (j := 2)
    (by rw [hshown]; exact hV) rfl
  rw [hshown] at h₁
  obtain ⟨s₂, hstep₂, h₂, -, hkeeps₂⟩ := h₁.yield (j := 3) (by rw [h₁.shown hV]; exact hV) rfl
  rw [h₁.shown hV] at h₂
  obtain ⟨s₃, hstep₃, h₃, hkeeps₃⟩ := h₂.exit (j := 4) (by rw [h₂.shown hV]; exact hV) rfl
  rw [h₂.shown hV] at h₃
  obtain ⟨s₄, hstep₄, h₄, hkeeps₄⟩ := h₃.exit (j := 2) (by rw [h₃.shown hV]; exact hV) rfl
  rw [h₃.shown hV] at h₄
  have hkeeps : Keeps 2 fourProcesses s₄ := (hkeeps₁ 2 (by decide) (by decide)).trans
    ((hkeeps₂ 2 (by decide)).trans ((hkeeps₃ 2 (by decide) (by decide)).trans
      (hkeeps₄ 2 (by decide) (by decide))))
  have hlost : (fun _ => 0 : ℕ → ℕ) = fun p => if p = 16 then 0 else 0 := by
    funext p
    rw [ite_self]
  rw [hlost] at h₄
  refine ⟨s₄, ?_, h₄, hkeeps.root, hkeeps.agree⟩
  exact run_cons.2 ⟨s₁, hstep₁, run_cons.2 ⟨s₂, hstep₂, run_cons.2 ⟨s₃, hstep₃,
    run_cons.2 ⟨s₄, hstep₄, rfl⟩⟩⟩⟩

theorem fourProcesses_fork : ∃ s,
    run (step smallKernel) fourProcesses (orphan ++ [call SYSCALL_FORK 0]) = .ok s ∧
      s.spinning = false ∧ s.viewer = 36 * 4096 := by
  obtain ⟨s₁, hrun, h₁⟩ := fourProcesses_orphan
  obtain ⟨s₂, hstep, h₂, -⟩ := h₁.turn.fork (k := 1) (by decide) rfl
    (h₁.forkSafe fourProcesses_leaky (by decide)) (h₁.room fourProcesses_leaky)
  exact ⟨s₂, run_append.2 ⟨s₁, hrun, run_cons.2 ⟨s₂, hstep, rfl⟩⟩, h₂.active.spinning, h₂.viewer⟩

/-- The fork overflows no count. -/
theorem fork_safeFork : Meets (step smallKernel) SafeFork fourProcesses
    (orphan ++ [call SYSCALL_FORK 0]) := by
  refine meets_append.2 ⟨?_, fun t ht => ?_⟩
  · exact ⟨fun h => absurd h (by decide), fun _ _ => ⟨fun h => absurd h (by decide), fun _ _ =>
      ⟨fun h => absurd h (by decide), fun _ _ => ⟨fun h => absurd h (by decide),
        fun _ _ => trivial⟩⟩⟩⟩
  · obtain ⟨s₁, hrun₁, h₁⟩ := fourProcesses_orphan
    rw [ht] at hrun₁
    cases hrun₁
    exact ⟨fun _ => h₁.forkSafe fourProcesses_leaky (by decide), fun _ _ => trivial⟩

/-! ## Exact counts -/

theorem Good.exact (h : Good L (fun _ => 0) s) : Exact s := by
  intro p
  split_ifs with hp
  · rw [h.inv.counts p hp, Nat.add_zero]
  · exact List.count_eq_zero_of_not_mem fun hmem => hp (h.inv.uses_alloc hmem).lt

/-- Counts that are exact cannot overflow: a page is used at most once by each process. -/
theorem Inv.forkSafe (h : Inv L (fun _ => 0) s) (hlive : s.Live s.current) : ForkSafe s := by
  intro p hp h255
  have hmem := (h.parent hlive).mem_procPages le_rfl hp
  have hlt := ((h.procs _ hlive).alloc p (mem_owned.2 (Or.inl hmem))).lt
  have hcount := h.counts p hlt
  have h1 : ((List.range NPROC).flatMap s.holds).count p ≤ 16 := by
    refine (count_flatMap_le_length fun i hi => ?_).trans (List.length_range (n := NPROC)).le
    rw [State.holds]
    split_ifs with hfree
    · exact List.nodup_nil
    · exact (h.procs i ⟨List.mem_range.1 hi, hfree⟩).single
  have h2 : s.viewerPages.count p ≤ 1 := by
    rw [State.viewerPages]
    split_ifs
    · exact Nat.zero_le 1
    · exact List.nodup_iff_count_le_one.1 (List.nodup_singleton _) p
  have h3 : (255 : UInt8).toNat = 255 := rfl
  rw [h255, h3, State.uses, List.count_append] at hcount
  omega

theorem step_spinning {ev : Event} {s' : State} (h : step L s ev = .ok s') :
    s.spinning = false := by
  rw [← Bool.not_eq_true]
  intro hspin
  unfold step at h
  rw [if_pos hspin] at h
  cases h

/-- In a run in which `syscall_page_alloc` never replaces a page, no reference is lost. -/
theorem run_good (hboot : Boot L s₀) (hallocs : Meets (step L) (AllocsUnmapped L) s₀ evs)
    (hrun : run (step L) s₀ evs = .ok s) : Good L (fun _ => 0) s := by
  refine run_inv (Good L fun _ => 0) (A := fun _ => True) (fun s ev s' h _ hun hstep => ?_)
    hboot.good (fun _ _ => trivial) hallocs hrun
  have hsafe : SafeFork s ev := by
    cases ev with
    | syscall regs =>
      intro _
      exact h.inv.forkSafe (h.running (step_spinning hstep))
    | _ => trivial
  obtain ⟨d', h', hd⟩ := h.step hsafe hstep
  rw [hd hun] at h'
  exact h'

/-- **Exact reference counting.**  In every run in which `syscall_page_alloc` never replaces a page,
    the counts are the numbers of references, and `kfree` is never called on a free page. -/
theorem run_exact (hboot : Boot L s₀) (hallocs : Meets (step L) (AllocsUnmapped L) s₀ evs)
    (hrun : run (step L) s₀ evs = .ok s) : Exact s ∧ s.staleFree = false := by
  have hgood := run_good hboot hallocs hrun
  exact ⟨hgood.exact, hgood.inv.noStale⟩

/-- No event is a call of `syscall_page_alloc`. -/
theorem fork_allocsUnmapped : Meets (step smallKernel) (AllocsUnmapped smallKernel) fourProcesses
    (orphan ++ [call SYSCALL_FORK 0]) :=
  ⟨fun h => absurd h (by decide), fun _ _ => ⟨fun h => absurd h (by decide), fun _ _ =>
    ⟨fun h => absurd h (by decide), fun _ _ => ⟨fun h => absurd h (by decide), fun _ _ =>
      ⟨fun h => absurd h (by decide), fun _ _ => trivial⟩⟩⟩⟩⟩

theorem run_exact_fork : ∃ s,
    run (step smallKernel) fourProcesses (orphan ++ [call SYSCALL_FORK 0]) = .ok s ∧
      (Exact s ∧ s.staleFree = false) := by
  obtain ⟨s, hrun, -⟩ := fourProcesses_fork
  exact ⟨s, hrun, run_exact fourProcesses_boot fork_allocsUnmapped hrun⟩

/-! ## Isolation -/

/-- The processes are isolated from each other and from the kernel. -/
structure Isolated (s : State) : Prop where
  /-- what a process uses is not handed out again -/
  tables_used : ∀ i, s.Live i → ∀ p ∈ tables s.mem 3 (s.root i), s.pages p ≠ 0
  pages_used : ∀ i, s.Live i → ∀ v, PROC_START_ADDR / PAGESIZE ≤ v → v < MEMSIZE_VIRTUAL / PAGESIZE →
    ∀ p, userPage s.mem (s.root i) v = some p → s.pages p ≠ 0
  /-- a page that a process may write to is not accessible to another, and is no table -/
  not_shared : ∀ i, s.Live i → ∀ v n q, Canonical v → translate s.mem (s.root i) v = some (n, q) →
    IsUser q → IsWritable q → n ≠ CONSOLE_PAGE → ∀ j, s.Live j →
    (j ≠ i → ∀ w, Canonical w → userPage s.mem (s.root j) w ≠ some n) ∧ n ∉ tables s.mem 3 (s.root j)

theorem Good.isolated (h : Good L d s) : Isolated s := by
  have hcov := h.inv.covered
  refine ⟨fun i hi => hcov.tables hi, fun i hi v hlo hhi p hp => ?_,
    fun i hi v n q hv htr huser hwr hcon j hj => ⟨fun hji w hw hpage => ?_, ?_⟩⟩
  · exact hcov i hi p (mem_owned.2 (Or.inl (mem_procPages.2 ⟨v, hlo, hhi, hp⟩)))
  · have hok := h.inv.procs i hi
    have hok' := h.inv.procs j hj
    obtain ⟨q', htr', huser'⟩ := userPage_eq_some.1 hpage
    by_cases hlow : v < 256
    · exact hcon (hok.low v hlow n q htr huser).2.1
    by_cases hlow' : w < 256
    · exact hcon (hok'.low w hlow' n q' htr' huser').2.1
    by_cases hhigh : v < 768
    swap
    · rw [hok.high v hv (by omega)] at htr
      cases htr
    by_cases hhigh' : w < 768
    swap
    · rw [hok'.high w hw (by omega)] at htr'
      cases htr'
    have hpriv : Private s.mem (s.root i) n := Or.inr ⟨v, q, by omega, hhigh, htr, huser, hwr⟩
    have hmem : n ∈ s.holds j := by
      rw [holds_of_live hj]
      exact mem_owned.2 (Or.inl (mem_procPages.2 ⟨w, by omega, hhigh', hpage⟩))
    have h1 := h.inv.exclusive n (Or.inr ⟨i, hi, hpriv⟩)
    have h2 := two_le_count hj.1 hmem (Or.inr ⟨i, hi, Ne.symm hji, hpriv⟩)
    omega
  · exact h.inv.not_table hi hj htr hv huser hwr

/-- In a run in which no fork overflows a count, the invariant holds up to lost references. -/
theorem run_safe (hboot : Boot L s₀) (hforks : Meets (step L) SafeFork s₀ evs)
    (hrun : run (step L) s₀ evs = .ok s) : ∃ d, Good L d s := by
  refine run_inv (fun s => ∃ d, Good L d s) (A := fun _ => True) (fun s ev s' h _ hsafe hstep => ?_)
    ⟨_, hboot.good⟩ (fun _ _ => trivial) (C := fun s ev => SafeFork s ev) hforks hrun
  obtain ⟨d, h⟩ := h
  obtain ⟨d', h', -⟩ := h.step hsafe hstep
  exact ⟨d', h'⟩

/-- **Process isolation.**  In every run in which no fork overflows a count, the processes stay
    isolated. -/
theorem run_isolated (hboot : Boot L s₀) (hforks : Meets (step L) SafeFork s₀ evs)
    (hrun : run (step L) s₀ evs = .ok s) : Isolated s := by
  obtain ⟨d, hgood⟩ := run_safe hboot hforks hrun
  exact hgood.isolated

theorem run_isolated_fork : ∃ s,
    run (step smallKernel) fourProcesses (orphan ++ [call SYSCALL_FORK 0]) = .ok s ∧
      Isolated s := by
  obtain ⟨s, hrun, -⟩ := fourProcesses_fork
  exact ⟨s, hrun, run_isolated fourProcesses_boot fork_safeFork hrun⟩

/-- The process in slot 2 loses 254 references to its read-only page, and forks: the page is free,
    and it is still mapped. -/
theorem leaks_not_isolated :
    Boot smallKernel fourProcesses ∧ ∃ s, run (step smallKernel) fourProcesses
    (orphan ++ (List.replicate 254 leak).flatten ++ [call SYSCALL_FORK 0]) = .ok s ∧
      ¬ Isolated s := by
  obtain ⟨s₁, hrun₁, h₁⟩ := fourProcesses_orphan
  obtain ⟨s₂, hrun₂, h₂⟩ := h₁.leaks fourProcesses_leaky 254 le_rfl
  obtain ⟨s₃, hstep, hlive, hpage, h0⟩ := h₂.last fourProcesses_leaky
  refine ⟨fourProcesses_boot, s₃, ?_, fun h =>
    h.pages_used 2 hlive 256 (by decide) (by decide) 16 hpage h0⟩
  exact run_append.2 ⟨s₂, run_append.2 ⟨s₁, hrun₁, hrun₂⟩, run_cons.2 ⟨s₃, hstep, rfl⟩⟩

end CProj.WeensyOS
