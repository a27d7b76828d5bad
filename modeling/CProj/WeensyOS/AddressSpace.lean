/-
  The kernel's half of an address space.

  Below `PROC_START_ADDR` every process has the kernel's own mappings, in tables that come from the
  same pool as user memory.  They stay the same in every run, so that `check_pagetable` accepts the
  table of every process that is run.
-/
import CProj.WeensyOS.Bystanders

namespace CProj.WeensyOS

variable {L : Layout} {d : ℕ → ℕ} {s s₀ t : State} {i : ℕ} {evs : List Event} {ev : Event}

/-- The frame of a virtual page, and the permissions `PTE_P`, `PTE_W` and `PTE_U`. -/
def mapping (m : Mem) (r v : ℕ) : Option (ℕ × ℕ) := (translate m r v).map fun x => (x.1, pwu x.2)

/-- The address space with root `r` is the kernel's below `PROC_START_ADDR`. -/
structure SharesKernel (L : Layout) (m : Mem) (r : ℕ) : Prop where
  same : ∀ va < PROC_START_ADDR,
    mapping m r (va / PAGESIZE) = mapping m (kernelRoot L) (va / PAGESIZE)
  user : ∀ va < PROC_START_ADDR,
    userPage m r (va / PAGESIZE) ≠ none ↔ va / PAGESIZE = CONSOLE_PAGE

theorem mapping_eq {m : Mem} {r v n q : ℕ} (h : translate m r v = some (n, q)) :
    mapping m r v = some (n, pwu q) := by
  rw [mapping, h]
  rfl

theorem Inv.sharesKernel (h : Inv L d s) (hi : s.Live i) : SharesKernel L s.mem (s.root i) := by
  have hlt : ∀ {va}, va < PROC_START_ADDR → va / PAGESIZE < 256 := by
    intro va hva
    simp only [PROC_START_ADDR, PAGESIZE] at hva ⊢
    omega
  refine ⟨fun va hva => ?_, fun va hva => ?_⟩
  · obtain ⟨q, htr, hq⟩ := (h.procs i hi).half _ (hlt hva)
    obtain ⟨q', htr', hq'⟩ := h.kernel.map _ ((hlt hva).trans (by decide))
    rw [if_pos (hlt hva)] at hq'
    rw [mapping_eq htr, mapping_eq htr', hq, hq']
  · obtain ⟨q, htr, hq⟩ := (h.procs i hi).half _ (hlt hva)
    constructor
    · intro hne
      obtain ⟨n, hn⟩ := Option.ne_none_iff_exists'.1 hne
      obtain ⟨q', htr', huser⟩ := userPage_eq_some.1 hn
      exact ((h.procs i hi).low _ (hlt hva) n q' htr' huser).1
    · intro hcon hnone
      rw [kernelPerm, if_pos hcon] at hq
      have huser : IsUser q := by
        rw [← isUser_pwu, hq]
        decide
      rw [userPage_eq_some.2 ⟨q, htr, huser⟩] at hnone
      cases hnone

/-! ## Calls of `run` -/

/-- The event `ev` makes the kernel call `schedule`, in the state `t`. -/
inductive Switches (L : Layout) (s : State) : Event → State → Prop
  | yield {regs : Regs} {s₁ : State} (hrax : regs.rax = SYSCALL_YIELD)
    (hshow : memshow L (saveRegs s regs) = .ok s₁) :
    Switches L s (.syscall regs) (saveRegs s₁ { (s₁.ptable s₁.current).regs with rax := 0 })
  | exit {regs : Regs} {s₁ t : State} (hrax : regs.rax = SYSCALL_EXIT)
    (hshow : memshow L (saveRegs s regs) = .ok s₁) (hexit : syscallExit s₁ = .ok t) :
    Switches L s (.syscall regs) t
  | timer {regs : Regs} {s₁ : State} (hint : regs.intno = INT_TIMER)
    (hshow : memshow L (saveRegs s regs) = .ok s₁) : Switches L s (.exception regs) s₁
  | fault {regs : Regs} {s₁ : State} (hint : regs.intno = INT_PF) (huser : regs.errcode &&& PFERR_USER ≠ 0)
    (hshow : memshow L (saveRegs s regs) = .ok s₁) :
    Switches L s (.exception regs) (s₁.setProc s₁.current { s₁.ptable s₁.current with state := .broken })

theorem syscallEntry_none {regs : Regs} {s₁ : State} {res : Except Fault State}
    (hshow : memshow L (saveRegs s regs) = .ok s₁)
    (hdisp : dispatch L s₁ regs = do let s ← res; return (none, s)) :
    (do let (_, s) ← syscallEntry L s regs; return s) = res := by
  rw [syscallEntry, syscall, hshow, ok_bind, hdisp]
  cases res with
  | error e => rfl
  | ok s₂ => rfl

theorem Switches.step (h : Switches L s ev t) (hspin : s.spinning = false) :
    step L s ev = schedule L t := by
  unfold WeensyOS.step
  rw [if_neg (by rw [hspin]; decide)]
  cases h with
  | yield hrax hshow =>
    refine syscallEntry_none hshow ?_
    rw [dispatch, hrax, if_neg (by decide), if_pos rfl]
  | exit hrax hshow hexit =>
    refine syscallEntry_none hshow ?_
    rw [dispatch, hrax, if_neg (by decide), if_neg (by decide), if_neg (by decide),
      if_neg (by decide), if_pos rfl, hexit, ok_bind]
  | timer hint hshow =>
    change exception L s _ = _
    rw [exception, hint, if_pos (Or.inl (by decide)), hshow, ok_bind]
    exact if_pos rfl
  | fault hint huser hshow =>
    change exception L s _ = _
    rw [exception, hint, if_pos (Or.inr huser), hshow, ok_bind]
    beta_reduce
    rw [if_neg (show INT_PF ≠ INT_TIMER by decide), if_pos rfl, if_neg huser]

/-- The invariant holds when `schedule` is called. -/
theorem Good.switches (h : Good L d s) (hspin : s.spinning = false) (hsw : Switches L s ev t) :
    Inv L d t := by
  have hlive := h.running hspin
  -- the state after the registers have been saved and memory has been shown
  have hentry : ∀ {regs : Regs} {s₁ : State}, memshow L (saveRegs s regs) = .ok s₁ →
      Inv L d s₁ ∧ s₁.Live s₁.current := by
    intro regs s₁ hshow
    obtain ⟨hinv, hq⟩ := (h.inv.saveRegs regs).memshow hshow
    refine ⟨hinv, ?_⟩
    rw [hq.live, hq.current]
    exact saveRegs_live.2 hlive
  cases hsw with
  | yield _ hshow => exact (hentry hshow).1.saveRegs _
  | exit _ hshow hexit =>
    obtain ⟨hinv, hlive₁⟩ := hentry hshow
    rw [hinv.syscallExit hlive₁] at hexit
    cases hexit
    exact hinv.exited hlive₁
  | timer _ hshow => exact (hentry hshow).1
  | fault _ _ hshow =>
    obtain ⟨hinv, hlive₁⟩ := hentry hshow
    refine hinv.setProc (i := _) ?_ rfl rfl
    exact iff_of_false ProcState.noConfusion hlive₁.2

theorem nextRunnable_some (h : nextRunnable s = some i) :
    i < NPROC ∧ (s.ptable i).state = .runnable := by
  obtain ⟨k, -, hk⟩ := List.mem_map.1 (List.mem_of_find?_eq_some h)
  have hstate := List.find?_some h
  refine ⟨?_, of_decide_eq_true hstate⟩
  rw [← hk]
  exact Nat.mod_lt _ (by decide)

/-- A runnable process passes the checks of `run`. -/
theorem Inv.runProc (h : Inv L d s) (hi : i < NPROC) (hstate : (s.ptable i).state = .runnable) :
    WeensyOS.runProc L s i = .ok { s with current := i } := by
  have hlive : s.Live i := by
    refine ⟨hi, ?_⟩
    rw [hstate]
    decide
  have hcheck : WeensyOS.checkPagetable L { s with current := i } (s.ptable i).pagetable = .ok () :=
    h.checkPagetable hlive
  rw [WeensyOS.runProc, assert_ok hstate, ok_bind]
  simp only
  rw [hcheck, ok_bind]
  rfl

/-- **The kernel's half.**  In every run in which `syscall_page_alloc` never replaces a page, every
    process has the kernel's mappings below `PROC_START_ADDR`, and `check_pagetable` accepts the table
    of every process, in particular of one that is run. -/
theorem run_sharesKernel (hboot : Boot L s₀) (hallocs : Meets (step L) (AllocsUnmapped L) s₀ evs)
    (hrun : run (step L) s₀ evs = .ok s) :
    (∀ i, s.Live i → SharesKernel L s.mem (s.root i) ∧
      checkPagetable L s (s.ptable i).pagetable = .ok ()) ∧
    ∀ ev t, s.spinning = false → Switches L s ev t → step L s ev = schedule L t ∧
      ∀ i, nextRunnable t = some i → checkPagetable L t (t.ptable i).pagetable = .ok () ∧
        runProc L t i = .ok { t with current := i } := by
  have hgood := run_good hboot hallocs hrun
  refine ⟨fun i hi => ⟨hgood.inv.sharesKernel hi, hgood.inv.checkPagetable hi⟩,
    fun ev t hspin hsw => ?_⟩
  have hinv := hgood.switches hspin hsw
  refine ⟨hsw.step hspin, fun i hnext => ?_⟩
  obtain ⟨hi, hstate⟩ := nextRunnable_some hnext
  refine ⟨hinv.checkPagetable ⟨hi, ?_⟩, hinv.runProc hi hstate⟩
  rw [hstate]
  decide

theorem run_sharesKernel_fork : ∃ s,
    run (step smallKernel) fourProcesses (orphan ++ [call SYSCALL_FORK 0]) = .ok s ∧
    (∀ i, s.Live i → SharesKernel smallKernel s.mem (s.root i) ∧
      checkPagetable smallKernel s (s.ptable i).pagetable = .ok ()) ∧
    ∀ ev t, s.spinning = false → Switches smallKernel s ev t →
      step smallKernel s ev = schedule smallKernel t ∧
      ∀ i, nextRunnable t = some i → checkPagetable smallKernel t (t.ptable i).pagetable = .ok () ∧
        runProc smallKernel t i = .ok { t with current := i } := by
  obtain ⟨s, hrun, -⟩ := fourProcesses_fork
  exact ⟨s, hrun, run_sharesKernel fourProcesses_boot fork_allocsUnmapped hrun⟩

end CProj.WeensyOS
